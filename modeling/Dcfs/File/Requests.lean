import Dcfs.File.Write
import Dcfs.State.Namespace

namespace Dcfs

open Machine Tables World Request Exec Sparse

variable {cfg : Config} {w u : World} {n : Uuid} {node : NodeRecord}

theorem Consistent.relocked (hw : Consistent cfg w) (locks : List Uuid) :
    Consistent cfg { w with nodeLocks := locks } :=
  hw.of_nodes rfl rfl rfl rfl le_rfl hw.node (fun h hc => ⟨_, h, hc⟩)

theorem Frame.relocked {v : Uuid} {locks : List Uuid} (h : Frame n v { w with nodeLocks := locks } u) :
    Frame n v w { u with nodeLocks := w.nodeLocks } :=
  ⟨h.nodes, h.versions, h.chunks, h.objects, h.sweeping, rfl⟩

theorem Wrote.relocked {version : FileVersionRecord} {offset : ℕ} {body : Bytes} {locks : List Uuid}
    (h : Wrote cfg n node version offset body { w with nodeLocks := locks } u) :
    Wrote cfg n node version offset body w { u with nodeLocks := w.nodeLocks } :=
  ⟨h.consistent.relocked _, h.newest, h.size, h.lookup, h.frame.relocked, h.reused, h.fresh, h.covered,
    h.kept⟩

def afterWrite (cfg : Config) (n : Uuid) (node updated : NodeRecord) (version : FileVersionRecord)
    (offset : ℕ) (body : Bytes) (u : World) : World :=
  if crosses node.length (max node.length (offset + body.length)) then settled cfg u n updated version
  else u

variable (faults : Faults)

theorem exec_writeBytes_nil (offset : ℕ) : exec cfg faults (writeBytes cfg n offset []) w = (.ok 0, w) := rfl

theorem writeBytes_refused (h : ∀ node, w.nodes.lookup n = some node → node.kind = .directory) (offset : ℕ)
    (body : Bytes) : (exec cfg faults (writeBytes cfg n offset body) w).2 = w := by
  unfold writeBytes
  split_ifs
  · rfl
  · rw [exec_withNodeLock]
    have hlocked : (exec cfg faults (writeLocked cfg n offset body) { w with nodeLocks := n :: w.nodeLocks }).2 =
        { w with nodeLocks := n :: w.nodeLocks } := by
      rw [writeLocked, exec_query]
      simp only [answer, World.getNode]
      cases hnode : w.nodes.lookup n with
      | none => rfl
      | some node =>
        simp only [repo_ok, pure_bind, h node hnode, if_true]
        rfl
    dsimp only
    rw [hlocked, List.erase_cons_head]

theorem exec_writeBytes_ran (hw : Consistent cfg w) (hnode : w.nodes.lookup n = some node)
    (hkind : node.kind ≠ .directory) {body : Bytes} (hbody : body ≠ []) (offset : ℕ) :
    ∃ version plan old u t updated,
      Ran cfg faults n node version offset body plan old { w with nodeLocks := n :: w.nodeLocks } u t
        ∧ (sized t n version.id (asI64 plan.newSize)).nodes.lookup n = some updated
        ∧ exec cfg faults (writeBytes cfg n offset body) w =
          (.ok body.length, { finished cfg n updated version plan t with nodeLocks := w.nodeLocks }) := by
  obtain ⟨version, plan, old, u, t, updated, hran, hlook, hexec⟩ :=
    exec_writeLocked_ran faults (hw.relocked (n :: w.nodeLocks)) hnode hkind offset body
  obtain ⟨-, -, -, -, hframe⟩ := hran.sized_facts (inI64_asI64 plan.newSize)
  have hlocks : (finished cfg n updated version plan t).nodeLocks = n :: w.nodeLocks := by
    unfold finished
    split_ifs
    · exact hframe.nodeLocks
    · exact hframe.nodeLocks
  refine ⟨version, plan, old, u, t, updated, hran, hlook, ?_⟩
  rw [writeBytes, List.isEmpty_eq_false_iff.mpr hbody, if_neg Bool.false_ne_true, exec_withNodeLock, hexec]
  dsimp only
  rw [hlocks, List.erase_cons_head]

theorem exec_writeBytes (hw : Consistent cfg w) (hnode : w.nodes.lookup n = some node)
    (hkind : node.kind ≠ .directory) {offset : ℕ} {body : Bytes}
    (hbody : body ≠ []) (hend : offset + body.length < 2 ^ 63) :
    ∃ version updated u, Wrote cfg n node version offset body w u ∧ u.nodes.lookup n = some updated
      ∧ exec cfg faults (writeBytes cfg n offset body) w =
        (.ok body.length, afterWrite cfg n node updated version offset body u) := by
  obtain ⟨version, plan, old, u, t, updated, hran, hlook, hexec⟩ :=
    exec_writeBytes_ran faults hw hnode hkind hbody offset
  have hplan := hran.planFor (length_lt hw hnode) hbody hend
  refine ⟨_, updated, _, (hran.wrote hplan (asI64_of_lt hplan.valid.newSize_lt)).relocked, hlook, ?_⟩
  rw [hexec, finished, afterWrite, hplan.newSize_eq, hplan.oldSize_eq]
  split_ifs <;> rfl

theorem exec_commitNode_none (hnode : w.nodes.lookup n = some node)
    (hnone : newest (w.stagingOf n) = none) : exec cfg faults (commitNode cfg n) w = (.ok (), w) := by
  rw [commitNode, exec_query, answer_getNode hnode, repo_ok, pure_bind]
  have hlocked : exec cfg faults (withNodeLock n (commitWorkingVersion cfg n)) w = (.ok false, w) := by
    rw [exec_withNodeLock, exec_commitWorkingVersion_none (w := { w with nodeLocks := n :: w.nodeLocks })
      hnone]
    dsimp only
    rw [List.erase_cons_head]
  exact exec_bind_ok hlocked

theorem exec_commitNode (hw : Consistent cfg w) (hnode : w.nodes.lookup n = some node)
    {working : FileVersionRecord} (h : newest (w.stagingOf n) = some working) :
    exec cfg faults (commitNode cfg n) w = (.ok (), settled cfg w n node working) := by
  rw [commitNode, exec_query, answer_getNode hnode, repo_ok, pure_bind]
  have hlocked : exec cfg faults (withNodeLock n (commitWorkingVersion cfg n)) w =
      (.ok true, settled cfg w n node working) := by
    rw [exec_withNodeLock, exec_commitWorkingVersion (w := { w with nodeLocks := n :: w.nodeLocks })
      (hw.relocked _) hnode h]
    change (_, { settled cfg w n node working with nodeLocks := (n :: w.nodeLocks).erase n }) = _
    rw [List.erase_cons_head]
    rfl
  exact exec_bind_ok hlocked

theorem exec_commitNode_missing (hnode : w.nodes.lookup n = none) :
    exec cfg faults (commitNode cfg n) w = (.error (.ofRepository .notFound), w) := by
  rw [commitNode, exec_query]
  simp only [answer, World.getNode, hnode]
  rfl

section keeps

theorem commitWorkingVersion_keeps : Keeps cfg faults (Sound cfg) (commitWorkingVersion cfg n) := by
  intro w hw
  cases hnew : newest (w.stagingOf n) with
  | none =>
    rw [exec_commitWorkingVersion_none hnew]
    exact hw
  | some working =>
    cases hnode : w.nodes.lookup n with
    | none =>
      rw [commitWorkingVersion, exec_query, answer_findOpen hnew]
      dsimp only
      rw [exec_query]
      simp only [answer, World.getNode, hnode]
      exact hw
    | some node =>
      rw [exec_commitWorkingVersion hw.consistent hnode hnew]
      exact ⟨settled_consistent hw.consistent hnode hnew, hw.sweeping⟩

theorem writeLocked_keeps (offset : ℕ) (body : Bytes) :
    Keeps cfg faults (Sound cfg) (writeLocked cfg n offset body) := by
  intro w hw
  cases hnode : w.nodes.lookup n with
  | none =>
    rw [writeLocked, exec_query]
    simp only [answer, World.getNode, hnode]
    exact hw
  | some node =>
    by_cases hkind : node.kind = .directory
    · rw [writeLocked, exec_query, answer_getNode hnode, repo_ok, pure_bind, if_pos hkind]
      exact hw
    obtain ⟨version, plan, old, u, t, updated, hran, hlook, hexec⟩ :=
      exec_writeLocked_ran faults hw.consistent hnode hkind offset body
    obtain ⟨-, -, hconsistent, hnewest, hframe⟩ := hran.sized_facts (inI64_asI64 plan.newSize)
    have hsweeping := hframe.sweeping.trans hw.sweeping
    rw [hexec, finished]
    split_ifs
    · exact ⟨settled_consistent hconsistent hlook hnewest, hsweeping⟩
    · exact ⟨hconsistent, hsweeping⟩

end keeps

end Dcfs
