import Dcfs.File.Revert
import Dcfs.File.Untouched

namespace Dcfs

open Machine Tables World Request Exec

variable {cfg : Config} {w u : World} {n m : Uuid} {node : NodeRecord} {size : ℤ}

def Operation.SetsSize (n : Uuid) (size : ℤ) : Operation → Prop
  | .patchNode id req => id = n ∧ req.size.map (fun s : ℕ => asI64 s) = some size
  | .davTruncate node => node.id = n ∧ size = 0
  | _ => False

def Operation.Upkeep : Operation → Prop
  | .commitNode _ => True
  | .collectOnce _ => True
  | .wait _ => True
  | _ => False

def Upkept (cfg : Config) (w u : World) : Prop :=
  ∃ faults op, Operation.Upkeep op ∧ u = w.after cfg faults op

/-- No open version of the node would give it another size, and neither would the committed one. -/
def Backs (w : World) (n : Uuid) (node : NodeRecord) (size : ℤ) : Prop :=
  (∀ version ∈ w.stagingOf n, version.size = size) ∧
    (w.committedSize node = size ∨ ∃ version ∈ w.stagingOf n, ∃ row ∈ w.rowsOf version.id,
      row.objectId ∈ currentObjects w node)

structure Firm (cfg : Config) (w : World) (n : Uuid) (size : ℤ) : Prop where
  sound : Sound cfg w
  node : ∃ node, w.nodes.lookup n = some node ∧ node.kind = .file ∧ node.size = size ∧ Backs w n node size

theorem sharing_ne_nil : sharing w n node ≠ [] ↔
    ∃ version ∈ w.stagingOf n, ∃ row ∈ w.rowsOf version.id, row.objectId ∈ currentObjects w node := by
  constructor
  · intro h
    obtain ⟨version, hmem⟩ := List.exists_mem_of_ne_nil _ h
    exact ⟨version, mem_sharing.mp hmem⟩
  · rintro ⟨version, hmem⟩
    exact List.ne_nil_of_mem (mem_sharing.mpr hmem)

section setting

variable (cfg) in
theorem setsSize_after {op : Operation} (hop : op.SetsSize n size) (hnode : w.nodes.lookup n = some node)
    (faults : Faults) : ∃ mode uid gid mtime atime,
      w.after cfg faults op = (w.updateNodeAttr n mode uid gid (some size) mtime atime).2 := by
  have hattr : ∀ mode uid gid size mtime atime, (exec cfg faults
      (Request.ask (.updateNodeAttr n mode uid gid size mtime atime) >>= Request.repo) w).2 =
        (w.updateNodeAttr n mode uid gid size mtime atime).2 := by
    intro mode uid gid size mtime atime
    rw [exec_ask]
    simp only [perform, World.updateNodeAttr, hnode]
    rfl
  cases op with
  | patchNode id req =>
    obtain ⟨mode, uid, gid, requested, mtime, atime⟩ := req
    obtain ⟨rfl, hsize⟩ := hop
    obtain ⟨s, hs, rfl⟩ := Option.map_eq_some_iff.mp hsize
    cases hs
    exact ⟨_, _, _, _, _, hattr _ _ _ (some (asI64 s)) _ _⟩
  | davTruncate found =>
    obtain ⟨rfl, rfl⟩ := hop
    exact ⟨none, none, none, none, none, hattr _ _ _ _ _ _⟩
  | _ => exact hop.elim

variable (cfg) in
theorem lookup_setsSize {op : Operation} (hop : op.SetsSize n size) (hnode : w.nodes.lookup n = some node)
    (faults : Faults) :
    (∃ node', (w.after cfg faults op).nodes.lookup n = some node' ∧ node'.kind = node.kind ∧ node'.size = size
        ∧ node'.currentVersionId = node.currentVersionId)
      ∧ (w.after cfg faults op).versions = w.versions ∧ (w.after cfg faults op).chunks = w.chunks
      ∧ (w.after cfg faults op).objects = w.objects := by
  obtain ⟨mode, uid, gid, mtime, atime, hafter⟩ := setsSize_after cfg hop hnode faults
  rw [hafter]
  simp only [World.updateNodeAttr, hnode]
  exact ⟨⟨_, (lookup_insert _ _ _ _).trans (if_pos rfl), rfl, rfl, rfl⟩, rfl, rfl, rfl⟩

theorem backs_congr {node' : NodeRecord} (hversions : u.versions = w.versions) (hchunks : u.chunks = w.chunks)
    (hcur : node'.currentVersionId = node.currentVersionId) : Backs u n node' size ↔ Backs w n node size := by
  simp only [Backs, stagingOf_congr hversions, World.committedSize, World.rowsOf, currentObjects, hversions, hchunks,
    hcur]

end setting

section upkeep

theorem Firm.collect (h : Firm cfg w n size) (faults : Faults) (retention : ℕ) :
    Firm cfg (w.after cfg faults (.collectOnce retention)) n size := by
  obtain ⟨node, hnode, hkind, hsize, hopen, hback⟩ := h.node
  have haged := aged_collectOnce h.sound hnode faults retention
  obtain ⟨size', hlook, hsize'⟩ := collectOnce_size cfg h.sound hnode hkind faults retention
  generalize w.after cfg faults (.collectOnce retention) = u at haged hlook hsize'
  have hcommitted := haged.committedSize_eq h.sound.consistent hnode size'
  have hobjects := haged.currentObjects_eq h.sound.consistent hnode size'
  refine ⟨haged.sound, _, hlook, hkind, ?_, fun version hmem => ?_, ?_⟩
  · change size' = size
    rw [hsize']
    split_ifs with hnil
    · refine hback.resolve_right ?_
      rintro ⟨version, hmem, row, hrow, ho⟩
      obtain ⟨-, base, hkept⟩ := haged.kept version hmem row hrow ho
      rw [hnil] at hkept
      cases hkept
    · exact hsize
  · obtain ⟨⟨old, hold, base, rfl⟩, -⟩ := haged.staging version hmem
    exact hopen old hold
  · rw [hcommitted, hobjects]
    refine hback.imp_right ?_
    rintro ⟨version, hmem, row, hrow, ho⟩
    obtain ⟨hrow', base, hkept⟩ := haged.kept version hmem row hrow ho
    exact ⟨_, hkept, row, hrow', ho⟩

theorem Firm.commit (h : Firm cfg w n size) (faults : Faults) :
    Firm cfg (w.after cfg faults (.commitNode n)) n size := by
  have hsound : Sound cfg (exec cfg faults (commitNode cfg n) w).2 := after_sound h.sound (.commitNode n)
  obtain ⟨node, hnode, hkind, hsize, hopen, hback⟩ := h.node
  have hw := h.sound.consistent
  change Firm cfg (exec cfg faults (commitNode cfg n) w).2 n size
  cases hnew : newest (w.stagingOf n) with
  | none =>
    rw [exec_commitNode_none faults hnode hnew]
    exact h
  | some working =>
    rw [exec_commitNode faults hw hnode hnew] at hsound ⊢
    have hworking := hopen working (newest_mem hnew)
    have hlook := lookup_settled cfg w n node working n
    rw [if_pos rfl] at hlook
    refine ⟨hsound, _, hlook, hkind, hworking, fun version hmem => ?_, .inl ?_⟩
    · exact hopen version ((mem_stagingOf_settled hw hnode).mp hmem).1
    · have hversion := lookup_settled_version cfg w n node working working.id
      rw [if_pos rfl] at hversion
      have hcurrent : (w.published cfg.backend node working.id working.size).currentVersionId = some working.id := rfl
      rw [World.committedSize, hcurrent, Option.bind_some, hversion]
      exact hworking

theorem Firm.commit_other (h : Firm cfg w n size) (hne : m ≠ n) (faults : Faults) :
    Firm cfg (w.after cfg faults (.commitNode m)) n size := by
  have hsound : Sound cfg (exec cfg faults (commitNode cfg m) w).2 := after_sound h.sound (.commitNode m)
  have hw := h.sound.consistent
  change Firm cfg (exec cfg faults (commitNode cfg m) w).2 n size
  cases hother : w.nodes.lookup m with
  | none =>
    rw [exec_commitNode_missing faults hother]
    exact h
  | some other =>
    cases hnew : newest (w.stagingOf m) with
    | none =>
      rw [exec_commitNode_none faults hother hnew]
      exact h
    | some working =>
      rw [exec_commitNode faults hw hother hnew] at hsound ⊢
      obtain ⟨node, hnode, hkind, hsize, hopen, hback⟩ := h.node
      obtain ⟨hv, hvn, -⟩ := newest_lookup hw hnew
      have hmade : (w.committed working working.size (totalHash cfg working)).nodeId = m := hvn
      have hversions : ∀ {id version}, version.nodeId = n →
          ((settled cfg w m other working).versions.lookup id = some version ↔
            w.versions.lookup id = some version) := fun hn =>
        Untouched.lookup_switch_other hw hne hother hv hvn hmade cfg.backend hn
      have hstaging : ∀ version, version ∈ (settled cfg w m other working).stagingOf n ↔ version ∈ w.stagingOf n := by
        intro version
        rw [mem_stagingOf, mem_stagingOf]
        refine and_congr_left fun hn => exists_congr fun id => hversions hn.1
      have hlook := lookup_settled cfg w m other working n
      rw [if_neg hne.symm, hnode] at hlook
      have hcommitted : (settled cfg w m other working).committedSize node = w.committedSize node := by
        unfold World.committedSize
        cases hcur : node.currentVersionId with
        | none => rfl
        | some c =>
          obtain ⟨version, hc, hcn, -⟩ := hw.current hnode hcur
          rw [Option.bind_some, Option.bind_some, hc, (hversions hcn).mpr hc]
      refine ⟨hsound, node, hlook, hkind, hsize, fun version hmem => hopen version ((hstaging version).mp hmem), ?_⟩
      rw [hcommitted]
      refine hback.imp_right ?_
      rintro ⟨version, hmem, shared⟩
      exact ⟨version, (hstaging version).mpr hmem, shared⟩

theorem Firm.upkept (h : Firm cfg w n size) (hstep : Upkept cfg w u) : Firm cfg u n size := by
  obtain ⟨faults, op, hop, rfl⟩ := hstep
  cases op with
  | commitNode m =>
    by_cases hm : m = n
    · subst hm
      exact h.commit faults
    · exact h.commit_other hm faults
  | collectOnce retention => exact h.collect faults retention
  | wait time => exact ⟨after_sound h.sound (.wait time), h.node⟩
  | _ => exact hop.elim

end upkeep

section lost

/-- Commits work through the open versions from the newest on. -/
theorem commits_reach (hw : Sound cfg w) (hnode : w.nodes.lookup n = some node) {version : FileVersionRecord}
    (hmem : version ∈ w.stagingOf n) : ∃ u, Relation.ReflTransGen (Upkept cfg) w u
      ∧ (u.nodes.lookup n).map NodeRecord.size = some version.size := by
  induction hk : (w.stagingOf n).toFinset.card using Nat.strong_induction_on generalizing w node with
  | _ k ih =>
    cases hnew : newest (w.stagingOf n) with
    | none =>
      rw [newest_eq_none.mp hnew] at hmem
      cases hmem
    | some working =>
      have hafter : w.after cfg noFaults (.commitNode n) = settled cfg w n node working :=
        congrArg Prod.snd (exec_commitNode noFaults hw.consistent hnode hnew)
      have hstep : Upkept cfg w (settled cfg w n node working) := ⟨noFaults, .commitNode n, trivial, hafter.symm⟩
      have hlook := lookup_settled cfg w n node working n
      rw [if_pos rfl] at hlook
      by_cases hid : version.id = working.id
      · have heq : version = working := by
          obtain ⟨⟨id, hlookup⟩, -⟩ := mem_stagingOf.mp hmem
          obtain ⟨hworking, -⟩ := newest_lookup hw.consistent hnew
          rw [← hid, (hw.consistent.version hlookup).id_eq, hlookup] at hworking
          exact Option.some.inj hworking
        subst heq
        refine ⟨_, .single hstep, ?_⟩
        rw [hlook]
        rfl
      · have hstill : version ∈ (settled cfg w n node working).stagingOf n :=
          (mem_stagingOf_settled hw.consistent hnode).mpr ⟨hmem, hid⟩
        have hfewer : ((settled cfg w n node working).stagingOf n).toFinset.card < k := by
          rw [← hk]
          refine Finset.card_lt_card (Finset.ssubset_iff.mpr ⟨working, ?_, fun other hother => ?_⟩)
          · rw [List.mem_toFinset, mem_stagingOf_settled hw.consistent hnode]
            exact fun h => h.2 rfl
          · rw [Finset.mem_insert, List.mem_toFinset, mem_stagingOf_settled hw.consistent hnode] at hother
            rw [List.mem_toFinset]
            rcases hother with rfl | hold
            · exact newest_mem hnew
            · exact hold.1
        obtain ⟨u, hrun, hsize⟩ := ih _ hfewer (hafter ▸ after_sound hw _) hlook hstill rfl
        exact ⟨u, .head hstep hrun, hsize⟩

theorem sweeps_upkept (w : World) (retention k : ℕ) :
    Relation.ReflTransGen (Upkept cfg) w (w.sweeps cfg retention k) := by
  induction k with
  | zero => exact .refl
  | succ k ih =>
    rw [World.sweeps, Function.iterate_succ_apply']
    exact .tail ih ⟨noFaults, .collectOnce retention, trivial, rfl⟩

theorem sweeps_reach (hw : Sound cfg w) (hnode : w.nodes.lookup n = some node) (hkind : node.kind = .file)
    (hnone : sharing w n node = []) : ∃ u, Relation.ReflTransGen (Upkept cfg) w u
      ∧ (u.nodes.lookup n).map NodeRecord.size = some (w.committedSize node) := by
  have hexpired : Expired w n (w.now - (0 : ℕ)) := by
    intro version hmem
    obtain ⟨⟨id, hid⟩, -⟩ := mem_stagingOf.mp hmem
    rw [Int.natCast_zero, sub_zero]
    exact (hw.consistent.version hid).created_past
  have hebbed := ebbed_sweeps hw hnode hexpired (Nat.lt_succ_self (weight w + 1))
  exact ⟨_, sweeps_upkept w 0 _, hebbed.size hkind (hebbed.nothing_open hnone)⟩

end lost

theorem size_sticks_iff (hw : Reachable cfg w) (hnode : w.nodes.lookup n = some node) (hkind : node.kind = .file)
    (faults : Faults) {op : Operation} (hop : op.SetsSize n size) :
    (∀ u, Relation.ReflTransGen (Upkept cfg) (w.after cfg faults op) u →
        (u.nodes.lookup n).map NodeRecord.size = some size) ↔ Backs w n node size := by
  obtain ⟨⟨node', hnode', hkind', hsize', hcur⟩, hversions, hchunks, -⟩ := lookup_setsSize cfg hop hnode faults
  have hsound := (hw.step faults op).sound
  rw [← backs_congr hversions hchunks hcur]
  generalize w.after cfg faults op = t at *
  rw [hkind] at hkind'
  constructor
  · intro hsticks
    refine ⟨fun version hmem => ?_, ?_⟩
    · obtain ⟨u, hrun, hsize⟩ := commits_reach hsound hnode' hmem
      exact Option.some.inj (hsize.symm.trans (hsticks u hrun))
    · rw [← sharing_ne_nil]
      refine or_iff_not_imp_right.mpr fun hnone => ?_
      obtain ⟨u, hrun, hsize⟩ := sweeps_reach hsound hnode' hkind' (not_not.mp hnone)
      exact Option.some.inj (hsize.symm.trans (hsticks u hrun))
  · intro hback u hrun
    have hfirm : Firm cfg u n size := by
      induction hrun with
      | refl => exact ⟨hsound, node', hnode', hkind', hsize', hback⟩
      | tail _ hstep ih => exact ih.upkept hstep
    obtain ⟨last, hlast, -, hsize, -⟩ := hfirm.node
    rw [hlast, Option.map_some, hsize]

def resizeTo (size : ℕ) : Operation := .patchNode 7 ⟨none, none, none, some size, none, none⟩

def cutShort : World := (leftOpen [1, 2, 3, 4, 5, 6] 5 [9, 9, 9, 9]).trace (sample .memory) [resizeTo 2]

theorem size_sticks_grown_back : Reachable (sample .memory) cutShort ∧ (resizeTo 9).SetsSize 7 9
    ∧ ∀ u, Relation.ReflTransGen (Upkept (sample .memory)) (cutShort.after (sample .memory) noFaults (resizeTo 9)) u →
      (u.nodes.lookup 7).map NodeRecord.size = some 9 := by
  have hreach : Reachable (sample .memory) cutShort := (leftOpen_reachable _ _ _).trace _
  obtain ⟨node, hnode, hkind, hopen, hshared⟩ : ∃ node ∈ cutShort.nodes.lookup 7, node.kind = .file
      ∧ (∀ version ∈ cutShort.stagingOf 7, version.size = 9) ∧ ∃ version ∈ cutShort.stagingOf 7,
        ∃ row ∈ cutShort.rowsOf version.id, row.objectId ∈ currentObjects cutShort node := by decide +kernel
  have hop : (resizeTo 9).SetsSize 7 9 := ⟨rfl, rfl⟩
  exact ⟨hreach, hop, (size_sticks_iff hreach hnode hkind noFaults hop).mpr ⟨hopen, .inr hshared⟩⟩

theorem size_change_undone :
    let committed := (World.fresh 0).trace (sample .memory)
      [newFile 7, .writeBytes 7 0 [1, 2, 3, 4, 5, 6], .commitNode 7]
    let opened := (World.fresh 0).trace (sample .memory) [newFile 7, .writeBytes 7 0 [1, 2, 3, 4, 5, 6]]
    Reachable (sample .memory) committed ∧ Reachable (sample .memory) opened
      ∧ ((committed.trace (sample .memory) [resizeTo 2]).nodes.lookup 7).map NodeRecord.size = some 2
      ∧ ((committed.trace (sample .memory) [resizeTo 2, .collectOnce 0]).nodes.lookup 7).map NodeRecord.size = some 6
      ∧ ((opened.trace (sample .memory) [resizeTo 2]).nodes.lookup 7).map NodeRecord.size = some 2
      ∧ ((opened.trace (sample .memory) [resizeTo 2, .commitNode 7]).nodes.lookup 7).map NodeRecord.size = some 6 :=
  ⟨(Reachable.fresh 0).trace _, (Reachable.fresh 0).trace _, by decide +kernel, by decide +kernel, by decide +kernel,
    by decide +kernel⟩

end Dcfs
