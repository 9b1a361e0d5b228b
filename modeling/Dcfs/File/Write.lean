import Dcfs.File.Commit
import Dcfs.File.Touched

namespace Dcfs

open Machine Tables World Request Exec Sparse

variable {cfg : Config} {faults : Faults} {w u : World}

def sized (w : World) (n v : Uuid) (size : ℤ) : World :=
  ((w.touchStagingVersion v size).2.updateNodeAttr n none none none (some size) none none).2

variable (faults) in
theorem perform_touch (v : Uuid) (size : ℤ) : perform cfg faults w (.touchStagingVersion v size) =
    (.ok (), (w.touchStagingVersion v size).2) := rfl

section sized

variable {n : Uuid} {node : NodeRecord} {version : FileVersionRecord} (size : ℤ)

section

variable (v : Uuid) (hnode : w.nodes.lookup n = some node)

include hnode

theorem sized_eq : sized w n v size = { (w.touchStagingVersion v size).2.tick with
    nodes := w.nodes.insert n { node with size := size, ctime := w.now + 1 } } := by
  have hnode' : (w.touchStagingVersion v size).2.nodes.lookup n = some node := hnode
  simp only [sized, World.updateNodeAttr, hnode']
  rfl

theorem byteOf_sized (id : Uuid) : byteOf cfg (sized w n v size) id = byteOf cfg w id := by
  rw [sized_eq size v hnode]
  rfl

theorem lookup_sized (m : Uuid) : (sized w n v size).nodes.lookup m =
    if m = n then some { node with size := size, ctime := w.now + 1 } else w.nodes.lookup m := by
  rw [sized_eq size v hnode, lookup_insert]

variable (cfg faults) in
theorem perform_setSize : ∃ updated,
    perform cfg faults (w.touchStagingVersion v size).2
        (.updateNodeAttr n none none none (some size) none none) = (.ok updated, sized w n v size) := by
  have hnode' : (w.touchStagingVersion v size).2.nodes.lookup n = some node := hnode
  simp only [perform, sized, World.updateNodeAttr, hnode']
  exact ⟨_, rfl⟩

end

variable (hw : Consistent cfg w) (hnode : w.nodes.lookup n = some node)
  (h : newest (w.stagingOf n) = some version)

include hw hnode h

theorem lookup_sized_version (id : Uuid) : (sized w n version.id size).versions.lookup id =
    if id = version.id then some (touched w size version) else w.versions.lookup id := by
  obtain ⟨hv, -, hs⟩ := newest_lookup hw h
  rw [← lookup_touch size hv hs, sized_eq size version.id hnode]
  rfl

theorem sized_frame : Frame n version.id w (sized w n version.id size) := by
  refine ⟨fun m hm => ?_, fun id hid => ?_, ?_, ?_, ?_, ?_⟩
  · rw [lookup_sized size _ hnode, if_neg hm]
  · rw [lookup_sized_version size hw hnode h, if_neg hid]
  all_goals
    rw [sized_eq size version.id hnode]
    intros
    trivial

variable (hsize : InI64 size)

include hsize

theorem sized_consistent : Consistent cfg (sized w n version.id size) := by
  obtain ⟨hv, -, hs⟩ := newest_lookup hw h
  have hcur : ∀ {id updated}, (sized w n version.id size).nodes.lookup id = some updated →
      ∃ old, w.nodes.lookup id = some old ∧ NodeOk id updated
        ∧ updated.currentVersionId = old.currentVersionId := by
    intro id updated hid
    rw [lookup_sized size _ hnode] at hid
    split_ifs at hid with he
    · cases hid
      subst he
      exact ⟨node, hnode, ⟨(hw.node hnode).id_eq, hsize⟩, rfl⟩
    · exact ⟨updated, hid, hw.node hid, rfl⟩
  rw [sized_eq size version.id hnode] at hcur ⊢
  refine (hw.touch hsize hv hs).of_nodes rfl rfl rfl rfl (Int.le.intro 1 rfl) ?_ ?_
  · intro id updated hid
    obtain ⟨old, -, hok, -⟩ := hcur hid
    exact hok
  · intro id updated current hid hc
    obtain ⟨old, hold, -, he⟩ := hcur hid
    exact ⟨old, hold, he ▸ hc⟩

theorem newest_sized : newest ((sized w n version.id size).stagingOf n) = some (touched w size version) := by
  obtain ⟨hv, hn, hs⟩ := newest_lookup hw h
  have hlook := lookup_sized_version size hw hnode h
  refine newest_of_max (sized_consistent size hw hnode h hsize) ?_ fun other hother => ?_
  · exact mem_stagingOf.mpr ⟨⟨version.id, by rw [hlook, if_pos rfl]⟩, hn, hs⟩
  · obtain ⟨⟨id, hid⟩, -, -⟩ := mem_stagingOf.mp hother
    rw [hlook] at hid
    split_ifs at hid
    · cases hid
      exact le_rfl
    · exact (hw.version hid).created_past.le

end sized

/-- A byte past the end that the write does not cover and does not carry over. -/
def Wipes (cfg : Config) (w : World) (n : Uuid) (node : NodeRecord) (offset : ℕ) (body : Bytes) (p : ℕ) : Prop :=
  (w.stagingOf n = [] ∧ divCeil node.length cfg.partSize < p / cfg.partSize)
    ∨ (p / cfg.partSize ∈ (WritePlan.mk cfg.partSize offset (offset + body.length) node.length).touched
      ∧ max node.length (offset + body.length) ≤ p)

instance (n : Uuid) (node : NodeRecord) (offset : ℕ) (body : Bytes) (p : ℕ) :
    Decidable (Wipes cfg w n node offset body p) := inferInstanceAs (Decidable (_ ∨ _))

theorem Wipes.length_le {n : Uuid} {node : NodeRecord} {offset p : ℕ} {body : Bytes}
    (h : Wipes cfg w n node offset body p) : node.length ≤ p := by
  rcases h with ⟨-, hpast⟩ | ⟨-, hpast⟩
  · exact not_lt.mp fun hlt => absurd hpast (not_lt.mpr (div_le_divCeil hlt))
  · exact (le_max_left _ _).trans hpast

structure Wrote (cfg : Config) (n : Uuid) (node : NodeRecord) (version : FileVersionRecord) (offset : ℕ)
    (body : Bytes) (w u : World) : Prop where
  consistent : Consistent cfg u
  newest : newest (u.stagingOf n) = some version
  size : version.size = ↑(max node.length (offset + body.length))
  lookup : ∃ generation ctime, u.nodes.lookup n =
    some { node with generation := generation, size := version.size, ctime := ctime }
  frame : Frame n version.id w u
  reused : ∀ old, World.newest (w.stagingOf n) = some old →
    version = { old with size := version.size, createdAt := version.createdAt }
  fresh : w.stagingOf n = [] →
    w.versions.lookup version.id = none ∧ version.baseVersionId = node.currentVersionId
  covered : ∀ p, offset ≤ p → p < offset + body.length →
    byteOf cfg u version.id p = padded body (p - offset)
  kept : ∀ p, p < 2 ^ 63 → ¬ (offset ≤ p ∧ p < offset + body.length) →
    byteOf cfg u version.id p = if Wipes cfg w n node offset body p then 0 else visibleByte cfg w n p

abbrev crosses (oldSize newSize : ℕ) : Prop :=
  oldSize / commitEveryBytes < newSize / commitEveryBytes

structure PlanFor (cfg : Config) (node : NodeRecord) (offset : ℕ) (body : Bytes) (plan : WritePlan) :
    Prop where
  partSize_eq : plan.partSize = cfg.partSize
  offset_eq : plan.offset = offset
  stop_eq : plan.stop = offset + body.length
  oldSize_eq : plan.oldSize = node.length
  valid : plan.Valid

theorem PlanFor.plan_eq {node : NodeRecord} {offset : ℕ} {body : Bytes} {plan : WritePlan}
    (h : PlanFor cfg node offset body plan) :
    plan = WritePlan.mk cfg.partSize offset (offset + body.length) node.length := by
  rw [← h.partSize_eq, ← h.stop_eq, ← h.oldSize_eq, ← h.offset_eq]

theorem PlanFor.newSize_eq {node : NodeRecord} {offset : ℕ} {body : Bytes} {plan : WritePlan}
    (h : PlanFor cfg node offset body plan) : plan.newSize = max node.length (offset + body.length) := by
  rw [WritePlan.newSize, h.oldSize_eq, h.stop_eq]

theorem div_partSize_lt {p : ℕ} (hp : p < 2 ^ 63) : p / cfg.partSize < 2 ^ 64 :=
  (Nat.div_le_self _ _).trans_lt (hp.trans (by decide))

/-- A write as far as its chunk loop, wherever it ends. -/
structure Ran (cfg : Config) (faults : Faults) (n : Uuid) (node : NodeRecord) (version : FileVersionRecord)
    (offset : ℕ) (body : Bytes) (plan : WritePlan) (old : ℕ → Bytes) (w u t : World) : Prop where
  opens : exec cfg faults (openWorkingVersion cfg n node) w = (.ok version, u)
  opened : Opened cfg n node version w u
  planned : plan = .mk version.partSize offset (addU64 offset body.length) node.length
  stop_le : plan.stop ≤ plan.offset + body.length
  held : plan.Valid → ∀ i ∈ plan.touched, old i = oldPart cfg u version.id plan i
  chunks : Attaches cfg n version.id plan body old plan.touched u t

def finished (cfg : Config) (n : Uuid) (updated : NodeRecord) (version : FileVersionRecord) (plan : WritePlan)
    (t : World) : World :=
  if crosses plan.oldSize plan.newSize
  then settled cfg (sized t n version.id (asI64 plan.newSize)) n updated (touched t (asI64 plan.newSize) version)
  else sized t n version.id (asI64 plan.newSize)

section ran

variable {n : Uuid} {node : NodeRecord} {version : FileVersionRecord} {offset : ℕ} {body : Bytes} {plan : WritePlan}
  {old : ℕ → Bytes} {t : World} (h : Ran cfg faults n node version offset body plan old w u t)

include h

namespace Ran

theorem consistent : Consistent cfg t := h.chunks.consistent h.opened.consistent

theorem grown : Grown version.id u t := h.chunks.grown

theorem newest_eq : newest (t.stagingOf n) = some version := by
  rw [stagingOf_congr h.grown.versions, h.opened.newest]

theorem lookup : ∃ generation, t.nodes.lookup n = some { node with generation := generation } := by
  rw [h.grown.nodes]
  exact h.opened.lookup

theorem working : u.versions.lookup version.id = some version ∧ version.nodeId = n := by
  obtain ⟨hv, hn, -⟩ := newest_lookup h.opened.consistent h.opened.newest
  exact ⟨hv, hn⟩

theorem sized_facts {size : ℤ} (hrange : InI64 size) : ∃ generation,
    (sized t n version.id size).nodes.lookup n =
        some { node with generation := generation, size := size, ctime := t.now + 1 }
      ∧ Consistent cfg (sized t n version.id size)
      ∧ World.newest ((sized t n version.id size).stagingOf n) = some (touched t size version)
      ∧ Frame n version.id w (sized t n version.id size) := by
  obtain ⟨generation, hnode⟩ := h.lookup
  refine ⟨generation, ?_, sized_consistent _ h.consistent hnode h.newest_eq hrange,
    newest_sized _ h.consistent hnode h.newest_eq hrange,
    (h.opened.frame.trans h.grown.frame).trans (sized_frame _ h.consistent hnode h.newest_eq)⟩
  rw [lookup_sized _ _ hnode, if_pos rfl]

theorem planFor (hlength : node.length < 2 ^ 63) (hbody : body ≠ []) (hend : offset + body.length < 2 ^ 63) :
    PlanFor cfg node offset body plan := by
  have hpart : plan.partSize = cfg.partSize := by
    rw [h.planned, (h.opened.consistent.version h.working.1).part_size]
  have hpos : 0 < body.length := List.length_pos_of_ne_nil hbody
  have hoffset : plan.offset = offset := by rw [h.planned]
  have hstop : plan.stop = offset + body.length := by rw [h.planned, addU64_of_lt (by omega)]
  have hold : plan.oldSize = node.length := by rw [h.planned]
  exact ⟨hpart, hoffset, hstop, hold, hpart ▸ cfg.partSize_pos, by omega, by omega, by omega⟩

theorem wrote {size : ℤ} (hplan : PlanFor cfg node offset body plan) (hsize : size = plan.newSize) :
    Wrote cfg n node (touched t size version) offset body w (sized t n version.id size) := by
  have hparts : ∀ j, j < 2 ^ 64 → partsOf cfg t (t.rowsOf version.id) j =
      if j ∈ plan.touched then some (plan.merge body (oldPart cfg u version.id plan j) j)
      else partsOf cfg u (u.rowsOf version.id) j := by
    intro j hj
    rw [h.chunks.parts hj]
    split_ifs with hin
    · rw [h.held hplan.valid j hin]
    · rfl
  have hbytes := fun p hp => byteOf_merged (p := p) hplan.valid hplan.partSize_eq h.stop_le hparts hp
  have hcovers : ∀ p, plan.covers p ↔ offset ≤ p ∧ p < offset + body.length := fun p => by
    rw [WritePlan.covers, hplan.offset_eq, hplan.stop_eq]
  have hrange : InI64 size := by
    have := hplan.valid.newSize_lt
    rw [hsize, InI64]
    omega
  obtain ⟨generation, hlook, hconsistent, hnewest, hframe⟩ := h.sized_facts hrange
  have hsized : byteOf cfg (sized t n version.id size) version.id = byteOf cfg t version.id := by
    obtain ⟨_, hnode⟩ := h.lookup
    exact byteOf_sized _ _ hnode _
  refine ⟨hconsistent, hnewest, ?_, ⟨generation, t.now + 1, hlook⟩, hframe, ?_, h.opened.fresh, fun p hf hl => ?_,
    fun p hp hout => ?_⟩
  · rw [← hplan.newSize_eq]
    exact hsize
  · intro old hold
    have hsame := h.opened.unchanged fun he => by simp [he, World.newest] at hold
    cases (hsame ▸ h.opened.newest).symm.trans hold
    rfl
  · have hcov := (hcovers p).mpr ⟨hf, hl⟩
    have hp : p < 2 ^ 63 := hl.trans (hplan.stop_eq ▸ hplan.valid.stop_lt)
    have := hbytes p (div_partSize_lt hp)
    rw [if_pos hcov, hplan.offset_eq] at this
    exact (congrFun hsized p).trans this
  · have hcov := mt (hcovers p).mp hout
    have hafter := hbytes p (div_partSize_lt hp)
    rw [if_neg hcov] at hafter
    change byteOf cfg (sized t n version.id size) version.id p = _
    rw [hsized, hafter, h.opened.bytes p (div_partSize_lt hp), ← ite_or, hplan.newSize_eq, hplan.plan_eq]
    exact if_congr or_comm rfl rfl

end Ran

omit h

variable (faults) in
theorem exec_writeLocked_ran (hw : Consistent cfg w) (hnode : w.nodes.lookup n = some node)
    (hkind : node.kind ≠ .directory) (offset : ℕ) (body : Bytes) :
    ∃ version plan old u t updated, Ran cfg faults n node version offset body plan old w u t
      ∧ (sized t n version.id (asI64 plan.newSize)).nodes.lookup n = some updated
      ∧ exec cfg faults (writeLocked cfg n offset body) w =
        (.ok body.length, finished cfg n updated version plan t) := by
  obtain ⟨version, u, hopen, hopened⟩ := exec_openWorkingVersion faults hw hnode
  obtain ⟨hv, hn, -⟩ := newest_lookup hopened.consistent hopened.newest
  generalize hplan : WritePlan.mk version.partSize offset (addU64 offset body.length) node.length = plan
  have hsize : plan.partSize = cfg.partSize := by rw [← hplan, (hopened.consistent.version hv).part_size]
  have hlength : plan.oldSize = node.length := by rw [← hplan]
  have hstop : plan.stop ≤ plan.offset + body.length := by
    rw [← hplan]
    exact Nat.mod_le _ _
  have hnew : plan.newSize < 2 ^ 64 := by
    rw [← hplan]
    exact max_lt ((length_lt hw hnode).trans (by decide)) (Nat.mod_lt _ (by decide))
  obtain ⟨oldChunks, hfetch, hrows⟩ := exec_oldChunksOf_any faults hopened.consistent hv plan
  choose old hold using oldPart_any hopened.consistent hv hrows plan
  obtain ⟨t, hloop, hchunks⟩ := exec_writeChunks faults hopened.consistent hv hn hsize hstop
    (fun i _ => hn ▸ hold i) fun i => WritePlan.touched_lt_of_newSize (hsize ▸ cfg.partSize_pos) hnew
  have hran : Ran cfg faults n node version offset body plan old w u t := by
    refine ⟨hopen, hopened, hplan.symm, hstop, fun hvalid i hi => ?_, hchunks⟩
    obtain ⟨rows, hfetch', hat⟩ := exec_oldChunksOf faults hopened.consistent hv hvalid
    cases hfetch.symm.trans hfetch'
    exact (hold i).eq_oldPart (hat i hi)
  obtain ⟨generation, hlook, hconsistent, hnewest, -⟩ := hran.sized_facts (inI64_asI64 plan.newSize)
  obtain ⟨_, hfound⟩ := hran.lookup
  obtain ⟨answer, hattr⟩ := perform_setSize cfg faults (asI64 plan.newSize) version.id hfound
  refine ⟨version, plan, old, u, t, _, hran, hlook, ?_⟩
  rw [writeLocked, exec_query, answer_getNode hnode, repo_ok, pure_bind, if_neg hkind, exec_bind_ok hopen, hplan]
  dsimp only
  rw [exec_bind_ok hfetch, exec_bind_ok hloop, exec_ask, perform_touch, repo_ok, pure_bind, exec_ask, hattr, repo_ok,
    pure_bind, finished, hlength]
  by_cases hcross : crosses node.length plan.newSize
  · rw [if_pos hcross, if_pos hcross, exec_bind_ok (exec_commitWorkingVersion hconsistent hlook hnewest)]
    rfl
  · rw [if_neg hcross, if_neg hcross]
    rfl

end ran

end Dcfs
