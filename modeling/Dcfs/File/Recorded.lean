import Dcfs.File.Numbers
import Dcfs.File.Reuploads
import Dcfs.File.Upload

namespace Dcfs

open Machine Tables World Request Exec

variable {cfg : Config} {faults : Faults} {w u t : World} {n v : Uuid} {node : NodeRecord}
  {version : FileVersionRecord} {plan : WritePlan} {offset : ℕ} {body : Bytes} {old : ℕ → Bytes}

def openedId (w : World) (n : Uuid) : Uuid :=
  match newest (w.stagingOf n) with
  | some version => version.id
  | none => w.nextUuid

def openedChunkSize (w : World) (n : Uuid) (node : NodeRecord) (first : ℤ) : ℤ :=
  match newest (w.stagingOf n) with
  | some version => version.chunkSize
  | none =>
    match node.currentVersionId.bind w.versions.lookup with
    | some base => max base.chunkSize 1
    | none => first

theorem openWorkingVersion_made (hw : Consistent cfg w) (hnode : w.nodes.lookup n = some node)
    (hexec : exec cfg faults (openWorkingVersion cfg n node) w = (.ok version, u)) :
    version.id = openedId w n ∧ version.chunkSize = openedChunkSize w n node (asI64 cfg.chunkSize) := by
  unfold openedId openedChunkSize
  cases hnew : newest (w.stagingOf n) with
  | some working =>
    cases (openWorkingVersion_open hnew).symm.trans hexec
    exact ⟨rfl, rfl⟩
  | none =>
    cases hcur : node.currentVersionId with
    | none =>
      have hfirst := (openWorkingVersion_first hw hnode hnew hcur).symm.trans hexec
      generalize asI64 (cfg.chunkSize : ℤ) = first at hfirst ⊢
      cases hfirst
      exact ⟨rfl, rfl⟩
    | some base =>
      obtain ⟨current, hcurrent, -, -⟩ := hw.current hnode hcur
      cases (openWorkingVersion_carried hw hnode hnew hcur hcurrent).symm.trans hexec
      refine ⟨rfl, ?_⟩
      dsimp only
      rw [Option.bind_some, hcurrent]
      rfl

structure WriteRecord (plan : WritePlan) (chunkSize : ℤ) (n v : Uuid) (u : World) : Prop where
  node : ∃ node, u.nodes.lookup n = some node ∧ node.size = plan.newSize
  version : ∃ version, u.versions.lookup v = some version ∧ version.size = plan.newSize ∧ version.chunkSize = chunkSize
  rows : ∀ i ∈ plan.touched, ∃ row, rowAt (u.rowsOf v) i = some row
    ∧ row.logicalOffset = ↑(i * plan.partSize) ∧ row.plaintextSize = plan.chunkLen i

theorem Ran.record (h : Ran cfg faults n node version offset body plan old w u t)
    (hplan : PlanFor cfg node offset body plan) (hshort : ∀ i ∈ plan.touched, plan.chunkLen i < 2 ^ 31) :
    WriteRecord plan version.chunkSize n version.id (sized t n version.id (asI64 plan.newSize)) := by
  obtain ⟨generation, hnode⟩ := h.lookup
  rw [asI64_of_lt hplan.valid.newSize_lt]
  have hsized := lookup_sized (plan.newSize : ℤ) version.id hnode n
  have hversion := lookup_sized_version (plan.newSize : ℤ) h.consistent hnode h.newest_eq version.id
  rw [if_pos rfl] at hsized hversion
  refine ⟨⟨_, hsized, rfl⟩, ⟨_, hversion, rfl, rfl⟩, fun i hi => ?_⟩
  obtain ⟨row, hrow, hmade⟩ := (h.rewrites hplan.valid).new i hi
  have hstart : i * plan.partSize < 2 ^ 63 := (hplan.valid.touched_start hi).trans hplan.valid.newSize_lt
  refine ⟨row, ?_, ?_, ?_⟩
  · rw [sized_eq _ _ hnode]
    exact hrow
  · rw [hmade.logical, asI64_of_lt hstart]
  · rw [hmade.size, asI32_of_lt (hshort i hi)]

theorem WriteRecord.settled (cfg : Config) {chunkSize : ℤ} {working : FileVersionRecord}
    (h : WriteRecord plan chunkSize n v u)
    (hv : u.versions.lookup working.id = some working) (hid : working.id = v) (node : NodeRecord) :
    WriteRecord plan chunkSize n v (settled cfg u n node working) := by
  subst hid
  obtain ⟨found, hfound, hsize, hchunk⟩ := h.version
  cases hv.symm.trans hfound
  have hnode := lookup_settled cfg u n node working n
  have hversion := lookup_settled_version cfg u n node working working.id
  rw [if_pos rfl] at hnode hversion
  exact ⟨⟨_, hnode, hsize⟩, ⟨_, hversion, hsize, hchunk⟩, h.rows⟩

theorem Ran.committed_record {chunkSize size : ℤ} (h : Ran cfg faults n node version offset body plan old w u t)
    (hrange : InI64 size) (hrecord : WriteRecord plan chunkSize n version.id (sized t n version.id size))
    (updated : NodeRecord) : WriteRecord plan chunkSize n version.id
      (settled cfg (sized t n version.id size) n updated (touched t size version)) := by
  obtain ⟨-, -, hconsistent, hnewest, -⟩ := h.sized_facts hrange
  exact hrecord.settled cfg (newest_lookup hconsistent hnewest).1 rfl updated

theorem exec_writeBytes_record (faults : Faults) (hw : Consistent cfg w) (hnode : w.nodes.lookup n = some node)
    (hkind : node.kind ≠ .directory) (hbody : body ≠ []) (hend : offset + body.length < 2 ^ 63)
    (hplan : plan =
      { partSize := cfg.partSize, offset := offset, stop := offset + body.length, oldSize := node.length })
    (hshort : ∀ i ∈ plan.touched, plan.chunkLen i < 2 ^ 31) :
    ∃ u, exec cfg faults (writeBytes cfg n offset body) w = (.ok body.length, u)
      ∧ WriteRecord plan (openedChunkSize w n node (asI64 cfg.chunkSize)) n (openedId w n) u := by
  obtain ⟨version, made, old, u, t, updated, hran, hlook, hexec⟩ :=
    exec_writeBytes_ran faults hw hnode hkind hbody offset
  have hmade := hran.planFor (length_lt hw hnode) hbody hend
  obtain rfl : made = plan := hmade.plan_eq.trans hplan.symm
  have hopened := openWorkingVersion_made (hw.relocked (n :: w.nodeLocks)) hnode hran.opens
  have hid : version.id = openedId w n := hopened.1
  have hchunk : version.chunkSize = openedChunkSize w n node (asI64 cfg.chunkSize) := hopened.2
  have hrecord := hran.record hmade hshort
  have hfinished : WriteRecord made version.chunkSize n version.id (finished cfg n updated version made t) := by
    unfold finished
    split_ifs
    · exact hran.committed_record (inI64_asI64 _) hrecord updated
    · exact hrecord
  rw [← hid, ← hchunk]
  generalize finished cfg n updated version made t = s at hexec hfinished
  exact ⟨_, hexec, hfinished.node, hfinished.version, hfinished.rows⟩

theorem manifestTotal_eq {rows : List FileChunkRecord} {index start total : ℕ}
    (h : manifestTotal index start rows = .ok total)
    (hsum : start + (rows.map fun row => row.plaintextSize.toNat).sum < 2 ^ 64) :
    total = start + (rows.map fun row => row.plaintextSize.toNat).sum := by
  induction rows generalizing index start with
  | nil =>
    cases h
    rfl
  | cons row rest ih =>
    rw [manifestTotal] at h
    split_ifs at h
    rw [List.map_cons, List.sum_cons, ← Nat.add_assoc] at hsum ⊢
    rw [addU64_of_lt ((Nat.le_add_right _ _).trans_lt hsum)] at h
    exact ih h hsum

end Dcfs
