import Dcfs.Server.Sample

namespace Dcfs

open Machine Tables World Request Exec

def visibleRows (w : World) (n : Uuid) : List FileChunkRecord :=
  match visibleVersion w n with
  | some v => w.rowsOf v
  | none => []

def rowAt (rows : List FileChunkRecord) (i : ℤ) : Option FileChunkRecord :=
  Keyed.lookup FileChunkRecord.chunkIndex i rows

def FileChunkRecord.place (row : FileChunkRecord) : Uuid × ℤ := (row.objectId, row.plaintextSize)

structure NewRow (plan : WritePlan) (u : World) (k : ℕ) (row : FileChunkRecord) : Prop where
  index : row.chunkIndex = asI64 k
  logical : row.logicalOffset = asI64 ↑(k * plan.partSize)
  size : row.plaintextSize = asI32 (plan.chunkLen k)
  fresh : u.objects.lookup row.objectId = none

structure Rewrites (plan : WritePlan) (indexes : List ℕ) (v : Uuid) (u t : World) : Prop where
  new : ∀ k ∈ indexes, ∃ row, rowAt (t.rowsOf v) k = some row ∧ NewRow plan u k row
  kept : ∀ i, (∀ k ∈ indexes, (k : ℤ) ≠ i) → rowAt (t.rowsOf v) i = rowAt (u.rowsOf v) i

variable {cfg : Config} {faults : Faults} {w u t : World} {n v : Uuid} {node : NodeRecord}
  {version : FileVersionRecord} {plan : WritePlan} {offset : ℕ} {body : Bytes} {oldChunks : List FileChunkRecord}

theorem mem_visibleRows {row : FileChunkRecord} (h : row ∈ visibleRows w n) : ∃ v, row ∈ w.rowsOf v := by
  unfold visibleRows at h
  cases hv : visibleVersion w n with
  | none =>
    rw [hv] at h
    cases h
  | some v =>
    rw [hv] at h
    exact ⟨v, h⟩

theorem rowAt_upsert (hu : Consistent cfg u) (hv : u.versions.lookup v = some version) (row : FileChunkRecord) (i : ℤ) :
    rowAt (Keyed.upsert FileChunkRecord.chunkIndex row (u.rowsOf v)) i =
      if i = row.chunkIndex then some row else rowAt (u.rowsOf v) i :=
  Keyed.lookup_upsert (hu.rows_ok hv).ordered i

theorem Attached.rowAt_eq {i : ℕ} {logical : ℤ} {plaintext : Bytes} {row : FileChunkRecord}
    (h : Attached cfg n v i logical plaintext row u t) (hu : Consistent cfg u)
    (hv : u.versions.lookup v = some version) (j : ℤ) :
    rowAt (t.rowsOf v) j = if j = row.chunkIndex then some row else rowAt (u.rowsOf v) j := by
  obtain rfl := h.version
  rw [h.eq, putRow, rowsOf_setRows]
  exact rowAt_upsert hu hv row j

theorem Attaches.rewrites {indexes : List ℕ} {old : ℕ → Bytes} (h : Attaches cfg n v plan body old indexes u t)
    (hu : Consistent cfg u) (hv : u.versions.lookup v = some version)
    (hbody : plan.stop ≤ plan.offset + body.length) (hlt : ∀ i ∈ indexes, i < 2 ^ 63) :
    Rewrites plan indexes v u t := by
  induction h with
  | nil => exact ⟨by simp, fun i _ => rfl⟩
  | @cons i rest row u s t _ first _ ih =>
    have hrest := ih first.consistent (by rw [first.grown.versions, hv])
      fun j hj => hlt j (List.mem_cons_of_mem _ hj)
    have hat : ∀ j : ℤ, rowAt (s.rowsOf v) j = if j = i then some row else rowAt (u.rowsOf v) j := by
      intro j
      rw [first.rowAt_eq hu hv, first.index, asI64_of_lt (hlt i List.mem_cons_self)]
    have hnew : ∀ k ∈ rest, ∃ row, rowAt (t.rowsOf v) k = some row ∧ NewRow plan u k row := by
      intro k hk
      obtain ⟨row, hat, hlater⟩ := hrest.new k hk
      refine ⟨row, hat, { hlater with fresh := ?_ }⟩
      cases ho : u.objects.lookup row.objectId with
      | none => rfl
      | some stored => exact (first.grown.objects _ _ ho).symm.trans hlater.fresh
    constructor
    · intro k hk
      by_cases hmem : k ∈ rest
      · exact hnew k hmem
      · obtain rfl : k = i := by simpa [hmem] using hk
        refine ⟨row, ?_, first.index, first.offset, ?_, first.object ▸ lookup_nextUuid hu⟩
        · rw [hrest.kept k fun j hj heq => hmem (Nat.cast_injective heq ▸ hj), hat, if_pos rfl]
        · rw [first.size, WritePlan.length_merge hbody]
    · intro j hj
      rw [hrest.kept j fun k hk => hj k (List.mem_cons_of_mem _ hk), hat,
        if_neg fun h => hj i List.mem_cons_self h.symm]

theorem Ran.rewrites {old : ℕ → Bytes} (h : Ran cfg faults n node version offset body plan old w u t)
    (hplan : plan.Valid) : Rewrites plan plan.touched version.id u t :=
  h.chunks.rewrites h.opened.consistent h.working.1 h.stop_le fun _ hi => hplan.touched_lt hi

def Carried (cfg : Config) (node : NodeRecord) (i : ℤ) : Prop := 0 ≤ i ∧ i ≤ divCeil node.length cfg.partSize

instance (cfg : Config) (node : NodeRecord) (i : ℤ) : Decidable (Carried cfg node i) :=
  inferInstanceAs (Decidable (_ ∧ _))

theorem rowAt_carry {rows : List FileChunkRecord} (ho : Keyed.Ordered FileChunkRecord.chunkIndex rows)
    {last : ℕ} (hlast : last < 2 ^ 63) (i : ℤ) :
    (rowAt (carry ((rows.filter fun c => 0 ≤ c.chunkIndex && c.chunkIndex ≤ asI64 last).map (forVersion v)) []) i).map
        FileChunkRecord.place =
      if 0 ≤ i ∧ i ≤ last then (rowAt rows i).map FileChunkRecord.place else none := by
  have hfilter := Keyed.ordered_filter (p := fun c => 0 ≤ c.chunkIndex && c.chunkIndex ≤ asI64 last) ho
  rw [rowAt, lookup_carry (Keyed.ordered_map (forVersion_key _) hfilter) List.Pairwise.nil, Keyed.lookup_nil,
    Option.none_or, Keyed.lookup_map (forVersion_key _), Keyed.lookup_filter ho, asI64_of_lt hlast, rowAt]
  cases hrow : Keyed.lookup FileChunkRecord.chunkIndex i rows with
  | none => simp
  | some row =>
    rw [Option.filter_some, Keyed.key_of_lookup hrow]
    by_cases hin : 0 ≤ i ∧ i ≤ last
    · rw [if_pos hin, if_pos (by simpa using hin)]
      rfl
    · rw [if_neg hin, if_neg (by simpa using hin)]
      rfl

theorem openWorkingVersion_rows (hw : Consistent cfg w) (hnode : w.nodes.lookup n = some node)
    (hexec : exec cfg faults (openWorkingVersion cfg n node) w = (.ok version, u)) (i : ℤ) :
    (rowAt (u.rowsOf version.id) i).map FileChunkRecord.place =
      if w.stagingOf n ≠ [] ∨ Carried cfg node i then (rowAt (visibleRows w n) i).map FileChunkRecord.place
      else none := by
  cases hnew : newest (w.stagingOf n) with
  | some working =>
    cases (openWorkingVersion_open hnew).symm.trans hexec
    have hopen : w.stagingOf n ≠ [] := fun h => by
      rw [h] at hnew
      cases hnew
    rw [if_pos (.inl hopen), visibleRows, visibleVersion_of_newest hnew]
  | none =>
    have hclosed : ¬ w.stagingOf n ≠ [] := not_not.mpr (newest_eq_none.mp hnew)
    simp only [hclosed, false_or]
    rw [visibleRows, visibleVersion_of_none hnew hnode]
    cases hcur : node.currentVersionId with
    | none =>
      cases (openWorkingVersion_first hw hnode hnew hcur).symm.trans hexec
      rw [show (w.newVersion n none (asI64 cfg.chunkSize)).id = w.nextUuid from rfl, rowsOf_addVersion, if_pos rfl]
      split_ifs <;> rfl
    | some base =>
      obtain ⟨current, hcurrent, -, -⟩ := hw.current hnode hcur
      cases (openWorkingVersion_carried hw hnode hnew hcur hcurrent).symm.trans hexec
      rw [show (w.newVersion n (some base) (max current.chunkSize 1)).id = w.nextUuid from rfl, rowsOf_setRows]
      exact rowAt_carry (hw.rows_ok hcurrent).ordered
        ((divCeil_le cfg.partSize_pos).trans_lt (length_lt hw hnode)) i

theorem visibleRows_sized {size : ℤ} (ht : Consistent cfg t) (hnode : t.nodes.lookup n = some node)
    (hnew : newest (t.stagingOf n) = some version) (hsize : InI64 size) :
    visibleRows (sized t n version.id size) n = t.rowsOf version.id := by
  rw [visibleRows, visibleVersion_of_newest (newest_sized size ht hnode hnew hsize), sized_eq size _ hnode]
  rfl

theorem exec_writeBytes_rows (faults : Faults) (hw : Consistent cfg w) (hnode : w.nodes.lookup n = some node)
    (hkind : node.kind ≠ .directory) (hbody : body ≠ []) (hend : offset + body.length ≤ node.length) :
    ∃ plan u, PlanFor cfg node offset body plan
      ∧ exec cfg faults (writeBytes cfg n offset body) w = (.ok body.length, u)
      ∧ (∀ k ∈ plan.touched, ∃ row, rowAt (visibleRows u n) k = some row ∧ w.objects.lookup row.objectId = none)
      ∧ ∀ i, (∀ k ∈ plan.touched, (k : ℤ) ≠ i) → (rowAt (visibleRows u n) i).map FileChunkRecord.place =
        if w.stagingOf n ≠ [] ∨ Carried cfg node i then (rowAt (visibleRows w n) i).map FileChunkRecord.place
        else none := by
  have hlength := length_lt hw hnode
  obtain ⟨version, plan, old, u, t, updated, hran, hlook, hexec⟩ :=
    exec_writeBytes_ran faults hw hnode hkind hbody offset
  have hplan := hran.planFor hlength hbody (hend.trans_lt hlength)
  have hrewrites := hran.rewrites hplan.valid
  obtain ⟨generation, hnode'⟩ := hran.lookup
  have hrows := visibleRows_sized hran.consistent hnode' hran.newest_eq (inI64_asI64 plan.newSize)
  -- the file does not grow, so no commit follows
  rw [finished, hplan.newSize_eq, hplan.oldSize_eq, max_eq_left hend, if_neg (lt_irrefl _)] at hexec
  rw [hplan.newSize_eq, max_eq_left hend] at hrows
  refine ⟨plan, _, hplan, hexec, fun k hk => ?_, fun i hi => ?_⟩
  · obtain ⟨row, hrow, hnew⟩ := hrewrites.new k hk
    refine ⟨row, (congrArg (fun rows => rowAt rows k) hrows).trans hrow, ?_⟩
    cases ho : w.objects.lookup row.objectId with
    | none => rfl
    | some stored => exact (hran.opened.frame.objects _ _ ho).symm.trans hnew.fresh
  · have hkept := (congrArg (fun rows => rowAt rows i) hrows).trans (hrewrites.kept i hi)
    exact (congrArg (Option.map FileChunkRecord.place) hkept).trans
      (openWorkingVersion_rows (hw.relocked (n :: w.nodeLocks)) hnode hran.opens i)

end Dcfs
