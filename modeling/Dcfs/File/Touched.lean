import Dcfs.File.Open

namespace Dcfs

open Machine Tables World Request Exec Sparse

namespace WritePlan

structure Valid (plan : WritePlan) : Prop where
  partSize_pos : 0 < plan.partSize
  nonempty : plan.offset < plan.stop
  stop_lt : plan.stop < 2 ^ 63
  oldSize_lt : plan.oldSize < 2 ^ 63

namespace Valid

variable {plan : WritePlan} (h : plan.Valid)

include h

theorem newSize_lt : plan.newSize < 2 ^ 63 := max_lt h.oldSize_lt h.stop_lt

theorem writeLast_eq : plan.writeLast = (plan.stop - 1) / plan.partSize := by
  have hpos : 0 < plan.stop := (Nat.zero_le _).trans_lt h.nonempty
  rw [writeLast, show (plan.stop : ℤ) - 1 = ((plan.stop - 1 : ℕ) : ℤ) by omega,
    asU64_of_lt (by have := h.stop_lt; omega)]

theorem writeLast_lt_chunkCount : plan.writeLast < plan.chunkCount := by
  have hstop := h.nonempty
  have hle : plan.stop ≤ plan.newSize := le_max_right _ _
  rw [h.writeLast_eq, chunkCount, divCeil, Nat.lt_div_iff_mul_lt h.partSize_pos]
  have := Nat.div_mul_le_self (plan.stop - 1) plan.partSize
  have := h.partSize_pos
  omega

theorem writeLast_lt : plan.writeLast < 2 ^ 63 := by
  have := Nat.div_le_self (plan.stop - 1) plan.partSize
  have := h.stop_lt
  rw [h.writeLast_eq]
  omega

theorem mem_touched {i : ℕ} : i ∈ plan.touched ↔
    plan.writeFirst ≤ i ∧ i ≤ plan.writeLast ∨ plan.rewriteLast = some i := by
  have hlt := h.writeLast_lt_chunkCount
  have hmem : i ∈ List.range' plan.writeFirst
      (min plan.writeLast (plan.chunkCount - 1) + 1 - plan.writeFirst) ↔
      plan.writeFirst ≤ i ∧ i ≤ plan.writeLast := by
    rw [List.mem_range'_1, min_eq_left (by omega)]
    omega
  rw [touched]
  cases plan.rewriteLast with
  | none => simp [hmem]
  | some tail =>
    dsimp only
    split_ifs
    · rw [List.mem_cons, hmem, Option.some.injEq, or_comm, eq_comm]
    · rw [List.mem_append, hmem, List.mem_singleton, Option.some.injEq, eq_comm]

theorem rewriteLast_lt {tail : ℕ} (ht : plan.rewriteLast = some tail) : tail < 2 ^ 63 := by
  simp only [rewriteLast, Option.ite_none_right_eq_some, Option.some.injEq] at ht
  have := Nat.div_le_self plan.oldSize plan.partSize
  have := h.oldSize_lt
  omega

theorem touched_lt {i : ℕ} (hi : i ∈ plan.touched) : i < 2 ^ 63 := by
  rcases h.mem_touched.mp hi with hin | ht
  · exact hin.2.trans_lt h.writeLast_lt
  · exact h.rewriteLast_lt ht

theorem mem_touched_of_covers {p : ℕ} (hp : plan.covers p) : p / plan.partSize ∈ plan.touched := by
  refine h.mem_touched.mpr (.inl ⟨Nat.div_le_div_right hp.1, ?_⟩)
  rw [h.writeLast_eq]
  exact Nat.div_le_div_right (Nat.le_sub_one_of_lt hp.2)

end Valid

end WritePlan

variable {cfg : Config} {faults : Faults} {w u : World}

theorem atIndex_of_subset {version : FileVersionRecord} {rows part : List FileChunkRecord}
    (h : ManifestOk cfg w version rows) (hsub : ∀ row ∈ part, row ∈ rows) {i : ℕ} (hi : i < 2 ^ 64)
    {row : FileChunkRecord} (hrow : atIndex part i = some row) : atIndex rows i = some row := by
  rw [atIndex_eq_lookup (fun r hr => h.index r (hsub r hr)) hi] at hrow
  rw [atIndex_eq_lookup h.index hi, ← Keyed.key_of_lookup hrow]
  exact Keyed.lookup_of_mem h.ordered (hsub _ (Keyed.mem_of_lookup hrow).1)

theorem atIndex_append (xs ys : List FileChunkRecord) (i : ℕ) :
    atIndex (xs ++ ys) i = (atIndex xs i).or (atIndex ys i) := List.find?_append

variable (faults) in
theorem exec_oldChunksOf (hu : Consistent cfg u) {v : Uuid} {version : FileVersionRecord}
    (hv : u.versions.lookup v = some version) {plan : WritePlan} (hplan : plan.Valid) :
    ∃ oldChunks, exec cfg faults (oldChunksOf v plan) u = (.ok oldChunks, u)
      ∧ ∀ i ∈ plan.touched, atIndex oldChunks i = atIndex (u.rowsOf v) i := by
  have hmin : min plan.writeLast plan.chunkCount = plan.writeLast :=
    min_eq_left hplan.writeLast_lt_chunkCount.le
  have hreached : ∀ i, plan.writeFirst ≤ i → i ≤ plan.writeLast →
      atIndex (u.rowsBetween v (asI64 plan.writeFirst) (asI64 plan.writeLast)) i = atIndex (u.rowsOf v) i :=
    fun i hf hl => rowsBetween_atIndex hu hv hf hl hplan.writeLast_lt
  rw [oldChunksOf, exec_query, answer_getChunkRange hu hv, repo_ok, pure_bind, hmin]
  cases htail : plan.rewriteLast with
  | none =>
    refine ⟨_, rfl, fun i hi => ?_⟩
    rcases hplan.mem_touched.mp hi with ⟨hf, hl⟩ | ht
    · exact hreached i hf hl
    · simp [htail] at ht
  | some tail =>
    refine ⟨u.rowsBetween v (asI64 plan.writeFirst) (asI64 plan.writeLast) ++
      u.rowsBetween v (asI64 tail) (asI64 tail), ?_, fun i hi => ?_⟩
    · dsimp only
      rw [exec_query, answer_getChunkRange hu hv, repo_ok, pure_bind]
      rfl
    · have hlt : i < 2 ^ 64 := (hplan.touched_lt hi).trans (by decide)
      have hsub : ∀ row ∈ u.rowsBetween v (asI64 plan.writeFirst) (asI64 plan.writeLast) ++
          u.rowsBetween v (asI64 tail) (asI64 tail), row ∈ u.rowsOf v := fun row hrow =>
        (List.mem_append.mp hrow).elim List.mem_of_mem_filter List.mem_of_mem_filter
      -- either list may hold the row: what either finds is the manifest's own
      cases hrow : atIndex (u.rowsBetween v (asI64 plan.writeFirst) (asI64 plan.writeLast) ++
          u.rowsBetween v (asI64 tail) (asI64 tail)) i with
      | some row => exact (atIndex_of_subset (hu.rows_ok hv) hsub hlt hrow).symm
      | none =>
        rw [atIndex_append, Option.or_eq_none_iff] at hrow
        rcases hplan.mem_touched.mp hi with ⟨hf, hl⟩ | ht
        · rw [← hreached i hf hl, hrow.1]
        · cases htail.symm.trans ht
          rw [← hrow.2, rowsBetween_atIndex hu hv le_rfl le_rfl (hplan.rewriteLast_lt htail)]

def oldPart (cfg : Config) (u : World) (v : Uuid) (plan : WritePlan) (i : ℕ) : Bytes :=
  if plan.coversWhole i then [] else (partsOf cfg u (u.rowsOf v) i).getD []

section old

variable {v : Uuid} {version : FileVersionRecord} {oldChunks : List FileChunkRecord}

variable (faults) in
theorem exec_oldChunksOf_any (hu : Consistent cfg u) (hv : u.versions.lookup v = some version) (plan : WritePlan) :
    ∃ oldChunks, exec cfg faults (oldChunksOf v plan) u = (.ok oldChunks, u)
      ∧ ∀ row ∈ oldChunks, row ∈ u.rowsOf v := by
  rw [oldChunksOf, exec_query, answer_getChunkRange hu hv, repo_ok, pure_bind]
  cases plan.rewriteLast with
  | none => exact ⟨_, rfl, fun row hrow => List.mem_of_mem_filter hrow⟩
  | some tail =>
    dsimp only
    rw [exec_query, answer_getChunkRange hu hv, repo_ok, pure_bind]
    exact ⟨_, rfl, fun row hrow =>
      (List.mem_append.mp hrow).elim List.mem_of_mem_filter List.mem_of_mem_filter⟩

theorem oldPart_any (hu : Consistent cfg u) (hv : u.versions.lookup v = some version)
    (h : ∀ row ∈ oldChunks, row ∈ u.rowsOf v) (plan : WritePlan) (i : ℕ) :
    ∃ old, OldPart cfg u version.nodeId plan oldChunks i old := by
  unfold OldPart
  split_ifs
  · exact ⟨[], rfl⟩
  · cases hrow : atIndex oldChunks i with
    | none => exact ⟨[], rfl⟩
    | some row => exact (hu.rows_ok hv).sealed row (h row (mem_of_atIndex hrow))

theorem OldPart.eq_oldPart {n : Uuid} {plan : WritePlan} {i : ℕ} {old : Bytes}
    (h : OldPart cfg u n plan oldChunks i old) (hat : atIndex oldChunks i = atIndex (u.rowsOf v) i) :
    old = oldPart cfg u v plan i := by
  rw [OldPart, hat] at h
  rw [oldPart, partsOf]
  split_ifs at h ⊢
  · exact h
  · cases hrow : atIndex (u.rowsOf v) i with
    | none =>
      rw [hrow] at h
      exact h
    | some row =>
      rw [hrow] at h
      exact h.plaintextOf_eq.symm

end old

theorem WritePlan.touched_lt_of_newSize {plan : WritePlan} (hpos : 0 < plan.partSize)
    (hsize : plan.newSize < 2 ^ 64) {i : ℕ} (hi : i ∈ plan.touched) : i < 2 ^ 64 := by
  have hcount : plan.chunkCount ≤ plan.newSize := divCeil_le hpos
  have hreached : ∀ j, j ∈ List.range' plan.writeFirst
      (min plan.writeLast (plan.chunkCount - 1) + 1 - plan.writeFirst) → j ≤ plan.newSize := by
    intro j hj
    rw [List.mem_range'_1] at hj
    omega
  have hle : i ≤ plan.newSize := by
    rw [WritePlan.touched] at hi
    cases htail : plan.rewriteLast with
    | none =>
      rw [htail] at hi
      exact hreached i hi
    | some tail =>
      have hlast : tail ≤ plan.newSize := by
        simp only [WritePlan.rewriteLast, Option.ite_none_right_eq_some, Option.some.injEq] at htail
        omega
      rw [htail] at hi
      dsimp only at hi
      split_ifs at hi
      · exact (List.mem_cons.mp hi).elim (fun e => e ▸ hlast) (hreached i)
      · exact (List.mem_append.mp hi).elim (hreached i) fun e => List.mem_singleton.mp e ▸ hlast
  exact hle.trans_lt hsize

theorem byteOf_merged {v : Uuid} {plan : WritePlan} {body : Bytes} (hplan : plan.Valid)
    (hsize : plan.partSize = cfg.partSize) (hbody : plan.stop ≤ plan.offset + body.length)
    (hparts : ∀ j, j < 2 ^ 64 → partsOf cfg w (w.rowsOf v) j =
      if j ∈ plan.touched then some (plan.merge body (oldPart cfg u v plan j) j)
      else partsOf cfg u (u.rowsOf v) j) {p : ℕ} (hp : p / cfg.partSize < 2 ^ 64) :
    if plan.covers p then byteOf cfg w v p = padded body (p - plan.offset)
    else byteOf cfg w v p =
      if p / cfg.partSize ∈ plan.touched ∧ plan.newSize ≤ p then 0 else byteOf cfg u v p := by
  have hsplit : p / cfg.partSize * cfg.partSize + p % cfg.partSize = p := Nat.div_add_mod' _ _
  have hmod := Nat.mod_lt p cfg.partSize_pos
  have hlen : plan.chunkLen (p / cfg.partSize) =
      min cfg.partSize (plan.newSize - p / cfg.partSize * cfg.partSize) := by
    rw [WritePlan.chunkLen, hsize]
  have hcovered := hplan.mem_touched_of_covers (p := p)
  rw [hsize] at hcovered
  rw [byteOf, byteAt, hparts _ hp]
  by_cases hmem : p / cfg.partSize ∈ plan.touched
  · rw [if_pos hmem, Option.getD_some]
    by_cases hq : p % cfg.partSize < plan.chunkLen (p / cfg.partSize)
    · have hinside : ¬ plan.newSize ≤ p := by
        clear hp hparts
        omega
      rw [WritePlan.padded_merge hbody _ hq, hsize, hsplit]
      by_cases hcov : plan.covers p
      · rw [if_pos hcov, if_pos hcov]
      · have hwhole : ¬ plan.coversWhole (p / cfg.partSize) = true := by
          intro hwhole
          refine hcov ?_
          have := WritePlan.covers_of_coversWhole hwhole hq
          rwa [hsize, hsplit] at this
        rw [if_neg hcov, if_neg hcov, oldPart, if_neg hwhole, if_neg fun h => hinside h.2]
        rfl
    · have hpast : plan.newSize ≤ p := by
        clear hp hparts
        omega
      have hcov : ¬ plan.covers p := fun h => absurd (hpast.trans_lt h.2) (not_lt.mpr (le_max_right _ _))
      rw [if_neg hcov, if_pos ⟨hmem, hpast⟩]
      refine padded_of_le ?_
      rw [WritePlan.length_merge hbody]
      exact not_lt.mp hq
  · rw [if_neg hmem, if_neg (mt hcovered hmem), if_neg fun h => hmem h.1]
    rfl

end Dcfs
