import Dcfs.File.Reuploads

namespace Dcfs

open Machine Tables World Request Exec

variable {cfg : Config} {faults : Faults} {w : World} {n : Uuid} {node : NodeRecord} {plan : WritePlan} {offset : ℕ}
  {body : Bytes}

def Overlaps (cfg : Config) (offset len : ℕ) (i : ℤ) : Prop :=
  ∃ p, offset ≤ p ∧ p < offset + len ∧ i = ↑(p / cfg.partSize)

/-- New objects where the write falls, and nowhere else anything new. -/
structure TouchesOnly (cfg : Config) (n : Uuid) (offset len : ℕ) (w u : World) : Prop where
  new : ∀ i, Overlaps cfg offset len i →
    ∃ row, rowAt (visibleRows u n) i = some row ∧ w.objects.lookup row.objectId = none
  same : ∀ i, ¬ Overlaps cfg offset len i →
    (rowAt (visibleRows u n) i).map FileChunkRecord.place = (rowAt (visibleRows w n) i).map FileChunkRecord.place

theorem PlanFor.overlaps_iff (h : PlanFor cfg node offset body plan) {i : ℤ} :
    Overlaps cfg offset body.length i ↔ ∃ k : ℕ, (k : ℤ) = i ∧ plan.writeFirst ≤ k ∧ k ≤ plan.writeLast := by
  have hpos := cfg.partSize_pos
  rw [h.valid.writeLast_eq, WritePlan.writeFirst, h.partSize_eq, h.offset_eq, h.stop_eq]
  constructor
  · rintro ⟨p, hfrom, hto, rfl⟩
    exact ⟨_, rfl, Nat.div_le_div_right hfrom, Nat.div_le_div_right (Nat.le_sub_one_of_lt hto)⟩
  · rintro ⟨k, rfl, hfirst, hlast⟩
    -- the first byte of the chunk, or of the write if that is later
    have hnonempty := h.valid.nonempty
    rw [h.offset_eq, h.stop_eq] at hnonempty
    have hstart := (Nat.le_div_iff_mul_le hpos).mp hlast
    have hoffset := (Nat.div_lt_iff_lt_mul hpos).mp (Nat.lt_succ_of_le hfirst)
    refine ⟨max offset (k * cfg.partSize), le_max_left _ _, max_lt hnonempty (by omega), ?_⟩
    rw [Nat.cast_inj, eq_comm, Nat.div_eq_iff hpos]
    rw [Nat.succ_mul] at hoffset
    have := le_max_right offset (k * cfg.partSize)
    have := max_lt hoffset (Nat.lt_add_of_pos_right hpos : k * cfg.partSize < k * cfg.partSize + cfg.partSize)
    omega

theorem PlanFor.rewriteLast_iff (h : PlanFor cfg node offset body plan) (hend : offset + body.length ≤ node.length)
    {tail : ℕ} : plan.rewriteLast = some tail ↔ tail = node.length / cfg.partSize
      ∧ node.length % cfg.partSize ≠ 0 ∧ offset + body.length ≤ node.length / cfg.partSize * cfg.partSize := by
  have hpos := cfg.partSize_pos
  have hnonempty := h.valid.nonempty
  rw [h.offset_eq, h.stop_eq] at hnonempty
  have hfirst : ¬ node.length / cfg.partSize < offset / cfg.partSize :=
    not_lt.mpr (Nat.div_le_div_right (by omega))
  have hlast : (offset + body.length - 1) / cfg.partSize < node.length / cfg.partSize ↔
      offset + body.length ≤ node.length / cfg.partSize * cfg.partSize := by
    rw [Nat.div_lt_iff_lt_mul hpos]
    omega
  have hcount : node.length % cfg.partSize ≠ 0 → node.length / cfg.partSize < divCeil node.length cfg.partSize := by
    intro hpart
    have := Nat.div_add_mod' node.length cfg.partSize
    rw [divCeil, Nat.lt_div_iff_mul_lt hpos]
    omega
  rw [WritePlan.rewriteLast, WritePlan.chunkCount, WritePlan.writeFirst, h.valid.writeLast_eq, h.newSize_eq,
    max_eq_left hend, h.oldSize_eq, h.partSize_eq, h.offset_eq, h.stop_eq]
  simp only [hfirst, false_or, hlast, Option.ite_none_right_eq_some, Option.some.injEq]
  constructor
  · rintro ⟨⟨-, hpart, -, hreach⟩, rfl⟩
    exact ⟨rfl, hpart, hreach⟩
  · rintro ⟨rfl, hpart, hreach⟩
    exact ⟨⟨by omega, hpart, hcount hpart, hreach⟩, rfl⟩

theorem visibleRows_stored (hw : Consistent cfg w) {row : FileChunkRecord} (h : row ∈ visibleRows w n) :
    w.objects.lookup row.objectId ≠ none := by
  obtain ⟨v, hrow⟩ := mem_visibleRows h
  obtain ⟨version, hv⟩ := hw.version_of_row hrow
  obtain ⟨plaintext, hsealed⟩ := (hw.rows_ok hv).sealed row hrow
  rw [hsealed.stored]
  nofun

theorem rowAt_visibleRows (hw : Consistent cfg w) {row : FileChunkRecord} (h : row ∈ visibleRows w n) :
    rowAt (visibleRows w n) row.chunkIndex = some row := by
  unfold visibleRows at h ⊢
  cases hv : visibleVersion w n with
  | none =>
    rw [hv] at h
    cases h
  | some v =>
    rw [hv] at h
    obtain ⟨version, hversion⟩ := hw.version_of_row h
    exact Keyed.lookup_of_mem (hw.rows_ok hversion).ordered h

theorem PlanFor.carried_of_touched (h : PlanFor cfg node offset body plan) (hend : offset + body.length ≤ node.length)
    {k : ℕ} (hk : k ∈ plan.touched) : Carried cfg node k := by
  have hcount : plan.chunkCount = divCeil node.length cfg.partSize := by
    rw [WritePlan.chunkCount, h.newSize_eq, max_eq_left hend, h.partSize_eq]
  refine ⟨Int.natCast_nonneg k, Int.ofNat_le.mpr ?_⟩
  rcases h.valid.mem_touched.mp hk with ⟨-, hlast⟩ | htail
  · rw [← hcount]
    exact hlast.trans h.valid.writeLast_lt_chunkCount.le
  · obtain ⟨rfl, -, -⟩ := (h.rewriteLast_iff hend).mp htail
    exact Nat.div_le_div_right (by have := cfg.partSize_pos; omega)

theorem edit_touches_only_iff (hw : Reachable cfg w) (hnode : w.nodes.lookup n = some node)
    (hkind : node.kind ≠ .directory) (hend : offset + body.length ≤ node.length) :
    (∃ u, exec cfg faults (writeBytes cfg n offset body) w = (.ok body.length, u)
        ∧ TouchesOnly cfg n offset body.length w u) ↔
      body = [] ∨ (node.length % cfg.partSize = 0
          ∨ node.length / cfg.partSize * cfg.partSize < offset + body.length)
        ∧ (w.stagingOf n ≠ [] ∨ ∀ row ∈ visibleRows w n, Carried cfg node row.chunkIndex) := by
  have hc := hw.sound.consistent
  by_cases hbody : body = []
  · subst hbody
    refine iff_of_true ⟨w, rfl, fun i h => ?_, fun i _ => rfl⟩ (.inl rfl)
    obtain ⟨p, hfrom, hto, -⟩ := h
    exact absurd hto (not_lt.mpr hfrom)
  obtain ⟨plan, u, hplan, hexec, hnew, hkept⟩ := exec_writeBytes_rows faults hc hnode hkind hbody hend
  have htouched : ∀ i, Overlaps cfg offset body.length i → ∃ k ∈ plan.touched, (k : ℤ) = i := by
    intro i hi
    obtain ⟨k, hk, hin⟩ := hplan.overlaps_iff.mp hi
    exact ⟨k, hplan.valid.mem_touched.mpr (.inl hin), hk⟩
  rw [or_iff_right hbody]
  constructor
  · rintro ⟨u', hexec', honly⟩
    obtain rfl : u = u' := congrArg Prod.snd (hexec.symm.trans hexec')
    constructor
    · by_contra hshort
      rw [not_or, not_lt] at hshort
      have htail := (hplan.rewriteLast_iff hend).mpr ⟨rfl, hshort⟩
      obtain ⟨row, hrow, hfresh⟩ := hnew _ (hplan.valid.mem_touched.mpr (.inr htail))
      have hapart : ¬ Overlaps cfg offset body.length ↑(node.length / cfg.partSize) := by
        rintro ⟨p, -, hto, heq⟩
        have := Nat.div_mul_le_self p cfg.partSize
        rw [← Nat.cast_injective heq] at this
        omega
      have hsame := honly.same _ hapart
      rw [hrow, Option.map_some, eq_comm, Option.map_eq_some_iff] at hsame
      obtain ⟨old, hold, hplace⟩ := hsame
      refine visibleRows_stored hc (Keyed.mem_of_lookup hold).1 ?_
      rw [show old.objectId = row.objectId from congrArg Prod.fst hplace, hfresh]
    · by_cases hopen : w.stagingOf n ≠ []
      · exact .inl hopen
      · refine .inr fun row hrow => ?_
        by_contra hleft
        have hfar : ∀ k ∈ plan.touched, (k : ℤ) ≠ row.chunkIndex := fun k hk heq =>
          hleft (heq ▸ hplan.carried_of_touched hend hk)
        have hapart : ¬ Overlaps cfg offset body.length row.chunkIndex := fun h => by
          obtain ⟨k, hk, heq⟩ := htouched _ h
          exact hfar k hk heq
        have hlost := hkept row.chunkIndex hfar
        rw [if_neg (not_or.mpr ⟨hopen, hleft⟩), honly.same _ hapart, rowAt_visibleRows hc hrow] at hlost
        cases hlost
  · rintro ⟨hreach, hcarried⟩
    refine ⟨u, hexec, fun i hi => ?_, fun i hi => ?_⟩
    · obtain ⟨k, hk, rfl⟩ := htouched i hi
      exact hnew k hk
    · have hfar : ∀ k ∈ plan.touched, (k : ℤ) ≠ i := by
        rintro k hk rfl
        rcases hplan.valid.mem_touched.mp hk with hin | htail
        · exact hi (hplan.overlaps_iff.mpr ⟨k, rfl, hin⟩)
        · obtain ⟨-, hpart, hshort⟩ := (hplan.rewriteLast_iff hend).mp htail
          rcases hreach with hwhole | hreached
          · exact hpart hwhole
          · omega
      rw [hkept i hfar]
      by_cases hin : w.stagingOf n ≠ [] ∨ Carried cfg node i
      · rw [if_pos hin]
      · rw [if_neg hin]
        rw [not_or] at hin
        have hrows := hcarried.resolve_left hin.1
        cases hrow : rowAt (visibleRows w n) i with
        | none => rfl
        | some row =>
          have hmem := Keyed.mem_of_lookup hrow
          exact absurd (hmem.2 ▸ hrows row hmem.1) hin.2

def patchedFile (length size : ℕ) : World :=
  (World.fresh 0).trace (sample .memory)
    [newFile 1, .writeBytes 1 0 (List.replicate length 7), .commitNode 1,
      .patchNode 1 ⟨none, none, none, some size, none, none⟩]

theorem patchedFile_reachable (length size : ℕ) : Reachable (sample .memory) (patchedFile length size) :=
  (Reachable.fresh 0).trace _

theorem edit_touches_one_part : Reachable (sample .memory) (patchedFile 8 8)
    ∧ ∃ u, exec (sample .memory) noFaults (writeBytes (sample .memory) 1 5 [9]) (patchedFile 8 8) = (.ok 1, u)
      ∧ TouchesOnly (sample .memory) 1 5 1 (patchedFile 8 8) u := by
  have hreach := patchedFile_reachable 8 8
  obtain ⟨node, hnode, hkind, hsize⟩ : ∃ node, (patchedFile 8 8).nodes.lookup 1 = some node
      ∧ node.kind ≠ .directory ∧ node.length = 8 := ⟨_, rfl, by decide, rfl⟩
  refine ⟨hreach, (edit_touches_only_iff hreach hnode hkind (by rw [hsize]; decide)).mpr (.inr ⟨.inl ?_, .inr ?_⟩)⟩
  · rw [hsize]
    decide
  · simp only [Carried, hsize]
    decide

theorem edit_touches_more :
    (∃ u, exec (sample .memory) noFaults (writeBytes (sample .memory) 1 0 [9]) (patchedFile 10 10) = (.ok 1, u)
      ∧ Reachable (sample .memory) (patchedFile 10 10) ∧ ¬ TouchesOnly (sample .memory) 1 0 1 (patchedFile 10 10) u)
    ∧ ∃ u, exec (sample .memory) noFaults (writeBytes (sample .memory) 1 0 [9]) (patchedFile 12 4) = (.ok 1, u)
      ∧ Reachable (sample .memory) (patchedFile 12 4)
      ∧ ¬ TouchesOnly (sample .memory) 1 0 1 (patchedFile 12 4) u := by
  -- An edit of the first byte: the short part at the end is stored anew, and where the size was set lower the rows
  -- past it are gone.
  have hapart : ¬ Overlaps (sample .memory) 0 1 2 := by
    rintro ⟨p, -, hto, heq⟩
    obtain rfl : p = 0 := by omega
    exact absurd heq (by decide)
  refine ⟨⟨_, rfl, patchedFile_reachable 10 10, fun h => ?_⟩, _, rfl, patchedFile_reachable 12 4, fun h => ?_⟩
  · exact absurd (h.same 2 hapart) (by decide)
  · exact absurd (h.same 2 hapart) (by decide)

end Dcfs
