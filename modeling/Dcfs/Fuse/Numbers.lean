import Dcfs.Fuse.Files

namespace Dcfs.Fuse

open Tables

structure Mount.Matched (m : Mount) : Prop where
  pairs : ∀ {ino id}, m.byIno.lookup ino = some id ↔ m.byId.lookup id = some ino
  below : ∀ {ino id}, m.byIno.lookup ino = some id → ino < m.next

structure Mount.SameNumbers (m m' : Mount) : Prop where
  byIno : m'.byIno = m.byIno
  byId : m'.byId = m.byId
  next : m'.next = m.next

structure Mount.Grows (m m' : Mount) : Prop where
  matched : m'.Matched
  bound : ∀ {ino id}, m.byIno.lookup ino = some id → m'.byIno.lookup ino = some id

namespace Mount

variable {m m' m'' : Mount} {ino : ℕ} {id : Uuid}

theorem SameNumbers.refl (m : Mount) : m.SameNumbers m := ⟨rfl, rfl, rfl⟩

theorem SameNumbers.trans (h : m.SameNumbers m') (h' : m'.SameNumbers m'') : m.SameNumbers m'' :=
  ⟨h'.byIno.trans h.byIno, h'.byId.trans h.byId, h'.next.trans h.next⟩

theorem SameNumbers.matched (h : m.SameNumbers m') (hm : m.Matched) : m'.Matched where
  pairs := by
    rw [h.byIno, h.byId]
    exact hm.pairs
  below := by
    rw [h.byIno, h.next]
    exact hm.below

theorem SameNumbers.inoFor (h : m.SameNumbers m') (id : Uuid) :
    (m'.inoFor id).1 = (m.inoFor id).1 ∧ (m.inoFor id).2.SameNumbers (m'.inoFor id).2 := by
  unfold Mount.inoFor
  rw [h.byId]
  cases m.byId.lookup id with
  | some ino => exact ⟨rfl, h⟩
  | none =>
    simp only [Mount.bind, h.byIno, h.byId, h.next, true_and]
    exact ⟨rfl, rfl, rfl⟩

theorem Grows.refl (h : m.Matched) : m.Grows m := ⟨h, fun hb => hb⟩

theorem Grows.trans (h : m.Grows m') (h' : m'.Grows m'') : m.Grows m'' :=
  ⟨h'.matched, fun hb => h'.bound (h.bound hb)⟩

theorem Grows.same (h : m.Grows m') (h' : m'.SameNumbers m'') : m.Grows m'' :=
  ⟨h'.matched h.matched, fun hb => h'.byIno ▸ h.bound hb⟩

theorem fresh_matched (rootId : Uuid) : (Mount.fresh rootId).Matched where
  pairs {ino id} := by
    simp only [Mount.fresh, lookup_insert, AList.lookup_empty, Option.ite_none_right_eq_some, Option.some.injEq]
    constructor
    · rintro ⟨rfl, rfl⟩
      exact ⟨rfl, rfl⟩
    · rintro ⟨rfl, rfl⟩
      exact ⟨rfl, rfl⟩
  below {ino id} hb := by
    simp only [Mount.fresh, lookup_insert, AList.lookup_empty, Option.ite_none_right_eq_some] at hb
    rw [hb.1]
    exact Nat.lt_succ_self _

theorem Matched.inoFor (h : m.Matched) (id : Uuid) :
    m.Grows (m.inoFor id).2 ∧ (m.inoFor id).2.byId.lookup id = some (m.inoFor id).1 := by
  unfold Mount.inoFor
  cases hid : m.byId.lookup id with
  | some ino => exact ⟨.refl h, hid⟩
  | none =>
    have hnew : ∀ {ino id'}, m.byIno.lookup ino = some id' → ino ≠ m.next ∧ id' ≠ id := by
      intro ino id' hb
      refine ⟨(h.below hb).ne, ?_⟩
      rintro rfl
      exact Option.some_ne_none _ ((h.pairs.mp hb).symm.trans hid)
    simp only [Mount.bind, lookup_insert, if_true, and_true]
    refine ⟨⟨fun {ino id'} => ?_, fun {ino id'} hb => ?_⟩, fun {ino id'} hb => ?_⟩
    · simp only [lookup_insert]
      constructor
      · intro hb
        split_ifs at hb with hino
        · cases hb
          rw [if_pos rfl, hino]
        · rw [if_neg (hnew hb).2]
          exact h.pairs.mp hb
      · intro hb
        split_ifs at hb with hsame
        · cases hb
          rw [if_pos rfl, hsame]
        · have hb := h.pairs.mpr hb
          rw [if_neg (hnew hb).1]
          exact hb
    · simp only [lookup_insert] at hb
      split_ifs at hb with hino
      · rw [hino]
        exact Nat.lt_succ_self _
      · exact (h.below hb).trans (Nat.lt_succ_self _)
    · simp only [lookup_insert]
      rw [if_neg (hnew hb).1]
      exact hb

theorem Matched.unbind (h : m.Matched) (hid : m.byIno.lookup ino = some id) : (m.unbind ino id).Matched where
  pairs {ino' id'} := by
    simp only [Mount.unbind, lookup_erase]
    by_cases hino : ino' = ino
    · subst hino
      rw [if_pos rfl]
      constructor
      · intro hb
        cases hb
      · intro hb
        split_ifs at hb with hsame
        exact absurd (Option.some.inj ((h.pairs.mpr hb).symm.trans hid)) hsame
    · rw [if_neg hino]
      constructor
      · intro hb
        have hne : id' ≠ id := by
          rintro rfl
          exact hino (Option.some.inj ((h.pairs.mp hb).symm.trans (h.pairs.mp hid)))
        rw [if_neg hne]
        exact h.pairs.mp hb
      · intro hb
        split_ifs at hb
        exact h.pairs.mpr hb
  below hb := by
    simp only [Mount.unbind, lookup_erase] at hb
    split_ifs at hb
    exact h.below hb

end Mount

end Dcfs.Fuse
