import Dcfs.Library.Table
import Mathlib.Algebra.BigOperators.Group.List.Basic
import Mathlib.Algebra.Ring.Nat

namespace Tables

variable {κ α : Type}

def total (weight : α → ℕ) (t : Table κ α) : ℕ := ((values t).map weight).sum

@[simp] theorem total_empty (weight : α → ℕ) : total weight (∅ : Table κ α) = 0 := rfl

variable [DecidableEq κ] (weight : α → ℕ) {t : Table κ α} {k : κ} {a b : α}

theorem notMem_of_lookup (h : t.lookup k = none) : k ∉ t := by
  rwa [AList.lookup_eq_none] at h

theorem values_insert (h : t.lookup k = none) (a : α) : values (t.insert k a) = a :: values t := by
  rw [values, AList.entries_insert_of_notMem (notMem_of_lookup h)]
  rfl

theorem values_perm_erase (h : t.lookup k = some a) : (values t).Perm (a :: values (t.erase k)) := by
  have herased : (t.erase k).lookup k = none := by rw [lookup_erase, if_pos rfl]
  rw [← values_insert herased]
  apply values_perm
  intro k'
  rw [lookup_insert, lookup_erase]
  split_ifs with hk
  · rw [hk, h]
  · rfl

theorem total_congr {t t' : Table κ α} (h : ∀ k, t.lookup k = t'.lookup k) : total weight t = total weight t' :=
  ((values_perm h).map weight).sum_eq

theorem total_insert (h : t.lookup k = none) (a : α) : total weight (t.insert k a) = weight a + total weight t := by
  rw [total, values_insert h, List.map_cons, List.sum_cons]
  rfl

theorem total_erase (h : t.lookup k = some a) : weight a + total weight (t.erase k) = total weight t := by
  rw [total, total, ((values_perm_erase h).map weight).sum_eq, List.map_cons, List.sum_cons]

theorem total_replace (h : t.lookup k = some a) (b : α) :
    weight a + total weight (t.insert k b) = weight b + total weight t := by
  have herased : (t.erase k).lookup k = none := by rw [lookup_erase, if_pos rfl]
  have hinsert : total weight (t.insert k b) = total weight ((t.erase k).insert k b) := by
    apply total_congr
    intro k'
    rw [lookup_insert, lookup_insert, lookup_erase]
    split_ifs <;> rfl
  have hinserted := total_insert weight herased b
  have herase := total_erase weight h
  omega

variable {weight} in
theorem total_modify {f : α → α} (hf : ∀ a, weight (f a) = weight a) :
    total weight (modify k f t) = total weight t := by
  unfold modify
  cases h : t.lookup k with
  | none => rfl
  | some a =>
    have hreplace := total_replace weight h (f a)
    have := hf a
    dsimp only
    omega

theorem total_le_total {β : Type} {weight : α → ℕ} {weight' : β → ℕ} {t : Table κ α} {t' : Table κ β}
    (h : ∀ k a, t.lookup k = some a → ∃ b, t'.lookup k = some b ∧ weight a ≤ weight' b) :
    total weight t ≤ total weight' t' := by
  induction t using AList.insertRec generalizing t' with
  | H0 => exact Nat.zero_le _
  | IH k a t hk ih =>
    have hnone : t.lookup k = none := AList.lookup_eq_none.mpr hk
    obtain ⟨b, hb, hle⟩ := h k a (AList.lookup_insert t)
    have hrest : total weight t ≤ total weight' (t'.erase k) := by
      apply ih
      intro k' a' ha'
      have hne : k' ≠ k := by
        rintro rfl
        rw [hnone] at ha'
        cases ha'
      rw [lookup_erase, if_neg hne]
      apply h k' a'
      rw [lookup_insert, if_neg hne]
      exact ha'
    rw [total_insert weight hnone, ← total_erase weight' hb]
    exact Nat.add_le_add hle hrest

end Tables
