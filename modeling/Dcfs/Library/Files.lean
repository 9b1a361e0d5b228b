import Dcfs.Library.Table
import Mathlib.Logic.Function.Basic

/-!
Files behind names: a name leads to a file, which stays itself when the name is given to another or is
taken away, so that whoever has it open goes on with it.
-/

namespace Inodes

open Tables

structure Files (π α : Type) where
  names : Table π ℕ
  data : ℕ → List α
  next : ℕ

namespace Files

variable {π α : Type} [DecidableEq π]

def empty : Files π α := ⟨∅, fun _ => [], 0⟩

variable (f : Files π α)

def create (p : π) : ℕ × Files π α :=
  match f.names.lookup p with
  | some i => (i, { f with data := Function.update f.data i [] })
  | none => (f.next, ⟨f.names.insert p f.next, Function.update f.data f.next [], f.next + 1⟩)

def append (i : ℕ) (xs : List α) : Files π α := { f with data := Function.update f.data i (f.data i ++ xs) }

def rename (p q : π) : Option (Files π α) :=
  (f.names.lookup p).map fun i => { f with names := (f.names.erase p).insert q i }

def remove (p : π) : Files π α := { f with names := f.names.erase p }

def content (p : π) : Option (List α) := (f.names.lookup p).map f.data

structure Sane : Prop where
  below : ∀ {p i}, f.names.lookup p = some i → i < f.next
  single : ∀ {p q i}, f.names.lookup p = some i → f.names.lookup q = some i → p = q

variable {f} {p q r : π} {i j : ℕ} {xs : List α} {g : Files π α}

theorem empty_sane : (empty : Files π α).Sane := by
  constructor <;> simp [empty]

theorem content_eq_some : f.content p = some xs ↔ ∃ i, f.names.lookup p = some i ∧ f.data i = xs :=
  Option.map_eq_some_iff

theorem content_eq_none : f.content p = none ↔ f.names.lookup p = none := Option.map_eq_none_iff

theorem create_spec (h : f.Sane) (p : π) :
    (f.create p).2.names.lookup p = some (f.create p).1 ∧ (f.create p).2.data (f.create p).1 = []
      ∧ (∀ q, q ≠ p → (f.create p).2.names.lookup q = f.names.lookup q)
      ∧ (∀ j, (∀ q, f.names.lookup q = some j → q ≠ p) → j < f.next → (f.create p).2.data j = f.data j)
      ∧ f.next ≤ (f.create p).2.next ∧ (f.create p).2.Sane := by
  unfold create
  cases hp : f.names.lookup p with
  | some i =>
    refine ⟨hp, Function.update_self .., fun _ _ => rfl, fun j hj _ => ?_, Nat.le_refl _, h.below, h.single⟩
    apply Function.update_of_ne
    rintro rfl
    exact hj p hp rfl
  | none =>
    refine ⟨?_, Function.update_self .., fun q hq => ?_,
      fun j _ hlt => Function.update_of_ne (Nat.ne_of_lt hlt) .., Nat.le_succ _, ?_, ?_⟩
    · rw [lookup_insert, if_pos rfl]
    · rw [lookup_insert, if_neg hq]
    · intro q i hq
      rw [lookup_insert] at hq
      split_ifs at hq
      · cases hq
        exact Nat.lt_succ_self _
      · exact Nat.lt_trans (h.below hq) (Nat.lt_succ_self _)
    · intro q r i hq hr
      rw [lookup_insert] at hq hr
      split_ifs at hq hr with hqp hrp hrp
      · rw [hqp, hrp]
      · cases hq
        exact absurd (h.below hr) (Nat.lt_irrefl _)
      · cases hr
        exact absurd (h.below hq) (Nat.lt_irrefl _)
      · exact h.single hq hr

theorem create_fst (f : Files π α) (p : π) : f.names.lookup p = some (f.create p).1 ∨ (f.create p).1 = f.next := by
  unfold create
  cases f.names.lookup p with
  | some i => exact .inl rfl
  | none => exact .inr rfl

theorem Sane.append (h : f.Sane) : (f.append i xs).Sane := ⟨h.below, h.single⟩

omit [DecidableEq π] in
theorem append_self : (f.append i xs).data i = f.data i ++ xs := Function.update_self ..

omit [DecidableEq π] in
theorem append_of_ne (h : j ≠ i) : (f.append i xs).data j = f.data j := Function.update_of_ne h ..

theorem lookup_rename (h : f.rename p q = some g) (hne : p ≠ q) : ∃ i, f.names.lookup p = some i ∧ g.data = f.data
    ∧ g.next = f.next ∧ g.names.lookup q = some i ∧ g.names.lookup p = none
    ∧ ∀ r, r ≠ p → r ≠ q → g.names.lookup r = f.names.lookup r := by
  obtain ⟨i, hi, rfl⟩ := Option.map_eq_some_iff.mp h
  refine ⟨i, hi, rfl, rfl, ?_, ?_, fun r hp hq => ?_⟩
  · rw [lookup_insert, if_pos rfl]
  · rw [lookup_insert, if_neg hne, lookup_erase, if_pos rfl]
  · rw [lookup_insert, if_neg hq, lookup_erase, if_neg hp]

theorem Sane.rename (h : f.Sane) (hg : f.rename p q = some g) (hne : p ≠ q) : g.Sane := by
  obtain ⟨i, hi, -, hnext, hq, hp, hother⟩ := lookup_rename hg hne
  -- a name of `g` is `q`, which has the file that `p` had, or an old one
  have hold : ∀ {r j}, g.names.lookup r = some j → r = q ∧ j = i ∨ r ≠ p ∧ f.names.lookup r = some j := by
    intro r j hr
    by_cases hrq : r = q
    · subst hrq
      exact .inl ⟨rfl, Option.some.inj (hr.symm.trans hq)⟩
    · have hrp : r ≠ p := by
        rintro rfl
        cases hr.symm.trans hp
      rw [hother r hrp hrq] at hr
      exact .inr ⟨hrp, hr⟩
  refine ⟨fun {r j} hr => ?_, fun {r r' j} hr hr' => ?_⟩
  · rw [hnext]
    rcases hold hr with ⟨-, rfl⟩ | ⟨-, hr⟩
    · exact h.below hi
    · exact h.below hr
  · rcases hold hr with ⟨rfl, rfl⟩ | ⟨hrp, hr⟩
    · rcases hold hr' with ⟨rfl, -⟩ | ⟨hrp', hr'⟩
      · rfl
      · exact absurd (h.single hr' hi) hrp'
    · rcases hold hr' with ⟨rfl, rfl⟩ | ⟨-, hr'⟩
      · exact absurd (h.single hr hi) hrp
      · exact h.single hr hr'

theorem lookup_remove : (f.remove p).names.lookup q = if q = p then none else f.names.lookup q := lookup_erase ..

theorem Sane.remove (h : f.Sane) : (f.remove p).Sane := by
  have hold : ∀ {q i}, (f.remove p).names.lookup q = some i → f.names.lookup q = some i := by
    intro q i hq
    rw [lookup_remove] at hq
    split_ifs at hq
    exact hq
  exact ⟨fun hq => h.below (hold hq), fun hq hr => h.single (hold hq) (hold hr)⟩

end Files

end Inodes
