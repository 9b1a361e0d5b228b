import Mathlib.Logic.Relation

/-!
Parent links: each point has at most one parent. What lies above a point, and how that changes
when one link does.
-/

namespace Forests

open Relation

variable {κ : Type*}

def Up (parent : κ → Option κ) (a b : κ) : Prop := parent a = some b

abbrev Above (parent : κ → Option κ) : κ → κ → Prop := ReflTransGen (Up parent)

variable {parent parent' : κ → Option κ} {a b p x root : κ}

theorem not_above_self (hroot : parent root = none) (h : Above parent a root) :
    ¬ TransGen (Up parent) a a := by
  induction h using ReflTransGen.head_induction_on with
  | refl =>
    intro hcycle
    obtain ⟨b, hb, -⟩ := TransGen.head'_iff.mp hcycle
    exact absurd (hroot.symm.trans hb) nofun
  | @head a b hab _ ih =>
    intro hcycle
    obtain ⟨c, hac, hca⟩ := TransGen.head'_iff.mp hcycle
    have hcb : c = b := Option.some.inj (hac.symm.trans hab)
    exact ih (hcb ▸ TransGen.tail' hca hac)

theorem Above.of_avoids (h : Above parent a b) (hsame : ∀ a, a ≠ x → parent' a = parent a)
    (havoids : ¬ Above parent a x) : Above parent' a b := by
  induction h using ReflTransGen.head_induction_on with
  | refl => exact .refl
  | @head a c hac _ ih =>
    have hne : a ≠ x := fun hax => havoids (hax ▸ .refl)
    exact .head ((hsame a hne).trans hac) (ih fun hcx => havoids (.head hac hcx))

theorem Above.reparent (h : Above parent a root) (hsame : ∀ a, a ≠ x → parent' a = parent a)
    (hnew : parent' x = some p) (hp : Above parent p root) (havoids : ¬ Above parent p x) :
    Above parent' a root := by
  induction h using ReflTransGen.head_induction_on with
  | refl => exact .refl
  | @head a c hac _ ih =>
    by_cases hax : a = x
    · subst hax
      exact .head hnew (hp.of_avoids hsame havoids)
    · exact .head ((hsame a hax).trans hac) ih

theorem Above.of_leaf (h : Above parent a root) (hsame : ∀ a, a ≠ x → parent' a = parent a)
    (hleaf : ∀ a, parent a ≠ some x) (hne : a ≠ x) : Above parent' a root := by
  refine h.of_avoids hsame fun hax => ?_
  rcases hax.cases_tail with rfl | ⟨c, -, hc⟩
  · exact hne rfl
  · exact hleaf c hc

end Forests
