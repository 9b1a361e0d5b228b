import Mathlib.Logic.Function.Iterate

namespace Ranking

variable {S : Type*} (step : S → S) (Inv : S → Prop) (Rest : S → Prop) (rank : S → ℕ) {s : S}

theorem iterate_inv (hinv : ∀ t, Inv t → Inv (step t)) (hs : Inv s) (k : ℕ) : Inv (step^[k] s) := by
  induction k generalizing s with
  | zero => exact hs
  | succ k ih => exact ih (hinv s hs)

theorem rest_of_rank_lt (hinv : ∀ t, Inv t → Inv (step t)) (hrest : ∀ t, Inv t → Rest t → Rest (step t))
    (hrank : ∀ t, Inv t → ¬Rest t → rank (step t) < rank t) (hs : Inv s) {k : ℕ} (hk : rank s < k) :
    Rest (step^[k] s) := by
  induction k generalizing s with
  | zero => exact absurd hk (Nat.not_lt_zero _)
  | succ k ih =>
    by_cases h : Rest s
    · have hboth : ∀ t, Inv t ∧ Rest t → Inv (step t) ∧ Rest (step t) :=
        fun t ht => ⟨hinv t ht.1, hrest t ht.1 ht.2⟩
      exact (iterate_inv step _ hboth ⟨hs, h⟩ (k + 1)).2
    · exact ih (hinv s hs) (Nat.lt_of_lt_of_le (hrank s hs h) (Nat.le_of_lt_succ hk))

end Ranking
