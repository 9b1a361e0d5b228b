import Mathlib.Algebra.Ring.Int.Defs
import Mathlib.Algebra.Ring.Nat
import Mathlib.Data.Int.Cast.Basic
import Mathlib.Data.Nat.Init
import Mathlib.Tactic

namespace Machine

def asI64 (n : ℤ) : ℤ := n.bmod (2 ^ 64)

def asI32 (n : ℤ) : ℤ := n.bmod (2 ^ 32)

def asU32 (z : ℤ) : ℕ := (z % 2 ^ 32).toNat

def asU64 (z : ℤ) : ℕ := (z % 2 ^ 64).toNat

def addU64 (a b : ℕ) : ℕ := (a + b) % 2 ^ 64

def mulU64 (a b : ℕ) : ℕ := (a * b) % 2 ^ 64

theorem asI64_of_lt {n : ℕ} (h : n < 2 ^ 63) : asI64 n = n := by
  apply Int.bmod_eq_of_le <;> omega

theorem asI32_of_lt {n : ℕ} (h : n < 2 ^ 31) : asI32 n = n := by
  apply Int.bmod_eq_of_le <;> omega

theorem asU64_of_lt {n : ℕ} (h : n < 2 ^ 64) : asU64 n = n := by
  simp only [asU64]
  omega

theorem addU64_of_lt {a b : ℕ} (h : a + b < 2 ^ 64) : addU64 a b = a + b := Nat.mod_eq_of_lt h

theorem mulU64_of_lt {a b : ℕ} (h : a * b < 2 ^ 64) : mulU64 a b = a * b := Nat.mod_eq_of_lt h

def checkedMul (a b : UInt64) : Option UInt64 := if a.toNat * b.toNat < 2 ^ 64 then some (a * b) else none

def checkedSub (a b : UInt64) : Option UInt64 := if b ≤ a then some (a - b) else none

def divCeil (a b : UInt64) : UInt64 := if 0 < a % b then a / b + 1 else a / b

theorem checkedMul_of_lt {a b : UInt64} (h : a.toNat * b.toNat < 2 ^ 64) :
    ∃ c, checkedMul a b = some c ∧ c.toNat = a.toNat * b.toNat := by
  refine ⟨a * b, if_pos h, ?_⟩
  rw [UInt64.toNat_mul, Nat.mod_eq_of_lt h]

theorem checkedSub_of_le {a b : UInt64} (h : b.toNat ≤ a.toNat) :
    ∃ c, checkedSub a b = some c ∧ c.toNat = a.toNat - b.toNat := by
  have hle := UInt64.le_iff_toNat_le.mpr h
  exact ⟨a - b, if_pos hle, UInt64.toNat_sub_of_le a b hle⟩

theorem toNat_divCeil (a : UInt64) {b : UInt64} (hb : 0 < b) :
    (divCeil a b).toNat = if 0 < a.toNat % b.toNat then a.toNat / b.toNat + 1 else a.toNat / b.toNat := by
  have hpos : 0 < b.toNat := UInt64.lt_iff_toNat_lt.mp hb
  have hlt := a.toNat_lt
  simp only [divCeil, UInt64.lt_iff_toNat_lt, UInt64.toNat_mod]
  change (if 0 < a.toNat % b.toNat then a / b + 1 else a / b).toNat = _
  split_ifs with hrest
  · -- A remainder needs a divisor above one, so that the quotient is not the largest value.
    have hmod := Nat.mod_lt a.toNat hpos
    have hquotient : a.toNat / b.toNat ≤ a.toNat / 2 := Nat.div_le_div_left (by omega) (by omega)
    rw [UInt64.toNat_add, UInt64.toNat_div]
    apply Nat.mod_eq_of_lt
    change a.toNat / b.toNat + 1 < 2 ^ 64
    omega
  · exact UInt64.toNat_div a b

theorem lt_divCeil_iff {a b : UInt64} (hb : 0 < b) (i : ℕ) : i < (divCeil a b).toNat ↔ i * b.toNat < a.toNat := by
  have hpos : 0 < b.toNat := UInt64.lt_iff_toNat_lt.mp hb
  have hdiv := Nat.div_add_mod a.toNat b.toNat
  have hmod := Nat.mod_lt a.toNat hpos
  rw [toNat_divCeil a hb]
  split_ifs with hrest
  · rw [Nat.lt_succ_iff, Nat.le_div_iff_mul_le hpos]
    constructor
    · intro hle
      have hne : i * b.toNat ≠ a.toNat := by
        intro heq
        rw [← heq, Nat.mul_mod_left] at hrest
        exact absurd hrest (lt_irrefl 0)
      omega
    · exact Nat.le_of_lt
  · have hexact : a.toNat / b.toNat * b.toNat = a.toNat := Nat.div_mul_cancel (Nat.dvd_of_mod_eq_zero (by omega))
    constructor
    · intro hlt
      rw [← hexact]
      exact Nat.mul_lt_mul_of_pos_right hlt hpos
    · intro hlt
      rw [← hexact] at hlt
      exact Nat.lt_of_mul_lt_mul_right hlt

end Machine
