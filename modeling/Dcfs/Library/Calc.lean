import Dcfs.Library.Machine
import Mathlib.Algebra.BigOperators.Group.List.Basic
import Mathlib.Algebra.Ring.Nat
import Mathlib.Data.List.Basic

/-! Wrapping 64-bit arithmetic that keeps account of its steps, so that each can be asked whether it was exact. -/

namespace Machine

/-- `alloc` is of a vector, `slice` an index range and `copy` the lengths of the two sides. -/
inductive Step
  | add (a b : ℕ) | sub (a b : ℕ) | mul (a b : ℕ)
  | toI64 (n : ℕ) | toI32 (n : ℕ)
  | alloc (count size : ℕ)
  | slice (start stop length : ℕ)
  | copy (target source : ℕ)
  deriving DecidableEq

namespace Step

def Fits : Step → Prop
  | add a b => a + b < 2 ^ 64
  | sub a b => b ≤ a
  | mul a b => a * b < 2 ^ 64
  | toI64 n => n < 2 ^ 63
  | toI32 n => n < 2 ^ 31
  | alloc count size => count * size < 2 ^ 63
  | slice start stop length => start ≤ stop ∧ stop ≤ length
  | copy target source => target = source

instance (s : Step) : Decidable s.Fits :=
  match s with
  | add a b => inferInstanceAs (Decidable (a + b < 2 ^ 64))
  | sub a b => inferInstanceAs (Decidable (b ≤ a))
  | mul a b => inferInstanceAs (Decidable (a * b < 2 ^ 64))
  | toI64 n => inferInstanceAs (Decidable (n < 2 ^ 63))
  | toI32 n => inferInstanceAs (Decidable (n < 2 ^ 31))
  | alloc count size => inferInstanceAs (Decidable (count * size < 2 ^ 63))
  | slice start stop length => inferInstanceAs (Decidable (start ≤ stop ∧ stop ≤ length))
  | copy target source => inferInstanceAs (Decidable (target = source))

def Granted (memory : ℕ → Prop) : Step → Prop
  | alloc count size => memory (count * size)
  | _ => True

instance (memory : ℕ → Prop) [DecidablePred memory] (s : Step) : Decidable (s.Granted memory) := by
  cases s <;> unfold Granted <;> infer_instance

end Step

structure Calc (α : Type) where
  value : α
  steps : List Step

namespace Calc

variable {α β : Type}

instance : Monad Calc where
  pure a := ⟨a, []⟩
  bind x f := ⟨(f x.value).value, x.steps ++ (f x.value).steps⟩

def add (a b : ℕ) : Calc ℕ := ⟨addU64 a b, [.add a b]⟩
def sub (a b : ℕ) : Calc ℕ := ⟨if b ≤ a then a - b else a + 2 ^ 64 - b, [.sub a b]⟩
def mul (a b : ℕ) : Calc ℕ := ⟨mulU64 a b, [.mul a b]⟩
def toI64 (n : ℕ) : Calc ℤ := ⟨asI64 n, [.toI64 n]⟩
def toI32 (n : ℕ) : Calc ℤ := ⟨asI32 n, [.toI32 n]⟩
def alloc (count size : ℕ) : Calc Unit := ⟨(), [.alloc count size]⟩
def slice (start stop length : ℕ) : Calc Unit := ⟨(), [.slice start stop length]⟩
def copy (target source : ℕ) : Calc Unit := ⟨(), [.copy target source]⟩

def forEach (f : α → Calc Unit) : List α → Calc Unit
  | [] => pure ()
  | a :: rest => do
    f a
    forEach f rest

def sumFrom (total : ℕ) : List ℕ → Calc ℕ
  | [] => pure total
  | n :: rest => do
    let total ← add total n
    sumFrom total rest

def Fits (x : Calc α) : Prop := ∀ s ∈ x.steps, s.Fits

def Granted (memory : ℕ → Prop) (x : Calc α) : Prop := ∀ s ∈ x.steps, s.Granted memory

/-- There is memory for every allocation that is not too large to be one. -/
def Suffices (memory : ℕ → Prop) (x : Calc α) : Prop := ∀ s ∈ x.steps, s.Fits → s.Granted memory

instance (memory : ℕ → Prop) [DecidablePred memory] (x : Calc α) : Decidable (x.Suffices memory) :=
  inferInstanceAs (Decidable (∀ s ∈ x.steps, s.Fits → s.Granted memory))

theorem Suffices.granted {memory : ℕ → Prop} {x : Calc α} (h : x.Suffices memory) (hx : x.Fits) : x.Granted memory :=
  fun s hs => h s hs (hx s hs)

variable {a b c : ℕ} {f : ℕ → Calc β} {g : ℤ → Calc β} {h : Unit → Calc β}

theorem pure_fits (a : α) : (pure a : Calc α).Fits := fun _ hs => absurd hs List.not_mem_nil

theorem pure_bind_fits {a : α} {f : α → Calc β} : (pure a >>= f).Fits ↔ (f a).Fits := .rfl

theorem bind_fits {x : Calc α} {f : α → Calc β} : (x >>= f).Fits ↔ x.Fits ∧ (f x.value).Fits := by
  constructor
  · intro hall
    exact ⟨fun s hs => hall s (List.mem_append_left _ hs), fun s hs => hall s (List.mem_append_right _ hs)⟩
  · rintro ⟨hx, hf⟩ s hs
    rcases List.mem_append.mp hs with hs | hs
    · exact hx s hs
    · exact hf s hs

theorem step_fits {s : Step} {value exact : α} {f : α → Calc β} (hvalue : s.Fits → value = exact) :
    ((⟨value, [s]⟩ : Calc α) >>= f).Fits ↔ s.Fits ∧ (f exact).Fits := by
  have hone : (⟨value, [s]⟩ : Calc α).Fits ↔ s.Fits := List.forall_mem_singleton
  rw [bind_fits, hone]
  constructor
  · rintro ⟨hs, hf⟩
    exact ⟨hs, hvalue hs ▸ hf⟩
  · rintro ⟨hs, hf⟩
    exact ⟨hs, (hvalue hs).symm ▸ hf⟩

theorem add_fits : (add a b >>= f).Fits ↔ a + b < 2 ^ 64 ∧ (f (a + b)).Fits :=
  step_fits fun hs => addU64_of_lt hs

theorem sub_fits : (sub a b >>= f).Fits ↔ b ≤ a ∧ (f (a - b)).Fits := step_fits fun hs => if_pos hs

theorem mul_fits : (mul a b >>= f).Fits ↔ a * b < 2 ^ 64 ∧ (f (a * b)).Fits := step_fits fun hs => mulU64_of_lt hs

theorem toI64_fits : (toI64 a >>= g).Fits ↔ a < 2 ^ 63 ∧ (g a).Fits := step_fits fun hs => asI64_of_lt hs

theorem toI32_fits : (toI32 a >>= g).Fits ↔ a < 2 ^ 31 ∧ (g a).Fits := step_fits fun hs => asI32_of_lt hs

theorem alloc_fits : (alloc a b >>= h).Fits ↔ a * b < 2 ^ 63 ∧ (h ()).Fits := step_fits fun _ => rfl

theorem slice_fits : (slice a b c >>= h).Fits ↔ (a ≤ b ∧ b ≤ c) ∧ (h ()).Fits := step_fits fun _ => rfl

theorem copy_fits : (copy a b >>= h).Fits ↔ a = b ∧ (h ()).Fits := step_fits fun _ => rfl

theorem forEach_fits {f : α → Calc Unit} {items : List α} :
    (forEach f items >>= h).Fits ↔ (∀ a ∈ items, (f a).Fits) ∧ (h ()).Fits := by
  have hitems : (forEach f items).Fits ↔ ∀ a ∈ items, (f a).Fits := by
    induction items with
    | nil => simp [forEach, pure_fits]
    | cons a rest ih => rw [forEach, bind_fits, ih, List.forall_mem_cons]
  rw [bind_fits, hitems]

theorem bind_assoc {γ : Type} (x : Calc α) (f : α → Calc β) (g : β → Calc γ) :
    x >>= f >>= g = x >>= fun a => f a >>= g := congrArg (Calc.mk _) (List.append_assoc ..)

theorem sumFrom_fits {items : List ℕ} (ha : a < 2 ^ 64) :
    (sumFrom a items >>= f).Fits ↔ a + items.sum < 2 ^ 64 ∧ (f (a + items.sum)).Fits := by
  induction items generalizing a with
  | nil => exact ⟨fun hf => ⟨ha, hf⟩, fun hf => hf.2⟩
  | cons n rest ih =>
    rw [sumFrom, bind_assoc, add_fits, List.sum_cons, ← Nat.add_assoc]
    constructor
    · rintro ⟨hn, hrest⟩
      exact (ih hn).mp hrest
    · intro hall
      have hn : a + n < 2 ^ 64 := (Nat.le_add_right _ _).trans_lt hall.1
      exact ⟨hn, (ih hn).mpr hall⟩

end Calc

end Machine
