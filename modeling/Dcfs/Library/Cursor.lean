import Mathlib.Data.List.Basic
import Mathlib.Data.List.Count

/-! Reading a list in pieces, by position, while others change it between the pieces. -/

namespace Cursor

variable {α : Type}

structure Piece (α : Type) where
  items : List α
  taken : ℕ

namespace Piece

variable (piece : Piece α) (pos : ℕ)

def got : List α := (piece.items.drop pos).take piece.taken

def next : ℕ := pos + (piece.got pos).length

theorem take_next : piece.items.take (piece.next pos) = piece.items.take pos ++ piece.got pos := by
  rw [next, List.take_add]
  congr 1
  rw [got, List.length_take, ← List.take_eq_take_min]

end Piece

def got : ℕ → List (Piece α) → List α
  | _, [] => []
  | pos, piece :: rest => piece.got pos ++ got (piece.next pos) rest

def Complete : ℕ → List (Piece α) → Prop
  | _, [] => False
  | pos, [piece] => piece.items.length ≤ piece.next pos
  | pos, piece :: later :: rest => Complete (piece.next pos) (later :: rest)

structure Change (α : Type) where
  pos : ℕ
  before : List α
  after : List α

def changes : ℕ → List (Piece α) → List (Change α)
  | _, [] => []
  | _, [_] => []
  | pos, piece :: later :: rest =>
    ⟨piece.next pos, piece.items, later.items⟩ :: changes (piece.next pos) (later :: rest)

theorem mem_changes {c : Change α} {pos : ℕ} {pieces : List (Piece α)} (h : c ∈ changes pos pieces) :
    (∃ p ∈ pieces, p.items = c.before) ∧ ∃ p ∈ pieces, p.items = c.after := by
  induction pieces generalizing pos with
  | nil => cases h
  | cons piece rest ih =>
    cases rest with
    | nil => cases h
    | cons later rest =>
      rcases List.mem_cons.mp h with rfl | h
      · exact ⟨⟨piece, List.mem_cons_self, rfl⟩, later, List.mem_cons_of_mem _ List.mem_cons_self, rfl⟩
      · obtain ⟨⟨p, hp, hbefore⟩, q, hq, hafter⟩ := ih h
        exact ⟨⟨p, List.mem_cons_of_mem _ hp, hbefore⟩, q, List.mem_cons_of_mem _ hq, hafter⟩

namespace Change

variable [DecidableEq α] (c : Change α) (x : α)

def pushes : Bool := x ∈ c.before.take c.pos ∧ x ∉ c.after.take c.pos

def pulls : Bool := x ∉ c.before.take c.pos ∧ x ∈ c.after.take c.pos

/-- What is in the list before and after is ahead of the position before just if it is so after. -/
def Steady : Prop := ∀ x ∈ c.before, x ∈ c.after → (x ∈ c.before.take c.pos ↔ x ∈ c.after.take c.pos)

theorem balance {c : Change α} {x : α} (hb : c.before.count x = 1) (ha : c.after.count x = 1) :
    (c.before.take c.pos).count x + (c.pulls x).toNat = (c.after.take c.pos).count x + (c.pushes x).toNat := by
  have hbefore := (List.take_sublist c.pos c.before).count_le x
  have hafter := (List.take_sublist c.pos c.after).count_le x
  have hb' := List.count_pos_iff (a := x) (l := c.before.take c.pos)
  have ha' := List.count_pos_iff (a := x) (l := c.after.take c.pos)
  by_cases h : x ∈ c.before.take c.pos <;> by_cases h' : x ∈ c.after.take c.pos
  all_goals
    simp only [pulls, pushes, h, h', iff_true, iff_false, not_true_eq_false, not_false_eq_true, and_true, and_false,
      and_self, decide_true, decide_false, Bool.toNat_true, Bool.toNat_false] at hb' ha' ⊢
    omega

end Change

section counting

variable [DecidableEq α] {x : α} {pos : ℕ} {pieces : List (Piece α)}

def pushes (x : α) (pos : ℕ) (pieces : List (Piece α)) : ℕ := (changes pos pieces).countP (·.pushes x)

def pulls (x : α) (pos : ℕ) (pieces : List (Piece α)) : ℕ := (changes pos pieces).countP (·.pulls x)

theorem Piece.count_got (piece : Piece α) (pos : ℕ) :
    (piece.items.take pos).count x + (piece.got pos).count x = (piece.items.take (piece.next pos)).count x := by
  rw [piece.take_next, List.count_append]

theorem count_got {piece : Piece α} (hx : ∀ p ∈ piece :: pieces, p.items.count x = 1)
    (h : Complete pos (piece :: pieces)) :
    (piece.items.take pos).count x + (got pos (piece :: pieces)).count x + pulls x pos (piece :: pieces)
      = 1 + pushes x pos (piece :: pieces) := by
  induction pieces generalizing pos piece with
  | nil =>
    have hall : piece.items.take (piece.next pos) = piece.items := List.take_of_length_le h
    have hpiece := piece.count_got (x := x) pos
    rw [hall, hx piece List.mem_cons_self] at hpiece
    simpa [got, pushes, pulls, changes] using hpiece
  | cons later rest ih =>
    have hlater := ih (fun p hp => hx p (List.mem_cons_of_mem _ hp)) h
    have hpiece := piece.count_got (x := x) pos
    have hchange := Change.balance (c := ⟨piece.next pos, piece.items, later.items⟩) (hx piece List.mem_cons_self)
      (hx later (List.mem_cons_of_mem _ List.mem_cons_self))
    simp only [pushes, pulls] at hlater ⊢
    rw [got, changes, List.count_append, List.countP_cons, List.countP_cons]
    cases hpush : Change.pushes ⟨piece.next pos, piece.items, later.items⟩ x <;>
      cases hpull : Change.pulls ⟨piece.next pos, piece.items, later.items⟩ x <;>
      simp only [hpush, hpull, Bool.toNat_true, Bool.toNat_false, if_true, Bool.false_eq_true,
        if_false] at hchange ⊢ <;> omega

theorem got_once_iff (hx : ∀ p ∈ pieces, p.items.count x = 1) (h : Complete 0 pieces) :
    (got 0 pieces).count x = 1 ↔ pushes x 0 pieces = pulls x 0 pieces := by
  cases pieces with
  | nil => exact h.elim
  | cons piece rest =>
    have hcount := count_got hx h
    rw [List.take_zero, List.count_nil] at hcount
    omega

theorem got_once (hx : ∀ p ∈ pieces, p.items.count x = 1) (h : Complete 0 pieces)
    (hsteady : ∀ c ∈ changes 0 pieces, c.Steady) : (got 0 pieces).count x = 1 := by
  have hcross : ∀ c ∈ changes 0 pieces, (x ∈ c.before.take c.pos ↔ x ∈ c.after.take c.pos) := by
    intro c hc
    obtain ⟨⟨p, hp, hbefore⟩, q, hq, hafter⟩ := mem_changes hc
    apply hsteady c hc
    · exact List.count_pos_iff.mp (by rw [← hbefore, hx p hp]; exact Nat.one_pos)
    · exact List.count_pos_iff.mp (by rw [← hafter, hx q hq]; exact Nat.one_pos)
  have hpush : pushes x 0 pieces = 0 := List.countP_eq_zero.mpr fun c hc => by simp [Change.pushes, hcross c hc]
  have hpull : pulls x 0 pieces = 0 := List.countP_eq_zero.mpr fun c hc => by simp [Change.pulls, hcross c hc]
  exact (got_once_iff hx h).mpr (hpush.trans hpull.symm)

end counting

end Cursor
