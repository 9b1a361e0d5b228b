import Mathlib.Order.Basic
import Mathlib.Data.Int.Order.Basic

/-!
Optimistic replacement of a current value. Staging a value bumps a generation; a holder of a staged
value may make it current if the generation is still the one of its staging.
-/

namespace Optimistic

variable {V : Type}

inductive Event (V : Type) where
  | staged (v : V)
  | committed (v : V) (expected : Option V)
deriving DecidableEq, Repr

structure Cell (V : Type) where
  generation : ℤ
  current : Option V
  history : List (Event V)

def last (start : Option V) : List (Event V) → Option V
  | [] => start
  | .staged _ :: earlier => last start earlier
  | .committed v _ :: _ => some v

def Chain (start : Option V) : List (Event V) → Prop
  | [] => True
  | .staged _ :: earlier => Chain start earlier
  | .committed v expected :: earlier =>
    expected = last start earlier ∧ earlier.head? = some (.staged v) ∧ Chain start earlier

theorem Chain.committed {start expected : Option V} {v : V} {later earlier : List (Event V)}
    (h : Chain start (later ++ .committed v expected :: earlier)) :
    expected = last start earlier ∧ earlier.head? = some (.staged v) := by
  induction later with
  | nil => exact ⟨h.1, h.2.1⟩
  | cons event later ih =>
    cases event with
    | staged u => exact ih h
    | committed u e => exact ih h.2.2

structure Cell.Ok (start : Option V) (cell : Cell V) : Prop where
  current : cell.current = last start cell.history
  chain : Chain start cell.history

def Cell.stage (cell : Cell V) (v : V) : Cell V :=
  { cell with generation := cell.generation + 1, history := .staged v :: cell.history }

def Cell.commit (cell : Cell V) (v : V) : Cell V :=
  { cell with current := some v, history := .committed v cell.current :: cell.history }

/-- What the holder of a staged value has: the value, and the generation and current value it read. -/
structure Ticket (V : Type) where
  version : V
  read : ℤ
  observed : Option V

structure Ticket.Valid (ticket : Ticket V) (cell : Cell V) : Prop where
  read_lt : ticket.read < cell.generation
  observed : ticket.observed ≠ some ticket.version
  newest : cell.generation = ticket.read + 1 → cell.history.head? = some (.staged ticket.version)
    ∨ ∃ expected, cell.history.head? = some (.committed ticket.version expected)

def Ticket.Admitted (ticket : Ticket V) (cell : Cell V) : Prop :=
  cell.generation = ticket.read + 1 ∧ cell.current = ticket.observed

variable {start : Option V} {cell : Cell V} {ticket other : Ticket V} {v : V}

theorem Cell.Ok.stage (h : cell.Ok start) (v : V) : (cell.stage v).Ok start := ⟨h.current, h.chain⟩

theorem Ticket.valid_stage (hread : ticket.read ≤ cell.generation)
    (hobserved : ticket.observed ≠ some ticket.version) : ticket.Valid (cell.stage ticket.version) :=
  ⟨Int.lt_add_one_of_le hread, hobserved, fun _ => .inl rfl⟩

theorem Ticket.Valid.stage (h : ticket.Valid cell) (v : V) : ticket.Valid (cell.stage v) where
  read_lt := h.read_lt.trans (Int.lt_succ _)
  observed := h.observed
  newest hgeneration := absurd h.read_lt (by simp only [Cell.stage] at hgeneration; omega)

theorem Ticket.Valid.staged_last (h : ticket.Valid cell) (hok : cell.Ok start) (hadmitted : ticket.Admitted cell) :
    cell.history.head? = some (.staged ticket.version) := by
  rcases h.newest hadmitted.1 with hstaged | ⟨expected, hcommitted⟩
  · exact hstaged
  · obtain ⟨earlier, hhistory⟩ := List.head?_eq_some_iff.mp hcommitted
    have hcurrent := hok.current
    rw [hhistory, last, hadmitted.2] at hcurrent
    exact absurd hcurrent h.observed

theorem Cell.Ok.commit (hok : cell.Ok start) (h : ticket.Valid cell) (hadmitted : ticket.Admitted cell) :
    (cell.commit ticket.version).Ok start :=
  ⟨rfl, hok.current, h.staged_last hok hadmitted, hok.chain⟩

theorem Ticket.Valid.commit (hother : other.Valid cell) (h : ticket.Valid cell) (hok : cell.Ok start)
    (hadmitted : ticket.Admitted cell) : other.Valid (cell.commit ticket.version) where
  read_lt := hother.read_lt
  observed := hother.observed
  newest hgeneration := by
    have hlast := h.staged_last hok hadmitted
    have hsame : ticket.version = other.version := by
      rcases hother.newest hgeneration with hstaged | ⟨expected, hcommitted⟩
      · exact Event.staged.inj (Option.some.inj (hlast.symm.trans hstaged))
      · cases hlast.symm.trans hcommitted
    exact .inr ⟨cell.current, by rw [Cell.commit, List.head?_cons, hsame]⟩

end Optimistic
