import Dcfs.Library.Triple
import Mathlib.Data.Nat.Notation
import Mathlib.Tactic.SplitIfs
import Mathlib.Tactic.Tauto

/-!
Programs interleaved call by call over one state. Each keeps notes of what it has been answered;
a promise about its calls that depends on the notes alone cannot be broken by the others.
-/

namespace Effects

structure Thread (I : Interface) (γ : Type) where
  call : I.Call
  next : I.Reply call → Program I Unit
  notes : γ

structure Pool (I : Interface) (σ γ : Type) where
  state : σ
  threads : List (Thread I γ)

/-- How calls are answered, when a call is taken, and what is noted of an answer. -/
structure Service (I : Interface) (σ γ : Type) where
  handle : (c : I.Call) → σ → I.Reply c × σ
  ready : I.Call → σ → Bool
  note : (c : I.Call) → I.Reply c → γ → γ

variable {I : Interface} {σ γ : Type}

def Thread.of : Program I Unit → γ → List (Thread I γ)
  | .done _, _ => []
  | .call c next, notes => [⟨c, next, notes⟩]

def promise (note : (c : I.Call) → I.Reply c → γ → γ) (admits : I.Call → γ → Prop) : Rules I γ where
  admits := admits
  outcome c notes r noted := noted = note c r notes

def Thread.Keeps (note : (c : I.Call) → I.Reply c → γ → γ) (admits : I.Call → γ → Prop)
    (thread : Thread I γ) : Prop :=
  (Program.call thread.call thread.next).Meets (promise note admits) (fun _ _ => True) thread.notes

theorem Thread.keeps_of {note : (c : I.Call) → I.Reply c → γ → γ} {admits : I.Call → γ → Prop}
    {program : Program I Unit} {notes : γ}
    (h : program.Meets (promise note admits) (fun _ _ => True) notes) {thread : Thread I γ}
    (hmem : thread ∈ Thread.of program notes) : thread.notes = notes ∧ thread.Keeps note admits := by
  cases program with
  | done a => cases hmem
  | call c next =>
    cases List.mem_singleton.mp hmem
    exact ⟨rfl, h⟩

namespace Pool

def spawn (p : Pool I σ γ) (program : Program I Unit) (notes : γ) : Pool I σ γ :=
  { p with threads := p.threads ++ Thread.of program notes }

def advance (S : Service I σ γ) (p : Pool I σ γ) (i : ℕ) : Option (Pool I σ γ) :=
  match p.threads[i]? with
  | none => none
  | some thread =>
    if S.ready thread.call p.state then
      let answered := S.handle thread.call p.state
      some
        { state := answered.2
          threads := p.threads.take i
            ++ Thread.of (thread.next answered.1) (S.note thread.call answered.1 thread.notes)
            ++ p.threads.drop (i + 1) }
    else none

variable {S : Service I σ γ} {p q : Pool I σ γ} {i : ℕ}

theorem advance_cases (h : p.advance S i = some q) : ∃ thread, p.threads[i]? = some thread
    ∧ S.ready thread.call p.state = true ∧ q.state = (S.handle thread.call p.state).2
    ∧ ∀ other ∈ q.threads, other ∈ p.threads.eraseIdx i
      ∨ other ∈ Thread.of (thread.next (S.handle thread.call p.state).1)
        (S.note thread.call (S.handle thread.call p.state).1 thread.notes) := by
  unfold advance at h
  cases hthread : p.threads[i]? with
  | none =>
    rw [hthread] at h
    cases h
  | some thread =>
    rw [hthread] at h
    dsimp only at h
    split_ifs at h with hready
    cases h
    refine ⟨thread, rfl, hready, rfl, fun other hother => ?_⟩
    simp only [List.mem_append] at hother
    rw [List.eraseIdx_eq_take_drop_succ, List.mem_append]
    tauto

def schedule (S : Service I σ γ) (check : Pool I σ γ → ℕ → Bool) : List ℕ → Pool I σ γ → Option (Pool I σ γ)
  | [], p => some p
  | i :: rest, p => if check p i then (p.advance S i).bind (schedule S check rest) else none

theorem schedule_induction {check : Pool I σ γ → ℕ → Bool} {P : Pool I σ γ → Prop}
    (hstep : ∀ p q i, P p → check p i = true → p.advance S i = some q → P q) {turns : List ℕ} (hp : P p)
    (hq : p.schedule S check turns = some q) : P q := by
  induction turns generalizing p with
  | nil =>
    cases hq
    exact hp
  | cons i rest ih =>
    rw [schedule] at hq
    split_ifs at hq with hcheck
    obtain ⟨mid, hmid, hrest⟩ := Option.bind_eq_some_iff.mp hq
    exact ih (hstep p mid i hp hcheck hmid) hrest

structure Holds (note : (c : I.Call) → I.Reply c → γ → γ) (admits : I.Call → γ → Prop) (K : σ → Prop)
    (L : γ → σ → Prop) (p : Pool I σ γ) : Prop where
  state : K p.state
  notes : ∀ thread ∈ p.threads, L thread.notes p.state
  promise : ∀ thread ∈ p.threads, thread.Keeps note admits

variable {admits : I.Call → γ → Prop} {K : σ → Prop} {L : γ → σ → Prop}

theorem Holds.spawn {note : (c : I.Call) → I.Reply c → γ → γ} (h : p.Holds note admits K L)
    {program : Program I Unit} {notes : γ} (hnotes : L notes p.state)
    (hmeets : program.Meets (Effects.promise note admits) (fun _ _ => True) notes) :
    (p.spawn program notes).Holds note admits K L where
  state := h.state
  notes thread hmem := by
    rcases List.mem_append.mp hmem with hold | hnew
    · exact h.notes thread hold
    · rw [(Thread.keeps_of hmeets hnew).1]
      exact hnotes
  promise thread hmem := by
    rcases List.mem_append.mp hmem with hold | hnew
    · exact h.promise thread hold
    · exact (Thread.keeps_of hmeets hnew).2

theorem Holds.advance (h : p.Holds S.note admits K L) (hq : p.advance S i = some q)
    (hstep : ∀ thread, p.threads[i]? = some thread → admits thread.call thread.notes →
      L thread.notes p.state → S.ready thread.call p.state = true →
      K (S.handle thread.call p.state).2
        ∧ L (S.note thread.call (S.handle thread.call p.state).1 thread.notes) (S.handle thread.call p.state).2
        ∧ ∀ other ∈ p.threads.eraseIdx i, L other.notes p.state →
          L other.notes (S.handle thread.call p.state).2) : q.Holds S.note admits K L := by
  obtain ⟨thread, hthread, hready, hstate, hthreads⟩ := advance_cases hq
  have hmem := List.mem_of_getElem? hthread
  have hkeeps := h.promise thread hmem
  obtain ⟨hK, hown, hothers⟩ := hstep thread hthread hkeeps.1 (h.notes thread hmem) hready
  refine ⟨hstate ▸ hK, fun other hother => ?_, fun other hother => ?_⟩
  · rw [hstate]
    rcases hthreads other hother with hold | hnew
    · exact hothers other hold (h.notes other (List.mem_of_mem_eraseIdx hold))
    · rw [(Thread.keeps_of (hkeeps.2 _ _ rfl) hnew).1]
      exact hown
  · rcases hthreads other hother with hold | hnew
    · exact h.promise other (List.mem_of_mem_eraseIdx hold)
    · exact (Thread.keeps_of (hkeeps.2 _ _ rfl) hnew).2

end Pool

end Effects
