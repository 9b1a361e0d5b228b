import Mathlib.Data.Finset.Max
import Mathlib.Logic.Relation

/-! Calls that take and release readers-writer locks one after the other, and when none of them can wait for ever. -/

namespace RwLocks

inductive Mode
  | read | write
  deriving DecidableEq

inductive Act (ι : Type)
  | acquire (lock : ι) (mode : Mode)
  | release (lock : ι)

structure Call (ι κ : Type) where
  name : κ
  held : List (ι × Mode)
  rest : List (Act ι)

variable {ι κ : Type}

def Mode.shares : Mode → Mode → Bool
  | .read, .read => true
  | _, _ => false

def Call.wanted (call : Call ι κ) : Option (ι × Mode) :=
  match call.rest with
  | .acquire lock mode :: _ => some (lock, mode)
  | _ => none

def Call.took (call : Call ι κ) (lock : ι) (mode : Mode) (rest : List (Act ι)) : Call ι κ :=
  { call with held := (lock, mode) :: call.held, rest := rest }

def Call.gaveBack [DecidableEq ι] (call : Call ι κ) (lock : ι) (rest : List (Act ι)) : Call ι κ :=
  { call with held := call.held.filter (fun h => h.1 ≠ lock), rest := rest }

def Free (calls : List (Call ι κ)) (lock : ι) (mode : Mode) : Prop :=
  ∀ call ∈ calls, ∀ h ∈ call.held, h.1 = lock → mode.shares h.2 = true

instance [DecidableEq ι] (calls : List (Call ι κ)) (lock : ι) (mode : Mode) : Decidable (Free calls lock mode) :=
  inferInstanceAs (Decidable (∀ call ∈ calls, ∀ h ∈ call.held, h.1 = lock → mode.shares h.2 = true))

/--
One thing happens. A call is started, if it may be in these circumstances, and follows one of the
courses of its name; or a call takes a lock that is free for it, or releases one.
-/
inductive Step [DecidableEq ι] (courses : κ → List (List (Act ι))) (may : List (Call ι κ) → κ → Prop)
    (calls : List (Call ι κ)) : List (Call ι κ) → Prop
  | start {name : κ} {course : List (Act ι)} : may calls name → course ∈ courses name →
      Step courses may calls (calls ++ [⟨name, [], course⟩])
  | acquire {i : ℕ} {call : Call ι κ} {lock : ι} {mode : Mode} {rest : List (Act ι)} : calls[i]? = some call →
      call.rest = .acquire lock mode :: rest → Free calls lock mode →
      Step courses may calls (calls.set i (call.took lock mode rest))
  | release {i : ℕ} {call : Call ι κ} {lock : ι} {rest : List (Act ι)} : calls[i]? = some call →
      call.rest = .release lock :: rest → Step courses may calls (calls.set i (call.gaveBack lock rest))

/--
Call `i` waits for a lock that call `j` has. A reader waits for a writer, and behind one: where a writer
waits, it is not let in beside the readers there are.
-/
def Waits (calls : List (Call ι κ)) (i j : ℕ) : Prop :=
  ∃ call other lock mode mode', calls[i]? = some call ∧ calls[j]? = some other ∧ call.wanted = some (lock, mode)
    ∧ (lock, mode') ∈ other.held ∧ (mode.shares mode' = false ∨ ∃ writer ∈ calls, writer.wanted = some (lock, .write))

def Deadlocked (calls : List (Call ι κ)) : Prop :=
  ∃ waiting : Finset ℕ, waiting.Nonempty ∧ ∀ i ∈ waiting, ∃ j ∈ waiting, j ≠ i ∧ Waits calls i j

def climbs [DecidableEq ι] (rank : ι → ℕ) : List (ι × Mode) → List (Act ι) → Bool
  | _, [] => true
  | held, .acquire lock mode :: rest =>
    held.all (fun h => decide (rank h.1 < rank lock)) && climbs rank ((lock, mode) :: held) rest
  | held, .release lock :: rest => climbs rank (held.filter fun h => h.1 ≠ lock) rest

section

variable {calls : List (Call ι κ)} {rank : ι → ℕ}

theorem Call.rest_of_wanted {call : Call ι κ} {lock : ι} {mode : Mode} (h : call.wanted = some (lock, mode)) :
    ∃ rest, call.rest = .acquire lock mode :: rest := by
  unfold Call.wanted at h
  split at h
  · rename_i lock' mode' rest hrest
    cases h
    exact ⟨rest, hrest⟩
  · cases h

variable [DecidableEq ι]

theorem rank_lt_of_climbs {call : Call ι κ} {lock : ι} {mode : Mode} (h : climbs rank call.held call.rest = true)
    (hwanted : call.wanted = some (lock, mode)) {held : ι × Mode} (hheld : held ∈ call.held) :
    rank held.1 < rank lock := by
  obtain ⟨rest, hrest⟩ := Call.rest_of_wanted hwanted
  rw [hrest, climbs, Bool.and_eq_true] at h
  exact of_decide_eq_true (List.all_eq_true.mp h.1 held hheld)

def wantedRank (rank : ι → ℕ) (calls : List (Call ι κ)) (i : ℕ) : ℕ :=
  (((calls[i]?).bind Call.wanted).map fun w => rank w.1).getD 0

theorem not_deadlocked_of_climbs (rank : ι → ℕ)
    (h : ∀ call ∈ calls, call.rest ≠ [] → climbs rank call.held call.rest = true) : ¬Deadlocked calls := by
  rintro ⟨waiting, hne, hwaits⟩
  obtain ⟨i, hi, hmax⟩ := Finset.exists_max_image waiting (wantedRank rank calls) hne
  obtain ⟨j, hj, -, call, other, lock, mode, mode', hcall, hother, hwanted, hheld, -⟩ := hwaits i hi
  obtain ⟨-, -, -, call', -, lock', mode'', -, hcall', -, hwanted', -, -⟩ := hwaits j hj
  rw [hother] at hcall'
  cases hcall'
  have hrest : other.rest ≠ [] := by
    obtain ⟨rest, hrest⟩ := Call.rest_of_wanted hwanted'
    rw [hrest]
    exact List.cons_ne_nil _ _
  have hlt : rank lock < rank lock' :=
    rank_lt_of_climbs (h other (List.mem_of_getElem? hother) hrest) hwanted' hheld
  have hle := hmax j hj
  simp only [wantedRank, hcall, hother, Option.bind_some, hwanted, hwanted', Option.map_some, Option.getD_some] at hle
  omega

theorem Step.forall {P : Call ι κ → Prop} {courses : κ → List (List (Act ι))} {may : List (Call ι κ) → κ → Prop}
    {calls' : List (Call ι κ)} (hstep : Step courses may calls calls')
    (hstart : ∀ name course, may calls name → course ∈ courses name → P ⟨name, [], course⟩)
    (hacquire : ∀ call lock mode rest, call.rest = .acquire lock mode :: rest → P call → P (call.took lock mode rest))
    (hrelease : ∀ call lock rest, call.rest = .release lock :: rest → P call → P (call.gaveBack lock rest))
    (h : ∀ call ∈ calls, P call) : ∀ call ∈ calls', P call := by
  intro call hmem
  cases hstep with
  | @start name course hmay hcourse =>
    rcases List.mem_append.mp hmem with hmem | hmem
    · exact h call hmem
    · rw [List.mem_singleton.mp hmem]
      exact hstart name course hmay hcourse
  | @acquire i before lock mode rest hi hrest hfree =>
    rcases List.mem_or_eq_of_mem_set hmem with hmem | rfl
    · exact h call hmem
    · exact hacquire before lock mode rest hrest (h before (List.mem_of_getElem? hi))
  | @release i before lock rest hi hrest =>
    rcases List.mem_or_eq_of_mem_set hmem with hmem | rfl
    · exact h call hmem
    · exact hrelease before lock rest hrest (h before (List.mem_of_getElem? hi))

theorem climbs_took {call : Call ι κ} {lock : ι} {mode : Mode} {rest : List (Act ι)}
    (hrest : call.rest = .acquire lock mode :: rest) (h : climbs rank call.held call.rest = true) :
    climbs rank (call.took lock mode rest).held (call.took lock mode rest).rest = true := by
  rw [hrest, climbs, Bool.and_eq_true] at h
  exact h.2

theorem climbs_gaveBack {call : Call ι κ} {lock : ι} {rest : List (Act ι)} (hrest : call.rest = .release lock :: rest)
    (h : climbs rank call.held call.rest = true) :
    climbs rank (call.gaveBack lock rest).held (call.gaveBack lock rest).rest = true := by
  rw [hrest, climbs] at h
  exact h

end

end RwLocks
