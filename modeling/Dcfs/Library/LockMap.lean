import Dcfs.Library.Table
import Mathlib.Data.List.Count
import Mathlib.Tactic.SplitIfs

/-!
A map of locks by key, made on demand and shared by counted references. A lock that only the map
refers to may be dropped; one that a task refers to, whether it holds it or waits for it, may not.
-/

namespace LockMaps

open Tables

variable {κ : Type} [DecidableEq κ]

inductive Phase
  | waiting | holding | released
  deriving DecidableEq

structure Task (κ : Type) where
  key : κ
  lock : ℕ
  phase : Phase

structure State (κ : Type) [DecidableEq κ] where
  locks : Table κ ℕ
  next : ℕ
  tasks : List (Task κ)

namespace State

def strongCount (s : State κ) (lock : ℕ) : ℕ :=
  (values s.locks).count lock + (s.tasks.map Task.lock).count lock

def retain (s : State κ) : State κ :=
  { s with locks := keep (fun _ lock => decide (1 < s.strongCount lock)) s.locks }

def entry (s : State κ) (key : κ) : ℕ × State κ :=
  match s.locks.lookup key with
  | some lock => (lock, s)
  | none => (s.next, { s with locks := s.locks.insert key s.next, next := s.next + 1 })

def lockOf (prunes : ℕ → Bool) (s : State κ) (key : κ) : ℕ × State κ :=
  (if prunes s.locks.entries.length then s.retain else s).entry key

def holders (s : State κ) (lock : ℕ) : ℕ :=
  s.tasks.countP (fun task => decide (task.lock = lock) && task.phase == .holding)

def setPhase (s : State κ) (i : ℕ) (task : Task κ) (phase : Phase) : State κ :=
  { s with tasks := s.tasks.set i { task with phase := phase } }

end State

inductive Step (prunes : ℕ → Bool) (s : State κ) : State κ → Prop
  | obtain (key : κ) : Step prunes s { (s.lockOf prunes key).2 with
      tasks := ⟨key, (s.lockOf prunes key).1, .waiting⟩ :: (s.lockOf prunes key).2.tasks }
  | acquire {i : ℕ} {task : Task κ} : s.tasks[i]? = some task → task.phase = .waiting → s.holders task.lock = 0 →
      Step prunes s (s.setPhase i task .holding)
  | release {i : ℕ} {task : Task κ} : s.tasks[i]? = some task → task.phase = .holding →
      Step prunes s (s.setPhase i task .released)
  | drop (i : ℕ) : Step prunes s { s with tasks := s.tasks.eraseIdx i }

/-- Whoever refers to the lock of a key refers to the lock that the map has for it, and one task holds it. -/
structure Ok (s : State κ) : Prop where
  mapped : ∀ task ∈ s.tasks, s.locks.lookup task.key = some task.lock
  injective : ∀ {k k' lock}, s.locks.lookup k = some lock → s.locks.lookup k' = some lock → k = k'
  below : ∀ {k lock}, s.locks.lookup k = some lock → lock < s.next
  exclusive : ∀ lock, s.holders lock ≤ 1

variable {s t : State κ} {prunes : ℕ → Bool}

theorem Ok.empty : Ok (⟨∅, 0, []⟩ : State κ) :=
  ⟨fun _ h => absurd h List.not_mem_nil, nofun, nofun, fun _ => Nat.zero_le 1⟩

theorem lookup_retain {k : κ} {lock : ℕ} : s.retain.locks.lookup k = some lock ↔
    s.locks.lookup k = some lock ∧ 1 < s.strongCount lock := by
  rw [State.retain, lookup_keep, Option.filter_eq_some_iff, decide_eq_true_iff]

theorem one_lt_strongCount (h : Ok s) {task : Task κ} (htask : task ∈ s.tasks) : 1 < s.strongCount task.lock := by
  have hmap : 0 < (values s.locks).count task.lock :=
    List.count_pos_iff.mpr (mem_values.mpr ⟨task.key, h.mapped task htask⟩)
  have htasks : 0 < (s.tasks.map Task.lock).count task.lock :=
    List.count_pos_iff.mpr (List.mem_map_of_mem htask)
  rw [State.strongCount]
  omega

theorem Ok.retain (h : Ok s) : Ok s.retain where
  mapped task htask := lookup_retain.mpr ⟨h.mapped task htask, one_lt_strongCount h htask⟩
  injective hk hk' := h.injective (lookup_retain.mp hk).1 (lookup_retain.mp hk').1
  below hk := h.below (lookup_retain.mp hk).1
  exclusive := h.exclusive

theorem Ok.entry (h : Ok s) (key : κ) : Ok (s.entry key).2
    ∧ (s.entry key).2.locks.lookup key = some (s.entry key).1 ∧ (s.entry key).2.tasks = s.tasks
    ∧ ∀ {k lock}, s.locks.lookup k = some lock → (s.entry key).2.locks.lookup k = some lock := by
  unfold State.entry
  cases hlock : s.locks.lookup key with
  | some lock => exact ⟨h, hlock, rfl, fun hk => hk⟩
  | none =>
    have hkept : ∀ {k lock}, s.locks.lookup k = some lock → (s.locks.insert key s.next).lookup k = some lock := by
      intro k lock hk
      rw [lookup_insert, if_neg]
      · exact hk
      · rintro rfl
        cases hlock.symm.trans hk
    have hcases : ∀ {k lock}, (s.locks.insert key s.next).lookup k = some lock →
        (k = key ∧ lock = s.next) ∨ (s.locks.lookup k = some lock ∧ lock < s.next) := by
      intro k lock hk
      rw [lookup_insert] at hk
      split_ifs at hk with heq
      · exact .inl ⟨heq, (Option.some.inj hk).symm⟩
      · exact .inr ⟨hk, h.below hk⟩
    refine ⟨⟨fun task htask => hkept (h.mapped task htask), fun hk hk' => ?_, fun hk => ?_, h.exclusive⟩,
      ?_, rfl, hkept⟩
    · rcases hcases hk with ⟨rfl, rfl⟩ | ⟨hk, hlt⟩ <;> rcases hcases hk' with ⟨rfl, heq⟩ | ⟨hk', hlt'⟩
      · rfl
      · exact absurd hlt' (lt_irrefl _)
      · exact absurd hlt (heq ▸ lt_irrefl _)
      · exact h.injective hk hk'
    · rcases hcases hk with ⟨-, rfl⟩ | ⟨-, hlt⟩
      · exact Nat.lt_succ_self _
      · exact Nat.lt_succ_of_lt hlt
    · dsimp only
      rw [lookup_insert, if_pos rfl]

theorem Ok.lockOf_eq (h : Ok s) (prunes : ℕ → Bool) {task : Task κ} (htask : task ∈ s.tasks) :
    (s.lockOf prunes task.key).1 = task.lock := by
  have hentry : ∀ {u : State κ}, u.locks.lookup task.key = some task.lock → (u.entry task.key).1 = task.lock := by
    intro u hu
    rw [State.entry, hu]
  unfold State.lockOf
  split_ifs
  · exact hentry (h.retain.mapped task htask)
  · exact hentry (h.mapped task htask)

theorem Ok.lockOf (h : Ok s) (prunes : ℕ → Bool) (key : κ) : Ok (s.lockOf prunes key).2
    ∧ (s.lockOf prunes key).2.locks.lookup key = some (s.lockOf prunes key).1
    ∧ (s.lockOf prunes key).2.tasks = s.tasks := by
  unfold State.lockOf
  split_ifs
  · obtain ⟨hok, hlookup, htasks, -⟩ := h.retain.entry key
    exact ⟨hok, hlookup, htasks⟩
  · obtain ⟨hok, hlookup, htasks, -⟩ := h.entry key
    exact ⟨hok, hlookup, htasks⟩

theorem Ok.setPhase (h : Ok s) {i : ℕ} {task : Task κ} (htask : s.tasks[i]? = some task) {phase : Phase}
    (hfree : phase = .holding → s.holders task.lock = 0) : Ok (s.setPhase i task phase) := by
  refine ⟨fun other hother => ?_, h.injective, h.below, fun lock => ?_⟩
  · rcases List.mem_or_eq_of_mem_set hother with hold | rfl
    · exact h.mapped other hold
    · exact h.mapped task (List.mem_of_getElem? htask)
  · obtain ⟨hi, hget⟩ := List.getElem?_eq_some_iff.mp htask
    have hone := h.exclusive lock
    have hset : (s.setPhase i task phase).holders lock ≤
        s.holders lock + if (decide (task.lock = lock) && phase == .holding) = true then 1 else 0 := by
      rw [State.holders, State.setPhase, List.countP_set hi, State.holders]
      dsimp only
      omega
    by_cases hnew : (decide (task.lock = lock) && phase == .holding) = true
    · obtain ⟨rfl, rfl⟩ : task.lock = lock ∧ phase = .holding := by simpa using hnew
      rw [if_pos hnew, hfree rfl] at hset
      exact hset
    · rw [if_neg hnew] at hset
      omega

theorem Step.ok (h : Step prunes s t) (hs : Ok s) : Ok t := by
  cases h with
  | obtain key =>
    obtain ⟨hok, hlookup, htasks⟩ := hs.lockOf prunes key
    refine ⟨fun task htask => ?_, hok.injective, hok.below, fun lock => ?_⟩
    · rcases List.mem_cons.mp htask with rfl | hold
      · exact hlookup
      · exact hok.mapped task hold
    · have hone := hok.exclusive lock
      simpa [State.holders, List.countP_cons] using hone
  | acquire htask _ hfree => exact hs.setPhase htask fun _ => hfree
  | release htask _ => exact hs.setPhase htask nofun
  | drop i =>
    have hsub := List.eraseIdx_sublist s.tasks i
    exact ⟨fun task htask => hs.mapped task (hsub.subset htask), hs.injective, hs.below,
      fun lock => Nat.le_trans hsub.countP_le (hs.exclusive lock)⟩

end LockMaps
