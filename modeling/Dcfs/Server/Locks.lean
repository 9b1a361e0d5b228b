import Dcfs.Library.LockMap
import Dcfs.Metadata.Records

namespace Dcfs

open LockMaps

inductive LockTable
  | appState | localLocks
  deriving DecidableEq

namespace LockTable

def prunes : LockTable → ℕ → Bool
  | .appState, size => decide (1024 < size)
  | .localLocks, _ => true

end LockTable

abbrev NodeLocks := State Uuid

namespace NodeLocks

def writeLock (locks : NodeLocks) (nodeId : Uuid) : ℕ × NodeLocks := locks.lockOf LockTable.appState.prunes nodeId

def node (locks : NodeLocks) (id : Uuid) : ℕ × NodeLocks := locks.lockOf LockTable.localLocks.prunes id

end NodeLocks

def LockTable.lockOf : LockTable → NodeLocks → Uuid → ℕ × NodeLocks
  | .appState => NodeLocks.writeLock
  | .localLocks => NodeLocks.node

inductive LockRun (table : LockTable) : NodeLocks → Prop
  | empty : LockRun table ⟨∅, 0, []⟩
  | step {s t : NodeLocks} : LockRun table s → Step table.prunes s t → LockRun table t

variable {table : LockTable} {s : NodeLocks}

theorem LockRun.ok (h : LockRun table s) : Ok s := by
  induction h with
  | empty => exact .empty
  | step _ hstep ih => exact hstep.ok ih

theorem LockTable.lockOf_eq (table : LockTable) (s : NodeLocks) (nodeId : Uuid) :
    table.lockOf s nodeId = State.lockOf table.prunes s nodeId := by
  cases table with
  | appState => rfl
  | localLocks => rfl

theorem node_lock_exclusive (h : LockRun table s) (nodeId : Uuid) :
    s.tasks.countP (fun task => decide (task.key = nodeId) && task.phase == .holding) ≤ 1
      ∧ ∀ task ∈ s.tasks, task.key = nodeId → (table.lockOf s nodeId).1 = task.lock := by
  have hs := h.ok
  have hlock : ∀ task ∈ s.tasks, task.key = nodeId → (table.lockOf s nodeId).1 = task.lock := by
    rintro task htask rfl
    rw [table.lockOf_eq]
    exact hs.lockOf_eq table.prunes htask
  refine ⟨?_, hlock⟩
  calc s.tasks.countP (fun task => decide (task.key = nodeId) && task.phase == .holding)
      ≤ s.holders (table.lockOf s nodeId).1 := by
        refine List.countP_mono_left fun task htask hholds => ?_
        simp only [Bool.and_eq_true, decide_eq_true_eq] at hholds ⊢
        exact ⟨(hlock task htask hholds.1).symm, hholds.2⟩
    _ ≤ 1 := hs.exclusive _

theorem node_lock_handed_on : ∃ s : NodeLocks, LockRun .localLocks s ∧ s.tasks.length = 3
    ∧ s.tasks.countP (fun task => decide (task.key = 7) && task.phase == .holding) ≤ 1
    ∧ ∀ task ∈ s.tasks, task.key = 7 → (LockTable.localLocks.lockOf s 7).1 = task.lock := by
  have hrun : ∃ s : NodeLocks, LockRun .localLocks s ∧ s.tasks.length = 3 := by
    refine ⟨_, .step (.step (.step (.step (.step (.step .empty (.obtain 7)) (.obtain 7))
      (.acquire (i := 0) rfl rfl rfl)) (.release (i := 0) rfl rfl)) (.acquire (i := 1) rfl rfl rfl)) (.obtain 7), rfl⟩
  obtain ⟨s, hrun, hlength⟩ := hrun
  exact ⟨s, hrun, hlength, node_lock_exclusive hrun 7⟩

end Dcfs
