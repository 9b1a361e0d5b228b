import Dcfs.Fuse.BlockCache
import Dcfs.Fuse.Fs
import Dcfs.Library.Steps
import Mathlib.Data.List.Perm.Subperm

/-! Reads through one block cache side by side, each lock section and each file operation a step of its own. -/

namespace Dcfs.Fuse

open Tables

namespace BlockCache

def removedFile (cache : BlockCache) (key : Key) : BlockCache := { cache with files := cache.files.erase key }

end BlockCache

namespace Interleaved

/--
Where a read is. It loads its blocks one by one: under the lock it looks the block up, then reads the file, and if
that is not there takes the block out of the accounts. It stores what it has fetched: it has written a temporary
file, has renamed it, has the accounts in order, and removes the files of the victims.
-/
inductive Phase
  | loading (keys misses : List Key)
  | reading (key : Key) (keys misses : List Key)
  | dropping (key : Key) (keys misses : List Key)
  | storing (fetched : List (Key × Bytes))
  | written (key : Key) (data : Bytes) (fetched : List (Key × Bytes))
  | recording (key : Key) (data : Bytes) (fetched : List (Key × Bytes))
  | unlinking (victims : List Key) (fetched : List (Key × Bytes))
  | finished
  deriving DecidableEq

def advance (cache : BlockCache) : Phase → Option (BlockCache × Phase)
  | .loading [] _ => none
  | .loading (key :: keys) misses =>
    match cache.blocks.lookup key with
    | some (size, _) => some (cache.used key size, .reading key keys misses)
    | none => some (cache, .loading keys (misses ++ [key]))
  | .reading key keys misses =>
    match cache.files.lookup key with
    | some (_ :: _) => some (cache, .loading keys misses)
    | _ => some (cache, .dropping key keys misses)
  | .dropping key keys misses => some (cache.forget key, .loading keys (misses ++ [key]))
  | .storing [] => some (cache, .finished)
  | .storing ((key, data) :: fetched) =>
    if data.isEmpty then some (cache, .storing fetched) else some (cache, .written key data fetched)
  | .written key data fetched => some (cache.wroteFile key data, .recording key data fetched)
  | .recording key data fetched =>
    some ((cache.recordAndPick key data).2, .unlinking (cache.recordAndPick key data).1 fetched)
  | .unlinking [] fetched => some (cache, .storing fetched)
  | .unlinking (key :: victims) fetched => some (cache.removedFile key, .unlinking victims fetched)
  | .finished => none

def Advances : BlockCache × Phase → BlockCache × Phase → Prop :=
  Relation.ReflTransGen fun p q => advance p.1 p.2 = some q

theorem Advances.head {cache : BlockCache} {phase : Phase} {p q : BlockCache × Phase}
    (hstep : advance cache phase = some p) (h : Advances p q) : Advances (cache, phase) q :=
  Relation.ReflTransGen.head hstep h

theorem Advances.single {cache : BlockCache} {phase : Phase} {p : BlockCache × Phase}
    (hstep : advance cache phase = some p) : Advances (cache, phase) p := .head hstep .refl

variable (cache : BlockCache) (key : Key) (data : Bytes) (fetched : List (Key × Bytes))

theorem advances_load (keys misses : List Key) :
    Advances (cache, .loading (key :: keys) misses)
      ((cache.load key).2, .loading keys (if (cache.load key).1.isSome then misses else misses ++ [key])) := by
  cases hkey : cache.blocks.lookup key with
  | none =>
    apply Advances.single
    simp [advance, BlockCache.load, hkey]
  | some entry =>
    have hfound : advance cache (.loading (key :: keys) misses) =
        some (cache.used key entry.1, .reading key keys misses) := by
      simp [advance, hkey]
    apply Advances.head hfound
    by_cases hfile : ∃ b rest, cache.files.lookup key = some (b :: rest)
    · obtain ⟨b, rest, hfile⟩ := hfile
      apply Advances.single
      simp [advance, BlockCache.load, BlockCache.used, hkey, hfile]
    · -- there is no file, or an empty one
      have hgone : advance (cache.used key entry.1) (.reading key keys misses) =
          some (cache.used key entry.1, .dropping key keys misses) := by
        simp only [advance, BlockCache.used]
        split
        · rename_i hsome
          exact absurd ⟨_, _, hsome⟩ hfile
        · rfl
      have hload : cache.load key = (none, (cache.used key entry.1).forget key) := by
        simp only [BlockCache.load, hkey]
        split
        · rename_i hsome
          exact absurd ⟨_, _, hsome⟩ hfile
        · rfl
      apply Advances.head hgone
      rw [hload]
      exact .single rfl

theorem advances_unlink (victims : List Key) :
    Advances (cache, .unlinking victims fetched) (cache.unlink victims, .storing fetched) := by
  induction victims generalizing cache with
  | nil => exact .single rfl
  | cons victim victims ih => exact .head rfl (ih _)

theorem advances_store : Advances (cache, .storing ((key, data) :: fetched))
    (cache.store key data, .storing fetched) := by
  cases data with
  | nil => exact .single rfl
  | cons b rest => exact .head rfl (.head rfl (.head rfl (advances_unlink _ _ _)))

def giveUp : Phase → Option Phase
  | .storing (_ :: fetched) => some (.storing fetched)
  | .written _ _ fetched => some (.storing fetched)
  | _ => none

structure State where
  cache : BlockCache
  reads : List Phase

def State.opened (mode : Mode) : State := ⟨.opened mode, []⟩

def keysOf (nodeId versionId : Uuid) (offset size : ℕ) : List Key :=
  (blocksOf offset size).map fun index => ⟨nodeId, versionId, index⟩

inductive Act
  | start (nodeId versionId : Uuid) (offset size : ℕ)
  | advance (i : ℕ)
  | fetched (i : ℕ) (blocks : List (Key × Bytes))
  | giveUp (i : ℕ)

/--
One step of one read. The fetches have come back with blocks to keep, in any order: of all that were missing, or
of some, where one may not be kept or one has failed.
-/
def step (s : State) : Act → Option State
  | .start nodeId versionId offset size =>
    some { s with reads := s.reads ++ [.loading (keysOf nodeId versionId offset size) []] }
  | .advance i => (s.reads[i]?.bind (advance s.cache)).map fun next => ⟨next.1, s.reads.set i next.2⟩
  | .fetched i blocks =>
    match s.reads[i]? with
    | some (.loading [] misses) =>
      if (blocks.map Prod.fst).Subperm misses then some { s with reads := s.reads.set i (.storing blocks) } else none
    | _ => none
  | .giveUp i => (s.reads[i]?.bind giveUp).map fun phase => { s with reads := s.reads.set i phase }

def Reaches (allowed : State → Act → Prop) : State → State → Prop := Steps.Reaches step allowed

def State.Idle (s : State) : Prop := ∀ phase ∈ s.reads, phase = .finished

end Interleaved

end Dcfs.Fuse
