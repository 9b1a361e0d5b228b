import Dcfs.Cache.Extents
import Dcfs.Library.Machine
import Dcfs.Library.Totals
import Dcfs.Metadata.Records

namespace Dcfs.Cache

open Machine Tables

inductive CacheState
  | clean | dirty | committing | conflicted
  deriving DecidableEq

structure LocalPath where
  dir : String
  file : Uuid

structure CacheEntry where
  nodeId : Uuid
  baseVersionId : Option Uuid
  generation : ℕ
  localPath : LocalPath
  dirtyExtents : DirtyExtents
  logicalSize : ℕ
  lastAccess : Time
  state : CacheState

namespace CacheEntry

def new (nodeId : Uuid) (baseVersionId : Option Uuid) (generation : ℕ) (localPath : LocalPath) (logicalSize : ℕ)
    (now : Time) : CacheEntry :=
  ⟨nodeId, baseVersionId, generation, localPath, .new, logicalSize, now, .clean⟩

def isEvictable (entry : CacheEntry) : Bool := entry.state == .clean && !entry.dirtyExtents.isDirty

def markDirty (range : Range) (entry : CacheEntry) : CacheEntry :=
  { entry with dirtyExtents := entry.dirtyExtents.insert range, state := .dirty }

def markClean (entry : CacheEntry) : CacheEntry :=
  { entry with dirtyExtents := entry.dirtyExtents.clearAll, state := .clean }

def markCommitting (entry : CacheEntry) : Bool × CacheEntry :=
  if entry.state = .dirty then (true, { entry with state := .committing }) else (false, entry)

def markConflicted (entry : CacheEntry) : CacheEntry := { entry with state := .conflicted }

def touch (now : Time) (entry : CacheEntry) : CacheEntry := { entry with lastAccess := now }

end CacheEntry

def minByKey {α : Type} (key : α → ℤ) : List α → Option α
  -- `min_by_key`: the first of the least.
  | [] => none
  | a :: rest =>
    match minByKey key rest with
    | none => some a
    | some b => if key b < key a then some b else some a

structure CacheManager where
  entries : Table Uuid CacheEntry
  byteBudget : ℕ
  currentBytes : ℕ
  cacheDir : String

namespace CacheManager

def new (cacheDir : String) (byteBudget : ℕ) : CacheManager := ⟨∅, byteBudget, 0, cacheDir⟩

variable (m : CacheManager)

def getOrCreate (nodeId : Uuid) (baseVersionId : Option Uuid) (generation size : ℕ) (created now : Time) :
    CacheManager :=
  let m := match m.entries.lookup nodeId with
    | some _ => m
    | none =>
      let entry := CacheEntry.new nodeId baseVersionId generation ⟨m.cacheDir, nodeId⟩ size created
      { m with currentBytes := addU64 m.currentBytes size, entries := m.entries.insert nodeId entry }
  { m with entries := modify nodeId (CacheEntry.touch now) m.entries }

def get (nodeId : Uuid) (now : Time) : CacheManager :=
  { m with entries := modify nodeId (CacheEntry.touch now) m.entries }

def drop (nodeId : Uuid) (entry : CacheEntry) : CacheManager :=
  { m with entries := m.entries.erase nodeId, currentBytes := m.currentBytes - entry.logicalSize }

def remove (nodeId : Uuid) : Bool × CacheManager :=
  match m.entries.lookup nodeId with
  | none => (false, m)
  | some entry => if entry.isEvictable then (true, m.drop nodeId entry) else (false, m)

def oldest : Option (Sigma fun _ : Uuid => CacheEntry) :=
  minByKey (fun e => e.2.lastAccess) (m.entries.entries.filter fun e => e.2.isEvictable)

def evictOne : Option CacheManager :=
  if m.byteBudget < m.currentBytes then m.oldest.map fun e => m.drop e.1 e.2 else none

def evictRounds : ℕ → CacheManager → CacheManager
  | 0, m => m
  | n + 1, m => m.evictOne.elim m (evictRounds n)

-- No entry is evicted twice, so that there are at most as many rounds as entries.
def evictIfNeeded : CacheManager := evictRounds m.entries.entries.length m

end CacheManager

/-- A change of an entry's state, through the reference that `get` and `get_or_create` hand out. -/
inductive Mark
  | dirty (range : Range)
  | committing | conflicted | clean

def Mark.apply : Mark → CacheEntry → CacheEntry
  | .dirty range, entry => entry.markDirty range
  | .committing, entry => entry.markCommitting.2
  | .conflicted, entry => entry.markConflicted
  | .clean, entry => entry.markClean

inductive CacheEvent
  | getOrCreate (nodeId : Uuid) (baseVersionId : Option Uuid) (generation size : ℕ) (created now : Time)
  | get (nodeId : Uuid) (now : Time)
  | remove (nodeId : Uuid)
  | evictIfNeeded
  | mark (nodeId : Uuid) (change : Mark)

def CacheEvent.apply : CacheEvent → CacheManager → CacheManager
  | .getOrCreate nodeId baseVersionId generation size created now, m =>
    m.getOrCreate nodeId baseVersionId generation size created now
  | .get nodeId now, m => m.get nodeId now
  | .remove nodeId, m => (m.remove nodeId).2
  | .evictIfNeeded, m => m.evictIfNeeded
  | .mark nodeId change, m => { m with entries := modify nodeId change.apply m.entries }

namespace CacheManager

def size (m : CacheManager) : ℕ := total CacheEntry.logicalSize m.entries

def Exact (m : CacheManager) : Prop := m.currentBytes = m.size

/-- No two entries were last used at the same time. -/
def Distinct (m : CacheManager) : Prop :=
  ∀ id id' e e', m.entries.lookup id = some e → m.entries.lookup id' = some e' →
    e.lastAccess = e'.lastAccess → id = id'

inductive Reaches : CacheManager → Prop
  | new (cacheDir : String) (byteBudget : ℕ) : Reaches (new cacheDir byteBudget)
  | step (event : CacheEvent) {m : CacheManager} (h : Reaches m) (hsize : (event.apply m).size < 2 ^ 64)
      (hdistinct : (event.apply m).Distinct) : Reaches (event.apply m)

end CacheManager

end Dcfs.Cache
