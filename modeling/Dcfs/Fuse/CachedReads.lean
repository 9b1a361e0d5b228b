import Dcfs.Fuse.Assembly
import Dcfs.Fuse.BlockCache
import Dcfs.Fuse.Fsync

namespace Dcfs.Fuse

open Effects Fs Tables Routine

namespace BlockCache

variable (cache cache' : BlockCache) (key : Key) (data : Bytes)

def Fewer : Prop := ∀ key data, cache'.files.lookup key = some data → cache.files.lookup key = some data

def Loads (r : Option Bytes) (after : BlockCache) : Prop :=
  ∃ left, cache.Fewer left ∧ (r = (left.load key).1 ∧ after = (left.load key).2 ∨ r = none ∧ after = left.forget key)

def Stores (after : BlockCache) : Prop := ∃ left, cache.Fewer left ∧ (after = left.store key data ∨ after = left)

def Stocked (right : Key → Bytes → Prop) : Prop := ∀ key data, cache.files.lookup key = some data → right key data

variable {cache cache' key data} {right : Key → Bytes → Prop}

theorem Stocked.fewer (h : cache.Stocked right) (hfewer : cache.Fewer cache') : cache'.Stocked right :=
  fun key data hfile => h key data (hfewer key data hfile)

theorem Stocked.loads (h : cache.Stocked right) {r : Option Bytes} (hloads : cache.Loads key r cache') :
    cache'.Stocked right ∧ ∀ block, r = some block → right key block := by
  obtain ⟨left, hfewer, ⟨rfl, rfl⟩ | ⟨rfl, rfl⟩⟩ := hloads
  · constructor
    · intro key' data hfile
      rw [load_files] at hfile
      exact h key' data (hfewer key' data hfile)
    · intro block hblock
      exact h key block (hfewer key block (load_eq_some hblock))
  · constructor
    · intro key' data hfile
      rw [forget_files] at hfile
      exact h key' data (hfewer key' data hfile)
    · nofun

theorem Stocked.stores (h : cache.Stocked right) (hdata : right key data) (hstores : cache.Stores key data cache') :
    cache'.Stocked right := by
  obtain ⟨left, hfewer, rfl | rfl⟩ := hstores
  · intro key' data' hfile
    rcases lookup_store hfile with ⟨rfl, rfl⟩ | hold
    · exact hdata
    · exact h key' data' (hfewer key' data' hold)
  · exact h.fewer hfewer

theorem Stocked.invalidate (h : cache.Stocked right) (nodeId : Uuid) : (cache.invalidate nodeId).Stocked right :=
  fun key data hfile => h key data (lookup_invalidate hfile).2

end BlockCache

/--
The cache beside files that do not change. A fetch fails or gives the bytes of the file, and says in any
way whether they may be kept.
-/
def lossyCache (contents : Uuid → Bytes) : Rules Client BlockCache where
  admits _ _ := True
  outcome c s r t :=
    match c, r with
    | .readFileCacheable nodeId offset size, .ok (bytes, _) =>
      bytes = ((contents nodeId).drop offset).take size ∧ t = s
    | .loadBlock key, r => s.Loads key r t
    | .storeBlock key data, _ => s.Stores key data t
    | .invalidateBlocks nodeId, _ => t = s.invalidate nodeId
    | _, _ => t = s

inductive Caches (contents : Uuid → Bytes) (version : Uuid → Uuid) : BlockCache → Prop
  | opened (mode : Mode) : Caches contents version (.opened mode)
  | read {setup : Setup} {m m' : Mount} {s t : BlockCache} {nodeId : Uuid} {offset size : ℕ} {out : Served Bytes} :
      Caches contents version s →
      Routine.Ends (lossyCache contents) (readBlocks setup nodeId (version nodeId) offset size) m s out m' t →
      Caches contents version t
  | invalidate {s : BlockCache} (nodeId : Uuid) :
    Caches contents version s → Caches contents version (s.invalidate nodeId)
  | lose {s t : BlockCache} : Caches contents version s → s.Fewer t → Caches contents version t

variable {contents : Uuid → Bytes} {version : Uuid → Uuid} {setup : Setup} {m m' : Mount} {s t : BlockCache}

def Genuine (contents : Uuid → Bytes) (version : Uuid → Uuid) (key : Key) (data : Bytes) : Prop :=
  key.versionId = version key.nodeId → data = blockOf (contents key.nodeId) key.index

theorem lossyCache_supplies (nodeId : Uuid) :
    Supplies (lossyCache contents) (fun _ s => s.Stocked (Genuine contents version)) nodeId (version nodeId)
      fun index block => block = blockOf (contents nodeId) index where
  load index _ _ hstocked := by
    refine ⟨trivial, fun r t ho => ?_⟩
    obtain ⟨hleft, hblock⟩ := hstocked.loads ho
    exact ⟨hleft, fun block hr => hblock block hr rfl⟩
  fetch index _ s hstocked := by
    refine ⟨trivial, fun r t ho => ?_⟩
    cases r with
    | error e =>
      obtain rfl : t = s := ho
      exact ⟨hstocked, nofun⟩
    | ok answer =>
      obtain ⟨hbytes, rfl⟩ := ho
      refine ⟨hstocked, fun block keep hanswer => ?_⟩
      cases hanswer
      exact hbytes
  store hright hstocked := by
    refine ⟨trivial, fun r t ho => hstocked.stores (fun _ => ?_) ho⟩
    exact hright

theorem Caches.stocked (h : Caches contents version s) : s.Stocked (Genuine contents version) := by
  induction h with
  | opened mode =>
    intro key data hfile
    rw [BlockCache.opened, AList.lookup_empty] at hfile
    cases hfile
  | read _ hends ih => exact (((lossyCache_supplies _).readBlocks _ _ ih).ends hends).1
  | invalidate nodeId _ ih => exact ih.invalidate nodeId
  | lose _ hfewer ih => exact ih.fewer hfewer

theorem cached_read_exact (h : Caches contents version s) {nodeId : Uuid} {offset size : ℕ} {bytes : Bytes}
    (hends : Routine.Ends (lossyCache contents) (readBlocks setup nodeId (version nodeId) offset size) m s
      (.ok bytes) m' t) :
    bytes = ((contents nodeId).drop offset).take size := by
  obtain ⟨-, hread⟩ := ((lossyCache_supplies nodeId).readBlocks offset size h.stocked).ends hends
  obtain ⟨block, hblock, rfl⟩ := hread bytes rfl
  rw [List.flatMap_congr fun index hmem => by rw [hblock index hmem], flatMap_blocksOf]

def twoBlocks : Bytes := List.replicate blockSize 5 ++ [7, 8, 9]

theorem twoBlocks_across : (twoBlocks.drop (blockSize - 1)).take 3 = [5, 7, 8] := by
  have hfirst : blockSize - 1 ≤ (List.replicate blockSize (5 : UInt8)).length := by
    rw [List.length_replicate]
    decide
  have hone : blockSize - (blockSize - 1) = 1 := by decide
  rw [twoBlocks, List.drop_append_of_le_length hfirst, List.drop_replicate, hone]
  rfl

def keeping : (c : ClientCall) → BlockCache → c.Reply × BlockCache
  | .readFileCacheable _ offset size, s => (.ok ((twoBlocks.drop offset).take size, true), s)
  | .loadBlock key, s => s.load key
  | .storeBlock key data, s => ((), s.store key data)
  | .invalidateBlocks nodeId, s => ((), s.invalidate nodeId)
  | c, s => ((oneFile true c []).1, s)

theorem keeping_lossyCache (c : ClientCall) (s : BlockCache) :
    (lossyCache fun _ => twoBlocks).outcome c s (keeping c s).1 (keeping c s).2 := by
  cases c with
  | readFileCacheable nodeId offset size => exact ⟨rfl, rfl⟩
  | loadBlock key => exact ⟨s, fun _ _ hfile => hfile, .inl ⟨rfl, rfl⟩⟩
  | storeBlock key data => exact ⟨s, fun _ _ hfile => hfile, .inl rfl⟩
  | invalidateBlocks nodeId => exact rfl
  | _ => exact rfl

theorem cached_read_across : ∃ s t bytes, Caches (fun _ => twoBlocks) (fun _ => 4) s
    ∧ (s.files.lookup ⟨7, 4, 0⟩).isSome = true ∧ (s.files.lookup ⟨7, 4, 1⟩).isSome = false
    ∧ Routine.Ends (lossyCache fun _ => twoBlocks) (readBlocks bare 7 4 (blockSize - 1) 3) (.fresh 0) s (.ok bytes)
      (.fresh 0) t
    ∧ bytes = [5, 7, 8] := by
  have hfirst := Routine.run_ends keeping_lossyCache (readBlocks bare 7 4 0 1) (.fresh 0) (.opened .mirror)
  have hcaches : Caches (fun _ => twoBlocks) (fun _ => 4) _ := .read (.opened .mirror) hfirst
  have hends := Routine.run_ends keeping_lossyCache (readBlocks bare 7 4 (blockSize - 1) 3) (.fresh 0)
    ((readBlocks bare 7 4 0 1 (.fresh 0)).run keeping (.opened .mirror)).2
  exact ⟨_, _, _, hcaches, rfl, rfl, hends, (cached_read_exact hcaches hends).trans twoBlocks_across⟩

end Dcfs.Fuse
