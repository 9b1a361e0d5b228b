import Dcfs.Fuse.Client
import Dcfs.Library.Table
import Mathlib.Data.List.Sort

namespace Dcfs.Fuse

open Tables

inductive Mode
  | stream (budgetBytes : ℕ)
  | mirror
  deriving DecidableEq

structure BlockCache where
  mode : Mode
  blocks : Table Key (ℕ × ℕ)
  nextTick : ℕ
  bytes : ℕ
  files : Table Key Bytes

namespace BlockCache

def opened (mode : Mode) : BlockCache := ⟨mode, ∅, 0, 0, ∅⟩

variable (cache : BlockCache)

def forget (key : Key) : BlockCache :=
  match cache.blocks.lookup key with
  | some (size, _) => { cache with blocks := cache.blocks.erase key, bytes := cache.bytes - size }
  | none => cache

def used (key : Key) (size : ℕ) : BlockCache :=
  { cache with blocks := cache.blocks.insert key (size, cache.nextTick), nextTick := cache.nextTick + 1 }

-- an empty file is no block, and one that has gone is fetched again
def load (key : Key) : Option Bytes × BlockCache :=
  match cache.blocks.lookup key with
  | none => (none, cache)
  | some (size, _) =>
    match cache.files.lookup key with
    | some (b :: rest) => (some (b :: rest), cache.used key size)
    | _ => (none, (cache.used key size).forget key)

def evict (budget : ℕ) : List Key → BlockCache → List Key × BlockCache
  | [], cache => ([], cache)
  | key :: rest, cache =>
    if cache.bytes ≤ budget then ([], cache)
    else
      let (victims, cache) := evict budget rest (cache.forget key)
      (key :: victims, cache)

def byAge : List Key :=
  (cache.blocks.entries.insertionSort fun a b => a.2.2 ≤ b.2.2).map Sigma.fst

def pickVictims (budget : ℕ) : List Key × BlockCache :=
  if cache.bytes ≤ budget then ([], cache) else evict budget cache.byAge cache

def unlink (victims : List Key) : BlockCache :=
  { cache with files := victims.foldl (fun files key => files.erase key) cache.files }

def wroteFile (key : Key) (data : Bytes) : BlockCache := { cache with files := cache.files.insert key data }

def recorded (key : Key) (data : Bytes) : BlockCache :=
  let old := ((cache.blocks.lookup key).map Prod.fst).getD 0
  { cache with
    blocks := cache.blocks.insert key (data.length, cache.nextTick)
    nextTick := cache.nextTick + 1
    bytes := cache.bytes - old + data.length }

def recordAndPick (key : Key) (data : Bytes) : List Key × BlockCache :=
  match cache.mode with
  | .mirror => ([], cache.recorded key data)
  | .stream budget => (cache.recorded key data).pickVictims budget

def store (key : Key) (data : Bytes) : BlockCache :=
  if data.isEmpty then cache
  else
    let (victims, kept) := (cache.wroteFile key data).recordAndPick key data
    kept.unlink victims

def invalidate (nodeId : Uuid) : BlockCache :=
  let doomed := (cache.blocks.entries.map Sigma.fst).filter fun key => key.nodeId == nodeId
  let cache := doomed.foldl forget cache
  { cache with files := keep (fun key _ => key.nodeId != nodeId) cache.files }

variable {cache : BlockCache} {key key' : Key} {data data' : Bytes}

theorem forget_files : (cache.forget key).files = cache.files := by
  unfold forget
  split <;> rfl

theorem load_files : (cache.load key).2.files = cache.files := by
  unfold load
  split
  · rfl
  · split
    · rfl
    · exact forget_files

theorem load_eq_some (h : (cache.load key).1 = some data) : cache.files.lookup key = some data := by
  unfold load at h
  split at h
  · cases h
  · split at h
    · cases h
      assumption
    · cases h

theorem evict_files (budget : ℕ) (keys : List Key) (cache : BlockCache) :
    (evict budget keys cache).2.files = cache.files := by
  induction keys generalizing cache with
  | nil => rfl
  | cons key rest ih =>
    unfold evict
    split_ifs
    · rfl
    · exact (ih _).trans forget_files

theorem pickVictims_files (budget : ℕ) (cache : BlockCache) : (cache.pickVictims budget).2.files = cache.files := by
  unfold pickVictims
  split_ifs
  · rfl
  · exact evict_files _ _ _

theorem lookup_unlink {victims : List Key} (h : (cache.unlink victims).files.lookup key = some data) :
    cache.files.lookup key = some data := by
  unfold unlink at h
  generalize cache.files = files at h ⊢
  induction victims generalizing files with
  | nil => exact h
  | cons victim rest ih =>
    have hrest := ih _ h
    rw [lookup_erase] at hrest
    split_ifs at hrest
    exact hrest

theorem recordAndPick_files : (cache.recordAndPick key data).2.files = cache.files := by
  unfold recordAndPick
  split
  · rfl
  · exact pickVictims_files _ _

theorem lookup_store (h : (cache.store key data).files.lookup key' = some data') :
    key' = key ∧ data' = data ∨ cache.files.lookup key' = some data' := by
  unfold store at h
  split_ifs at h
  · exact .inr h
  · have hfile : ((cache.wroteFile key data).recordAndPick key data).2.files.lookup key' = some data' := lookup_unlink h
    rw [recordAndPick_files, wroteFile, lookup_insert] at hfile
    split_ifs at hfile with hkey
    · exact .inl ⟨hkey, (Option.some.inj hfile).symm⟩
    · exact .inr hfile

theorem foldl_forget_files (keys : List Key) (cache : BlockCache) : (keys.foldl forget cache).files = cache.files := by
  induction keys generalizing cache with
  | nil => rfl
  | cons key rest ih => exact (ih _).trans forget_files

theorem lookup_invalidate {nodeId : Uuid} (h : (cache.invalidate nodeId).files.lookup key = some data) :
    key.nodeId ≠ nodeId ∧ cache.files.lookup key = some data := by
  unfold invalidate at h
  simp only [lookup_keep, foldl_forget_files, Option.filter_eq_some_iff, bne_iff_ne] at h
  exact h.symm

theorem forget_mode : (cache.forget key).mode = cache.mode := by
  unfold forget
  split <;> rfl

theorem load_mode : (cache.load key).2.mode = cache.mode := by
  unfold load
  split
  · rfl
  · split
    · rfl
    · exact forget_mode

theorem foldl_forget_mode (keys : List Key) : (keys.foldl forget cache).mode = cache.mode := by
  induction keys generalizing cache with
  | nil => rfl
  | cons key rest ih => exact ih.trans forget_mode

theorem evict_mode (budget : ℕ) (keys : List Key) : (evict budget keys cache).2.mode = cache.mode := by
  induction keys generalizing cache with
  | nil => rfl
  | cons key rest ih =>
    unfold evict
    split_ifs
    · rfl
    · exact ih.trans forget_mode

theorem pickVictims_mode (budget : ℕ) : (cache.pickVictims budget).2.mode = cache.mode := by
  unfold pickVictims
  split_ifs
  · rfl
  · exact evict_mode _ _

theorem recordAndPick_mode : (cache.recordAndPick key data).2.mode = cache.mode := by
  unfold recordAndPick
  split
  · rfl
  · exact pickVictims_mode _

theorem store_mode : (cache.store key data).mode = cache.mode := by
  unfold store
  split_ifs
  · rfl
  · exact recordAndPick_mode

end BlockCache

end Dcfs.Fuse
