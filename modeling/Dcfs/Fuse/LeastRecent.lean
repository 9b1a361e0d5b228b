import Dcfs.Fuse.Fsync
import Dcfs.Fuse.Recency
import Dcfs.Library.Program
import Dcfs.Library.Totals

namespace Dcfs.Fuse

open Effects Tables Lru

structure BlockOps (σ : Type) where
  load : Key → σ → Option Bytes × σ
  store : Key → Bytes → σ → σ
  invalidate : Uuid → σ → σ

def diskOps : BlockOps BlockCache where
  load key cache := cache.load key
  store key data cache := cache.store key data
  invalidate nodeId cache := cache.invalidate nodeId

def lruOps (budget : ℕ) : BlockOps (List Block) where
  load key blocks := ((find Block.key key blocks).map Block.data, touch Block.key key blocks)
  store key data blocks := if data.isEmpty then blocks else put Block.key Block.length budget ⟨key, data⟩ blocks
  invalidate nodeId blocks := blocks.filter fun block => decide (block.key.nodeId ≠ nodeId)

section

variable {σ : Type} (ops : BlockOps σ) (fetch : ℕ → Served Bytes)

def serve : (c : ClientCall) → σ × ℕ → c.Reply × (σ × ℕ)
  | .loadBlock key, s => ((ops.load key s.1).1, ((ops.load key s.1).2, s.2))
  | .storeBlock key data, s => ((), (ops.store key data s.1, s.2))
  | .invalidateBlocks nodeId, s => ((), (ops.invalidate nodeId s.1, s.2))
  | .readFileCacheable _ _ _, s => ((fetch s.2).map fun bytes => (bytes, true), (s.1, s.2 + 1))
  | c, s => ((oneFile true c []).1, s)

inductive CacheCall
  | read (setup : Setup) (nodeId versionId : Uuid) (offset size : ℕ)
  | invalidate (nodeId : Uuid)

def CacheCall.program : CacheCall → Program Client (Served Bytes)
  | .read setup nodeId versionId offset size => do
    let out ← readBlocks setup nodeId versionId offset size (Mount.fresh 0)
    return out.1
  | .invalidate nodeId => do
    Program.ask (I := Client) (.invalidateBlocks nodeId)
    return .ok []

def CacheCall.after (s : σ × ℕ) (call : CacheCall) : σ × ℕ := (call.program.run (serve ops fetch) s).2

end

def Follows (budget : ℕ) (cache : BlockCache) (blocks : List Block) : Prop :=
  cache.mode = .stream budget ∧ ∃ held, Lists cache held ∧ held.map Held.block = blocks

variable {budget : ℕ} {cache : BlockCache} {blocks : List Block}

namespace Follows

theorem load (h : Follows budget cache blocks) (key : Key) :
    (cache.load key).1 = ((lruOps budget).load key blocks).1
      ∧ Follows budget (cache.load key).2 ((lruOps budget).load key blocks).2 := by
  obtain ⟨hmode, held, htracks, rfl⟩ := h
  obtain ⟨held', htracks', hblocks, hreply⟩ := htracks.load key
  exact ⟨hreply, BlockCache.load_mode.trans hmode, held', htracks', hblocks⟩

theorem store (h : Follows budget cache blocks) (key : Key) (data : Bytes) :
    Follows budget (cache.store key data) ((lruOps budget).store key data blocks) := by
  by_cases hdata : data = []
  · subst hdata
    exact h
  · obtain ⟨hmode, held, htracks, rfl⟩ := h
    obtain ⟨held', htracks', hblocks⟩ := htracks.store hmode hdata key
    refine ⟨BlockCache.store_mode.trans hmode, held', htracks', hblocks.trans ?_⟩
    simp [lruOps, hdata]

theorem invalidate (h : Follows budget cache blocks) (nodeId : Uuid) :
    Follows budget (cache.invalidate nodeId) ((lruOps budget).invalidate nodeId blocks) := by
  obtain ⟨hmode, held, htracks, rfl⟩ := h
  refine ⟨(BlockCache.foldl_forget_mode _).trans hmode, _, htracks.invalidate nodeId, ?_⟩
  change _ = (held.map Held.block).filter _
  rw [List.filter_map]
  rfl

theorem opened (budget : ℕ) : Follows budget (.opened (.stream budget)) [] :=
  ⟨rfl, [], ⟨fun _ => rfl, nofun, List.nodup_nil, List.Pairwise.nil, nofun, rfl⟩, rfl⟩

theorem serve (fetch : ℕ → Served Bytes) (c : ClientCall) (s : BlockCache × ℕ) (t : List Block × ℕ)
    (h : Follows budget s.1 t.1 ∧ s.2 = t.2) :
    (Fuse.serve diskOps fetch c s).1 = (Fuse.serve (lruOps budget) fetch c t).1
      ∧ Follows budget (Fuse.serve diskOps fetch c s).2.1 (Fuse.serve (lruOps budget) fetch c t).2.1
      ∧ (Fuse.serve diskOps fetch c s).2.2 = (Fuse.serve (lruOps budget) fetch c t).2.2 := by
  obtain ⟨hfollows, hcount⟩ := h
  cases c with
  | loadBlock key => exact ⟨(hfollows.load key).1, (hfollows.load key).2, hcount⟩
  | storeBlock key data => exact ⟨rfl, hfollows.store key data, hcount⟩
  | invalidateBlocks nodeId => exact ⟨rfl, hfollows.invalidate nodeId, hcount⟩
  | readFileCacheable nodeId offset size =>
    simp only [Fuse.serve, hcount]
    exact ⟨trivial, hfollows, trivial⟩
  | _ => exact ⟨rfl, hfollows, hcount⟩

theorem index (h : Follows budget cache blocks) (key : Key) :
    (cache.blocks.lookup key).map Prod.fst = (find Block.key key blocks).map Block.length := by
  obtain ⟨-, held, htracks, rfl⟩ := h
  rw [htracks.index, find_blocks, Option.map_map, Option.map_map]
  rfl

theorem bytes (h : Follows budget cache blocks) : cache.bytes = Tables.total Prod.fst cache.blocks := by
  obtain ⟨-, held, htracks, rfl⟩ := h
  have hperm := (htracks.perm.map fun e => e.2.1).sum_eq
  rw [List.map_map] at hperm
  rw [htracks.bytes, Tables.total, values, List.map_map]
  exact hperm

end Follows

theorem eviction_least_recent (budget : ℕ) (fetch : ℕ → Served Bytes) (calls : List CacheCall) :
    let cache := (calls.foldl (CacheCall.after diskOps fetch) (.opened (.stream budget), 0)).1
    let reference := (calls.foldl (CacheCall.after (lruOps budget) fetch) ([], 0)).1
    (∀ key, (cache.blocks.lookup key).map Prod.fst = (find Block.key key reference).map Block.length)
    ∧ cache.bytes = Tables.total Prod.fst cache.blocks := by
  have hrun : ∀ (s : BlockCache × ℕ) (t : List Block × ℕ), Follows budget s.1 t.1 ∧ s.2 = t.2 →
      Follows budget (calls.foldl (CacheCall.after diskOps fetch) s).1
        (calls.foldl (CacheCall.after (lruOps budget) fetch) t).1 := by
    induction calls with
    | nil => exact fun s t h => h.1
    | cons call rest ih =>
      intro s t h
      exact ih _ _ (Program.run_related (fun c s t hst => Follows.serve fetch c s t hst) call.program h).2
  have hfollows := hrun (.opened (.stream budget), 0) ([], 0) ⟨.opened budget, rfl⟩
  exact ⟨hfollows.index, hfollows.bytes⟩

-- room for two blocks: the third read finds the first file's, so that the fourth drops the second file's
example :
    let calls : List CacheCall := [.read bare 1 1 0 1, .read bare 2 2 0 1, .read bare 1 1 0 1, .read bare 3 3 0 1]
    let ended := calls.foldl (CacheCall.after diskOps fun _ => .ok [7]) (.opened (.stream 2), 0)
    ended.1.blocks.keys = [⟨3, 3, 0⟩, ⟨1, 1, 0⟩] ∧ ended.2 = 3 := by decide +kernel

end Dcfs.Fuse
