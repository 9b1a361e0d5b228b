import Dcfs.Fuse.BlockCache
import Dcfs.Library.Lru

namespace Dcfs.Fuse

open Tables Lru

structure Held where
  key : Key
  data : Bytes
  tick : ℕ

structure Block where
  key : Key
  data : Bytes
  deriving DecidableEq

def Held.block (h : Held) : Block := ⟨h.key, h.data⟩

def Held.length (h : Held) : ℕ := h.data.length

def Block.length (b : Block) : ℕ := b.data.length

structure Lists (cache : BlockCache) (held : List Held) : Prop where
  index : ∀ key, cache.blocks.lookup key = (find Held.key key held).map fun h => (h.length, h.tick)
  files : ∀ h ∈ held, cache.files.lookup h.key = some h.data ∧ h.data ≠ []
  distinct : Distinct Held.key held
  order : held.Pairwise fun a b => a.tick < b.tick
  fresh : ∀ h ∈ held, h.tick < cache.nextTick
  bytes : cache.bytes = total Held.length held

theorem find_blocks (key : Key) (held : List Held) :
    find Block.key key (held.map Held.block) = (find Held.key key held).map Held.block :=
  find_map (fun _ => rfl) key held

theorem without_blocks (key : Key) (held : List Held) :
    without Block.key key (held.map Held.block) = (without Held.key key held).map Held.block :=
  without_map (fun _ => rfl) key held

namespace Lists

variable {cache cache' : BlockCache} {held : List Held} {key : Key} {data : Bytes}

theorem forget (h : Lists cache held) (key : Key) : Lists (cache.forget key) (without Held.key key held) := by
  have htotal := total_without Held.length h.distinct key
  have hindex := h.index key
  rw [BlockCache.forget]
  cases hfound : find Held.key key held with
  | none =>
    have hall : without Held.key key held = held := by
      rw [without, List.filter_eq_self]
      exact fun e he => decide_eq_true (find_eq_none.mp hfound e he)
    rw [hfound, Option.map_none] at hindex
    rw [hindex, hall]
    exact h
  | some block =>
    rw [hfound, Option.map_some] at hindex
    rw [hfound, Option.map_some, Option.getD_some] at htotal
    rw [hindex]
    constructor
    · intro key'
      rw [lookup_erase, find_without, h.index]
      split_ifs <;> rfl
    · exact fun e he => h.files e (mem_without.mp he).1
    · exact h.distinct.filter _
    · exact h.order.filter _
    · exact fun e he => h.fresh e (mem_without.mp he).1
    · have hbytes := h.bytes
      dsimp only
      omega

theorem use (h : Lists cache held) (hdata : data ≠ [])
    (hblocks : cache'.blocks = cache.blocks.insert key (data.length, cache.nextTick))
    (htick : cache'.nextTick = cache.nextTick + 1) (hfile : cache'.files.lookup key = some data)
    (hothers : ∀ key', key' ≠ key → cache'.files.lookup key' = cache.files.lookup key')
    (hbytes : cache'.bytes + ((find Held.key key held).map Held.length).getD 0 = cache.bytes + data.length) :
    Lists cache' (without Held.key key held ++ [⟨key, data, cache.nextTick⟩]) := by
  have hmem : ∀ e ∈ without Held.key key held ++ [⟨key, data, cache.nextTick⟩],
      e ∈ held ∧ e.key ≠ key ∨ e = ⟨key, data, cache.nextTick⟩ := by
    intro e he
    rcases List.mem_append.mp he with he | he
    · exact .inl (mem_without.mp he)
    · exact .inr (List.mem_singleton.mp he)
  constructor
  · intro key'
    rw [hblocks, lookup_insert, find_append, find_without, h.index]
    by_cases hkey : key' = key
    · rw [if_pos hkey, if_pos hkey, if_pos hkey.symm]
      rfl
    · rw [if_neg hkey, if_neg hkey, if_neg (Ne.symm hkey), Option.or_none]
  · intro e he
    rcases hmem e he with ⟨he, hne⟩ | rfl
    · rw [hothers _ hne]
      exact h.files e he
    · exact ⟨hfile, hdata⟩
  · exact h.distinct.replace ⟨key, data, cache.nextTick⟩
  · refine List.pairwise_append.mpr ⟨h.order.filter _, List.pairwise_singleton _ _, fun a ha b hb => ?_⟩
    rw [List.mem_singleton.mp hb]
    exact h.fresh a (mem_without.mp ha).1
  · intro e he
    rw [htick]
    rcases hmem e he with ⟨he, -⟩ | rfl
    · exact (h.fresh e he).trans (Nat.lt_succ_self _)
    · exact Nat.lt_succ_self _
  · have htotal := total_without Held.length h.distinct key
    have hbefore := h.bytes
    rw [total_append]
    change cache'.bytes = total Held.length (without Held.key key held) + data.length
    omega

theorem load (h : Lists cache held) (key : Key) :
    ∃ held', Lists (cache.load key).2 held' ∧ held'.map Held.block = touch Block.key key (held.map Held.block)
      ∧ (cache.load key).1 = (find Block.key key (held.map Held.block)).map Block.data := by
  have hindex := h.index key
  rw [touch, find_blocks]
  cases hfound : find Held.key key held with
  | none =>
    rw [hfound, Option.map_none] at hindex
    refine ⟨held, ?_, rfl, ?_⟩
    · rw [BlockCache.load, hindex]
      exact h
    · rw [BlockCache.load, hindex]
      rfl
  | some block =>
    obtain rfl := key_of_find hfound
    obtain ⟨hfile, hdata⟩ := h.files block (mem_of_find hfound)
    rw [hfound, Option.map_some] at hindex
    -- The file is there, so that the block is found and used.
    have hload : cache.load block.key = (some block.data, cache.used block.key block.length) := by
      rw [BlockCache.load, hindex]
      dsimp only
      rw [hfile]
      obtain ⟨b, rest, hcons⟩ := List.exists_cons_of_ne_nil hdata
      rw [hcons]
    rw [hload]
    refine ⟨_, h.use hdata rfl rfl hfile (fun _ _ => rfl) ?_, ?_, rfl⟩
    · rw [hfound]
      rfl
    · rw [List.map_append, ← without_blocks]
      rfl

theorem tick_inj (h : Lists cache held) {a b : Held} (ha : a ∈ held) (hb : b ∈ held) (htick : a.tick = b.tick) :
    a = b := by
  have hnodup : (held.map Held.tick).Nodup := (List.pairwise_map.mpr h.order).imp fun hlt => ne_of_lt hlt
  exact List.inj_on_of_nodup_map hnodup ha hb htick

def entry (h : Held) : (_ : Key) × (ℕ × ℕ) := ⟨h.key, (h.length, h.tick)⟩

theorem perm (h : Lists cache held) : (held.map entry).Perm cache.blocks.entries := by
  have hheld : (held.map entry).Nodup := by
    apply List.Nodup.of_map Sigma.fst
    rw [List.map_map]
    exact h.distinct
  refine (List.perm_ext_iff_of_nodup hheld (List.NodupKeys.nodup cache.blocks.nodupKeys)).mpr fun e => ?_
  rw [← lookup_eq_some_iff, h.index, Option.map_eq_some_iff, List.mem_map]
  constructor
  · rintro ⟨block, hblock, rfl⟩
    exact ⟨block, find_of_mem h.distinct hblock, rfl⟩
  · rintro ⟨block, hfound, heq⟩
    obtain ⟨key, value⟩ := e
    obtain rfl := key_of_find hfound
    cases heq
    exact ⟨block, mem_of_find hfound, rfl⟩

theorem byAge (h : Lists cache held) : cache.byAge = held.map Held.key := by
  let older : (_ : Key) × (ℕ × ℕ) → (_ : Key) × (ℕ × ℕ) → Prop := fun a b => a.2.2 ≤ b.2.2
  have htotal : Std.Total older := ⟨fun a b => le_total a.2.2 b.2.2⟩
  have htrans : IsTrans _ older := ⟨fun _ _ _ => le_trans⟩
  have hheld : (held.map entry).Pairwise older := List.pairwise_map.mpr (h.order.imp le_of_lt)
  have hsame : cache.blocks.entries.insertionSort older = held.map entry := by
    refine List.Perm.eq_of_pairwise ?_ (List.pairwise_insertionSort older _) hheld
      ((List.perm_insertionSort older _).trans h.perm.symm)
    intro a b ha hb hab hba
    obtain ⟨x, hx, rfl⟩ := List.mem_map.mp (h.perm.mem_iff.mpr ((List.perm_insertionSort older _).mem_iff.mp ha))
    obtain ⟨y, hy, rfl⟩ := List.mem_map.mp hb
    rw [h.tick_inj hx hy (le_antisymm hab hba)]
  rw [BlockCache.byAge, hsame, List.map_map]
  rfl

theorem tail {head : Held} {rest : List Held} (h : Lists cache (head :: rest)) :
    Lists (cache.forget head.key) rest := by
  have hforget := h.forget head.key
  have hrest : without Held.key head.key (head :: rest) = rest := by
    have hnot := (List.nodup_cons.mp h.distinct).1
    rw [without, List.filter_cons_of_neg (by simp), List.filter_eq_self]
    intro e he
    refine decide_eq_true fun heq => hnot ?_
    rw [← heq]
    exact List.mem_map_of_mem he
  rwa [hrest] at hforget

theorem total_blocks (held : List Held) : total Block.length (held.map Held.block) = total Held.length held := by
  rw [Lru.total, List.map_map]
  rfl

theorem evict (budget : ℕ) (h : Lists cache held) : ∃ kept,
    Lists (BlockCache.evict budget (held.map Held.key) cache).2 kept
      ∧ kept.map Held.block = trim Block.length budget (held.map Held.block)
      ∧ ∀ block ∈ kept, block ∈ held ∧ block.key ∉ (BlockCache.evict budget (held.map Held.key) cache).1 := by
  induction held generalizing cache with
  | nil => exact ⟨[], h, rfl, nofun⟩
  | cons head rest ih =>
    rw [List.map_cons, List.map_cons, BlockCache.evict, trim, ← List.map_cons, total_blocks, ← h.bytes]
    by_cases hfits : cache.bytes ≤ budget
    · rw [if_pos hfits, if_pos hfits]
      exact ⟨head :: rest, h, rfl, fun block hblock => ⟨hblock, nofun⟩⟩
    · rw [if_neg hfits, if_neg hfits]
      obtain ⟨kept, htracks, hkept, hspared⟩ := ih h.tail
      refine ⟨kept, htracks, hkept, fun block hblock => ?_⟩
      obtain ⟨hrest, hnot⟩ := hspared block hblock
      refine ⟨List.mem_cons_of_mem _ hrest, fun hmem => ?_⟩
      rcases List.mem_cons.mp hmem with heq | hmem
      · apply (List.nodup_cons.mp h.distinct).1
        rw [← heq]
        exact List.mem_map_of_mem hrest
      · exact hnot hmem

theorem pickVictims (budget : ℕ) (h : Lists cache held) : ∃ kept, Lists (cache.pickVictims budget).2 kept
    ∧ kept.map Held.block = trim Block.length budget (held.map Held.block)
    ∧ ∀ block ∈ kept, block.key ∉ (cache.pickVictims budget).1 := by
  rw [BlockCache.pickVictims, h.byAge]
  by_cases hfits : cache.bytes ≤ budget
  · rw [if_pos hfits]
    refine ⟨held, h, ?_, fun _ _ => nofun⟩
    cases held with
    | nil => rfl
    | cons head rest =>
      rw [List.map_cons, trim, ← List.map_cons, total_blocks, ← h.bytes, if_pos hfits]
  · rw [if_neg hfits]
    obtain ⟨kept, htracks, hkept, hspared⟩ := h.evict budget
    exact ⟨kept, htracks, hkept, fun block hblock => (hspared block hblock).2⟩

theorem unlink (h : Lists cache held) {victims : List Key} (hvictims : ∀ block ∈ held, block.key ∉ victims) :
    Lists (cache.unlink victims) held := by
  refine ⟨h.index, fun block hblock => ?_, h.distinct, h.order, h.fresh, h.bytes⟩
  obtain ⟨hfile, hdata⟩ := h.files block hblock
  refine ⟨?_, hdata⟩
  have hnot := hvictims block hblock
  rw [BlockCache.unlink]
  clear hvictims
  generalize cache.files = files at hfile
  induction victims generalizing files with
  | nil => exact hfile
  | cons victim rest ih =>
    rw [List.mem_cons, not_or] at hnot
    obtain ⟨hne, hrest⟩ := hnot
    apply ih hrest
    rw [lookup_erase, if_neg hne]
    exact hfile

theorem recorded (h : Lists cache held) (hdata : data ≠ []) (key : Key) :
    Lists ((cache.wroteFile key data).recorded key data)
      (without Held.key key held ++ [⟨key, data, cache.nextTick⟩]) := by
  have hold : ((cache.blocks.lookup key).map Prod.fst).getD 0 = ((find Held.key key held).map Held.length).getD 0 := by
    rw [h.index]
    cases find Held.key key held <;> rfl
  have htotal := total_without Held.length h.distinct key
  have hbytes := h.bytes
  apply h.use hdata rfl rfl
  · exact AList.lookup_insert _
  · intro key' hkey
    exact AList.lookup_insert_ne hkey
  · rw [BlockCache.recorded, BlockCache.wroteFile]
    dsimp only
    rw [hold]
    omega

theorem store {budget : ℕ} (h : Lists cache held) (hmode : cache.mode = .stream budget) (hdata : data ≠ [])
    (key : Key) :
    ∃ held', Lists (cache.store key data) held'
      ∧ held'.map Held.block = put Block.key Block.length budget ⟨key, data⟩ (held.map Held.block) := by
  have hpick : (cache.wroteFile key data).recordAndPick key data
      = ((cache.wroteFile key data).recorded key data).pickVictims budget := by
    rw [BlockCache.recordAndPick, BlockCache.wroteFile, hmode]
  obtain ⟨kept, htracks, hkept, hspared⟩ := (h.recorded hdata key).pickVictims budget
  refine ⟨kept, ?_, ?_⟩
  · rw [BlockCache.store, if_neg (by simpa using hdata), hpick]
    exact htracks.unlink hspared
  · rw [hkept, List.map_append, put, ← without_blocks]
    rfl

theorem forgetAll (h : Lists cache held) (keys : List Key) :
    Lists (keys.foldl BlockCache.forget cache) (held.filter fun block => decide (block.key ∉ keys)) := by
  induction keys generalizing cache held with
  | nil =>
    have hall : (held.filter fun block => decide (block.key ∉ ([] : List Key))) = held := by simp
    rw [hall]
    exact h
  | cons key rest ih =>
    have hrest := ih (h.forget key)
    rw [without, List.filter_filter] at hrest
    have hboth : (held.filter fun block => decide (block.key ∉ key :: rest))
        = held.filter fun block => decide (block.key ∉ rest) && decide (block.key ≠ key) := by
      apply List.filter_congr
      intro block _
      rw [Bool.eq_iff_iff]
      simp [and_comm]
    rw [hboth]
    exact hrest

theorem invalidate (h : Lists cache held) (nodeId : Uuid) : Lists (cache.invalidate nodeId)
    (held.filter fun block => decide (block.key.nodeId ≠ nodeId)) := by
  have hkeys : ∀ block ∈ held, block.key ∈ cache.blocks.entries.map Sigma.fst := by
    intro block hblock
    exact List.mem_map_of_mem (f := Sigma.fst) (h.perm.mem_iff.mp (List.mem_map_of_mem hblock))
  have hforgotten := h.forgetAll ((cache.blocks.entries.map Sigma.fst).filter fun key => key.nodeId == nodeId)
  have hsame : (held.filter fun block => decide (block.key ∉
      (cache.blocks.entries.map Sigma.fst).filter fun key => key.nodeId == nodeId))
      = held.filter fun block => decide (block.key.nodeId ≠ nodeId) := by
    apply List.filter_congr
    intro block hblock
    rw [decide_eq_decide, List.mem_filter, beq_iff_eq, not_and]
    exact ⟨fun himp => himp (hkeys block hblock), fun hne _ => hne⟩
  rw [hsame] at hforgotten
  refine ⟨hforgotten.index, fun block hblock => ?_, hforgotten.distinct, hforgotten.order, hforgotten.fresh,
    hforgotten.bytes⟩
  obtain ⟨hfile, hdata⟩ := hforgotten.files block hblock
  refine ⟨?_, hdata⟩
  rw [BlockCache.invalidate]
  dsimp only
  rw [lookup_keep, hfile]
  have hnode := of_decide_eq_true (List.mem_filter.mp hblock).2
  simp [hnode]

end Lists

end Dcfs.Fuse
