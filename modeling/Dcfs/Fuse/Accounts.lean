import Dcfs.Fuse.Interleaved
import Dcfs.Library.Totals

namespace Dcfs.Fuse

open Tables

namespace BlockCache

variable {cache : BlockCache} {key key' : Key} {data : Bytes} {budget : ℕ}

def Exact (cache : BlockCache) : Prop := cache.bytes = total Prod.fst cache.blocks

theorem Exact.forget (h : cache.Exact) (key : Key) : (cache.forget key).Exact := by
  unfold BlockCache.forget
  split
  · rename_i size tick hkey
    have htotal := total_erase Prod.fst hkey
    rw [Exact] at h ⊢
    dsimp only at htotal ⊢
    omega
  · exact h

theorem Exact.used (h : cache.Exact) {size tick : ℕ} (hkey : cache.blocks.lookup key = some (size, tick)) :
    (cache.used key size).Exact := by
  have htotal := total_replace Prod.fst hkey (size, cache.nextTick)
  rw [Exact] at h ⊢
  rw [BlockCache.used]
  dsimp only at htotal ⊢
  omega

theorem Exact.recorded (h : cache.Exact) (key : Key) (data : Bytes) : (cache.recorded key data).Exact := by
  rw [Exact] at h ⊢
  rw [BlockCache.recorded]
  dsimp only
  cases hkey : cache.blocks.lookup key with
  | none =>
    rw [total_insert Prod.fst hkey]
    simp only [Option.map_none, Option.getD_none]
    omega
  | some old =>
    have htotal := total_replace Prod.fst hkey (data.length, cache.nextTick)
    have hold := total_erase Prod.fst hkey
    simp only [Option.map_some, Option.getD_some]
    dsimp only at htotal
    omega

theorem Exact.evict (h : cache.Exact) (budget : ℕ) (keys : List Key) : (evict budget keys cache).2.Exact := by
  induction keys generalizing cache with
  | nil => exact h
  | cons key rest ih =>
    unfold BlockCache.evict
    split_ifs
    · exact h
    · exact ih (h.forget key)

theorem lookup_forget (key key' : Key) :
    (cache.forget key).blocks.lookup key' = if key' = key then none else cache.blocks.lookup key' := by
  unfold forget
  split
  · exact lookup_erase _ _ _
  · rename_i hkey
    split_ifs with heq
    · rw [heq, hkey]
    · rfl

theorem evict_bytes (h : cache.Exact) {keys : List Key} (hkeys : ∀ key, cache.blocks.lookup key ≠ none → key ∈ keys) :
    (evict budget keys cache).2.bytes ≤ budget := by
  induction keys generalizing cache with
  | nil =>
    have hnone : ∀ key, cache.blocks.lookup key = none := by
      intro key
      by_contra hne
      cases hkeys key hne
    have htotal : total Prod.fst cache.blocks = total Prod.fst (∅ : Table Key (ℕ × ℕ)) := total_congr Prod.fst hnone
    rw [BlockCache.evict, h, htotal]
    exact Nat.zero_le _
  | cons key rest ih =>
    unfold BlockCache.evict
    split_ifs with hfits
    · exact hfits
    · apply ih (h.forget key)
      intro key' hkey'
      rw [lookup_forget] at hkey'
      split_ifs at hkey' with heq
      · exact absurd rfl hkey'
      · exact (List.mem_cons.mp (hkeys key' hkey')).resolve_left heq

theorem evict_lookup (budget : ℕ) (keys : List Key) (key : Key) :
    (evict budget keys cache).2.blocks.lookup key = cache.blocks.lookup key ∨ key ∈ (evict budget keys cache).1 := by
  induction keys generalizing cache with
  | nil => exact .inl rfl
  | cons head rest ih =>
    unfold BlockCache.evict
    split_ifs
    · exact .inl rfl
    · by_cases heq : key = head
      · exact .inr (heq ▸ List.mem_cons_self)
      · rcases @ih (cache.forget head) with hsame | hmem
        · left
          rw [hsame, lookup_forget, if_neg heq]
        · exact .inr (List.mem_cons_of_mem _ hmem)

theorem mem_byAge (h : cache.blocks.lookup key ≠ none) : key ∈ cache.byAge := by
  obtain ⟨value, hvalue⟩ := Option.ne_none_iff_exists'.mp h
  exact List.mem_map_of_mem (f := Sigma.fst) ((List.mem_insertionSort _).mpr (lookup_eq_some_iff.mp hvalue))

structure Within (budget : ℕ) (cache : BlockCache) : Prop where
  mode : cache.mode = .stream budget
  exact : cache.Exact
  bytes : cache.bytes ≤ budget

theorem recordAndPick_eq (hmode : cache.mode = .stream budget) (key : Key) (data : Bytes) :
    cache.recordAndPick key data = (cache.recorded key data).pickVictims budget := by
  rw [recordAndPick, hmode]

theorem Within.recordAndPick (h : Within budget cache) (key : Key) (data : Bytes) :
    Within budget (cache.recordAndPick key data).2 := by
  have hexact := h.exact.recorded key data
  rw [recordAndPick_eq h.mode, pickVictims]
  split_ifs with hfits
  · exact ⟨h.mode, hexact, hfits⟩
  · exact ⟨(evict_mode _ _).trans h.mode, hexact.evict _ _, evict_bytes hexact fun _ => mem_byAge⟩

theorem recordAndPick_lookup (h : Within budget cache) (key : Key) (data : Bytes) (key' : Key) :
    (cache.recordAndPick key data).2.blocks.lookup key' =
        (if key' = key then some (data.length, cache.nextTick) else cache.blocks.lookup key')
      ∨ key' ∈ (cache.recordAndPick key data).1 := by
  have hrecorded : (cache.recorded key data).blocks.lookup key' =
      if key' = key then some (data.length, cache.nextTick) else cache.blocks.lookup key' := lookup_insert _ _ _ _
  rw [← hrecorded, recordAndPick_eq h.mode, pickVictims]
  split_ifs
  · exact .inl rfl
  · exact evict_lookup _ _ _

end BlockCache

end Dcfs.Fuse
