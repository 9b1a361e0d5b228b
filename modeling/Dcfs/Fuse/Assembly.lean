import Dcfs.Fuse.Blocks
import Dcfs.Library.Sparse

namespace Dcfs.Fuse

open Sparse

variable {whole : Bytes} {offset size : ℕ}

def blockOf (whole : Bytes) (index : ℕ) : Bytes := (whole.drop (index * blockSize)).take blockSize

theorem blockWindow_blockOf (hlen : offset + size ≤ whole.length) (index : ℕ) :
    blockWindow offset size index (blockOf whole index) = (cut blockSize offset size index).map (padded whole) := by
  unfold blockWindow cut blockOf
  -- The argument is the same for every size of a block; the number itself is only in the way.
  generalize blockSize = block
  have hblock : ((whole.drop (index * block)).take block).length = min block (whole.length - index * block) := by
    rw [List.length_take, List.length_drop]
  rw [hblock]
  refine eq_map_of_padded ?_ fun q hq => ?_
  · rw [List.length_drop, List.length_take, hblock]
    omega
  · rw [padded_drop, padded_take, if_pos (by omega), padded_take, if_pos (by omega), padded_drop]
    congr 1
    omega

theorem flatMap_blockWindow (hsize : size ≠ 0) (hlen : offset + size ≤ whole.length) :
    (List.range' (offset / blockSize) ((offset + size - 1) / blockSize - offset / blockSize + 1)).flatMap
      (fun index => blockWindow offset size index (blockOf whole index)) = (whole.drop offset).take size := by
  have hpos : 0 < blockSize := by decide
  have hle : offset / blockSize ≤ (offset + size - 1) / blockSize := Nat.div_le_div_right (by omega)
  have hlast := Nat.div_mul_le_self (offset + size - 1) blockSize
  have hnext := Nat.lt_div_mul_add hpos (a := offset + size - 1)
  have hsum : offset / blockSize + ((offset + size - 1) / blockSize - offset / blockSize)
    = (offset + size - 1) / blockSize := by
    omega
  simp only [blockWindow_blockOf hlen]
  rw [← List.map_flatMap, flatMap_cut hpos (by rw [hsum]; omega), hsum, min_eq_left (by omega), Nat.add_sub_cancel_left]
  refine (eq_map_of_padded ?_ fun q hq => ?_).symm
  · rw [List.length_take, List.length_drop]
    omega
  · rw [padded_take, if_pos hq, padded_drop]

theorem blockWindow_eq_nil {index : ℕ} (h : whole.length ≤ max offset (index * blockSize)) :
    blockWindow offset size index (blockOf whole index) = [] := by
  unfold blockWindow blockOf
  generalize blockSize = block at h ⊢
  rw [List.drop_eq_nil_iff, List.length_take, List.length_take, List.length_drop]
  omega

theorem blockWindow_min (h : offset ≤ whole.length) (index : ℕ) :
    blockWindow offset size index (blockOf whole index)
      = blockWindow offset (min size (whole.length - offset)) index (blockOf whole index) := by
  unfold blockWindow blockOf
  generalize blockSize = block
  simp only [List.length_take, List.length_drop]
  congr 2
  omega

theorem flatMap_blockWindow_past {first n k : ℕ} (hk : k ≤ n)
    (hend : ∀ index, first + k ≤ index → index < first + n → whole.length ≤ index * blockSize) :
    (List.range' first n).flatMap (fun index => blockWindow offset size index (blockOf whole index))
      = (List.range' first k).flatMap (fun index => blockWindow offset size index (blockOf whole index)) := by
  rw [Blocks.flatMap_split _ hk, List.append_right_eq_self, List.flatMap_eq_nil_iff]
  intro index hmem
  rw [List.mem_range'_1] at hmem
  have hpast := hend index hmem.1 (by omega)
  exact blockWindow_eq_nil (by omega)

theorem flatMap_blocksOf (whole : Bytes) (offset size : ℕ) :
    (blocksOf offset size).flatMap (fun index => blockWindow offset size index (blockOf whole index))
      = (whole.drop offset).take size := by
  unfold blocksOf
  split_ifs with hsize
  · rw [hsize, List.take_zero, List.flatMap_nil]
  · by_cases hpast : whole.length ≤ offset
    · rw [List.drop_eq_nil_of_le hpast, List.take_nil, List.flatMap_eq_nil_iff]
      intro index _
      exact blockWindow_eq_nil (by omega)
    · have hin : offset ≤ whole.length := by omega
      have hpos : 0 < blockSize := by decide
      rw [List.flatMap_congr fun index _ => blockWindow_min hin index]
      have hmin : (whole.drop offset).take size = (whole.drop offset).take (min size (whole.length - offset)) := by
        rw [List.take_eq_take_iff, List.length_drop]
        omega
      rw [hmin]
      generalize hkept : min size (whole.length - offset) = kept
      have hle : (offset + kept - 1) / blockSize ≤ (offset + size - 1) / blockSize := Nat.div_le_div_right (by omega)
      rw [flatMap_blockWindow_past (k := (offset + kept - 1) / blockSize - offset / blockSize + 1) (by omega),
        flatMap_blockWindow (by omega) (by omega)]
      intro index hlow hhigh
      -- there are such blocks only if the range goes past the end
      have hcut : kept ≠ size := by
        rintro rfl
        omega
      have hnext := Nat.lt_div_mul_add hpos (a := offset + kept - 1)
      have hindex : (offset + kept - 1) / blockSize + 1 ≤ index := by omega
      have hmul := Nat.mul_le_mul_right blockSize hindex
      rw [Nat.add_mul, Nat.one_mul] at hmul
      omega

theorem length_blockWindow_le {block : Bytes} (hblock : block.length ≤ blockSize) (index : ℕ) :
    (blockWindow offset size index block).length ≤ (cut blockSize offset size index).length := by
  unfold blockWindow cut
  generalize blockSize = most at hblock ⊢
  rw [List.length_drop, List.length_take, List.length_range']
  omega

theorem length_flatMap_blocksOf_le {block : ℕ → Bytes}
    (hblock : ∀ index ∈ blocksOf offset size, (block index).length ≤ blockSize) :
    ((blocksOf offset size).flatMap fun index => blockWindow offset size index (block index)).length ≤ size := by
  have hcut : ((blocksOf offset size).flatMap (cut blockSize offset size)).length ≤ size := by
    unfold blocksOf
    split_ifs with hsize
    · exact Nat.zero_le _
    · have hpos : 0 < blockSize := by decide
      have hle : offset / blockSize ≤ (offset + size - 1) / blockSize := Nat.div_le_div_right (by omega)
      have hlast := Nat.div_mul_le_self (offset + size - 1) blockSize
      have hsum : offset / blockSize + ((offset + size - 1) / blockSize - offset / blockSize)
          = (offset + size - 1) / blockSize := by omega
      rw [flatMap_cut hpos (by rw [hsum]; omega), List.length_range']
      omega
  refine le_trans ?_ hcut
  rw [List.length_flatMap, List.length_flatMap]
  exact List.sum_le_sum fun index hmem => length_blockWindow_le (hblock index hmem) index

end Dcfs.Fuse
