import Dcfs.Library.Machine
import Dcfs.Library.Outcome

namespace Dcfs.Plan

open Machine

inductive ChunkPlanError
  | zeroChunkSize | sizeOverflow
  deriving DecidableEq

def ChunkPlanError.text : ChunkPlanError → String
  | .zeroChunkSize => "chunk size must be greater than zero"
  | .sizeOverflow => "file size overflow"

structure ChunkSpec where
  index : UInt64
  offset : UInt64
  len : UInt64
  deriving DecidableEq, Inhabited

-- `end`, which saturates.
def ChunkSpec.stop (c : ChunkSpec) : ℕ := min (c.offset.toNat + c.len.toNat) (2 ^ 64 - 1)

def okOr {ε α : Type} (x : Option α) (e : ε) : Except ε α := x.elim (.error e) .ok

def planChunk (fileSize chunkSize i : UInt64) : Except ChunkPlanError ChunkSpec := do
  let offset ← okOr (checkedMul i chunkSize) .sizeOverflow
  let remaining ← okOr (checkedSub fileSize offset) .sizeOverflow
  return ⟨i, offset, min remaining chunkSize⟩

def planChunks (fileSize chunkSize : UInt64) : Except ChunkPlanError (List ChunkSpec) :=
  if chunkSize = 0 then .error .zeroChunkSize
  else if fileSize = 0 then .ok []
  else (List.range (divCeil fileSize chunkSize).toNat).mapM fun i => planChunk fileSize chunkSize (UInt64.ofNat i)

structure Tiles (fileSize chunkSize : UInt64) (chunks : List ChunkSpec) : Prop where
  nonempty : chunks ≠ []
  index : ∀ (i : ℕ) (c : ChunkSpec), chunks[i]? = some c → c.index.toNat = i
  start : ∀ c : ChunkSpec, chunks[0]? = some c → c.offset = 0
  adjacent : ∀ (i : ℕ) (c d : ChunkSpec), chunks[i]? = some c → chunks[i + 1]? = some d → d.offset.toNat = c.stop
  full : ∀ (i : ℕ) (c d : ChunkSpec), chunks[i]? = some c → chunks[i + 1]? = some d → c.len = chunkSize
  last : ∀ c : ChunkSpec, chunks.getLast? = some c → 1 ≤ c.len ∧ c.len ≤ chunkSize ∧ c.stop = fileSize.toNat

section Turn

variable {fileSize chunkSize : UInt64} {i : ℕ}

theorem planChunk_ok (h : i * chunkSize.toNat < fileSize.toNat) (hi : i < 2 ^ 64) :
    ∃ c, planChunk fileSize chunkSize (UInt64.ofNat i) = .ok c ∧ c.index.toNat = i
      ∧ c.offset.toNat = i * chunkSize.toNat
      ∧ c.len.toNat = min (fileSize.toNat - i * chunkSize.toNat) chunkSize.toNat := by
  have hlt := fileSize.toNat_lt
  have hindex : (UInt64.ofNat i).toNat = i := UInt64.toNat_ofNat_of_lt' hi
  obtain ⟨offset, hmul, hoffset⟩ := checkedMul_of_lt (a := UInt64.ofNat i) (b := chunkSize) (by rw [hindex]; omega)
  rw [hindex] at hoffset
  obtain ⟨remaining, hsub, hremaining⟩ := checkedSub_of_le (a := fileSize) (b := offset) (by omega)
  refine ⟨⟨UInt64.ofNat i, offset, min remaining chunkSize⟩, ?_, hindex, hoffset, ?_⟩
  · rw [planChunk, hmul]
    change (do let remaining ← okOr (checkedSub fileSize offset) _; pure _) = _
    rw [hsub]
    rfl
  · change (if remaining ≤ chunkSize then remaining else chunkSize).toNat = _
    split_ifs with hle <;> rw [UInt64.le_iff_toNat_le] at hle <;> omega

end Turn

theorem planChunks_eq {fileSize chunkSize : UInt64} (hfile : 0 < fileSize) (hchunk : 0 < chunkSize) :
    ∃ chunks, planChunks fileSize chunkSize = .ok chunks ∧ chunks.length = (divCeil fileSize chunkSize).toNat
      ∧ ∀ (i : ℕ) (c : ChunkSpec), chunks[i]? = some c → i * chunkSize.toNat < fileSize.toNat ∧ c.index.toNat = i
        ∧ c.offset.toNat = i * chunkSize.toNat
        ∧ c.len.toNat = min (fileSize.toNat - i * chunkSize.toNat) chunkSize.toNat := by
  have hturn : ∀ i ∈ List.range (divCeil fileSize chunkSize).toNat,
      ∃ c, planChunk fileSize chunkSize (UInt64.ofNat i) = .ok c ∧ c.index.toNat = i
        ∧ c.offset.toNat = i * chunkSize.toNat
        ∧ c.len.toNat = min (fileSize.toNat - i * chunkSize.toNat) chunkSize.toNat := by
    intro i hi
    have hlt := List.mem_range.mp hi
    exact planChunk_ok ((lt_divCeil_iff hchunk i).mp hlt) (lt_trans hlt (UInt64.toNat_lt _))
  choose! spec hspec using hturn
  refine ⟨(List.range (divCeil fileSize chunkSize).toNat).map spec, ?_, by simp, fun i c hget => ?_⟩
  · rw [planChunks, if_neg (UInt64.pos_iff_ne_zero.mp hchunk), if_neg (UInt64.pos_iff_ne_zero.mp hfile)]
    exact Outcomes.mapM_ok fun i hi => (hspec i hi).1
  · rw [List.getElem?_map, Option.map_eq_some_iff] at hget
    obtain ⟨j, hj, rfl⟩ := hget
    obtain ⟨hlt, hij⟩ := List.getElem?_eq_some_iff.mp hj
    rw [List.length_range] at hlt
    rw [List.getElem_range] at hij
    subst hij
    exact ⟨(lt_divCeil_iff hchunk i).mp hlt, (hspec i (List.mem_range.mpr hlt)).2⟩

theorem planChunks_no_overflow (fileSize chunkSize : UInt64) :
    planChunks fileSize chunkSize ≠ .error .sizeOverflow := by
  by_cases hchunk : chunkSize = 0
  · rw [planChunks, if_pos hchunk]
    nofun
  · by_cases hfile : fileSize = 0
    · rw [planChunks, if_neg hchunk, if_pos hfile]
      nofun
    · obtain ⟨chunks, hok, -⟩ := planChunks_eq (UInt64.pos_iff_ne_zero.mpr hfile) (UInt64.pos_iff_ne_zero.mpr hchunk)
      rw [hok]
      nofun

theorem plan_chunks_tiles : (∀ fileSize chunkSize, planChunks fileSize chunkSize ≠ .error .sizeOverflow)
    ∧ ∀ {fileSize chunkSize : UInt64}, 0 < fileSize → 0 < chunkSize →
      ∃ chunks, planChunks fileSize chunkSize = .ok chunks ∧ Tiles fileSize chunkSize chunks := by
  refine ⟨planChunks_no_overflow, fun {fileSize chunkSize} hfile hchunk => ?_⟩
  obtain ⟨chunks, hok, hlen, hspec⟩ := planChunks_eq hfile hchunk
  have hsize := fileSize.toNat_lt
  have hpos : 0 < chunks.length := by
    rw [hlen, lt_divCeil_iff hchunk, Nat.zero_mul]
    exact UInt64.lt_iff_toNat_lt.mp hfile
  have hnext : ∀ i, i + 1 < chunks.length → i * chunkSize.toNat + chunkSize.toNat < fileSize.toNat := by
    intro i hi
    rw [hlen, lt_divCeil_iff hchunk, Nat.succ_mul] at hi
    exact hi
  refine ⟨chunks, hok, ?_, ?_, ?_, ?_, ?_, ?_⟩
  · exact List.ne_nil_of_length_pos hpos
  · intro i c hc
    exact (hspec i c hc).2.1
  · intro c hc
    apply UInt64.toNat_inj.mp
    rw [(hspec 0 c hc).2.2.1, Nat.zero_mul]
    rfl
  · intro i c d hc hd
    obtain ⟨hlt, -⟩ := List.getElem?_eq_some_iff.mp hd
    have := hnext i hlt
    obtain ⟨-, -, hoffset, hclen⟩ := hspec i c hc
    rw [(hspec (i + 1) d hd).2.2.1, ChunkSpec.stop, hoffset, hclen, Nat.succ_mul]
    omega
  · intro i c d hc hd
    obtain ⟨hlt, -⟩ := List.getElem?_eq_some_iff.mp hd
    have := hnext i hlt
    apply UInt64.toNat_inj.mp
    rw [(hspec i c hc).2.2.2]
    omega
  · intro c hc
    rw [List.getLast?_eq_getElem?] at hc
    obtain ⟨hlt, -, hoffset, hclen⟩ := hspec _ c hc
    have hend : ¬ chunks.length * chunkSize.toNat < fileSize.toNat := by
      rw [← lt_divCeil_iff hchunk, hlen]
      exact lt_irrefl _
    have hsucc : chunks.length * chunkSize.toNat = (chunks.length - 1) * chunkSize.toNat + chunkSize.toNat := by
      rw [← Nat.succ_mul]
      congr 1
      omega
    have hunit := UInt64.lt_iff_toNat_lt.mp hchunk
    change 0 < chunkSize.toNat at hunit
    rw [UInt64.le_iff_toNat_le, UInt64.le_iff_toNat_le, ChunkSpec.stop, hoffset, hclen]
    change 1 ≤ _ ∧ _
    omega

theorem plan_chunks_tiles_largest : ∃ chunks, planChunks 0xffffffffffffffff 0x8000000000000000 = .ok chunks
    ∧ Tiles 0xffffffffffffffff 0x8000000000000000 chunks :=
  plan_chunks_tiles.2 (by decide) (by decide)

end Dcfs.Plan
