import Dcfs.File.Touched
import Dcfs.Server.Versions
import Dcfs.Library.Calc

/-! The arithmetic of the handlers as the machine does it, and when all of it is exact. -/

namespace Dcfs

open Machine Machine.Calc

def pieceCalc (partSize offset size first next : ℕ) : Calc Unit := do
  let chunkStart ← mul next partSize
  let stop ← add offset size
  let chunkEnd ← add chunkStart partSize
  let wantTo ← sub (min stop chunkEnd) chunkStart
  let _ ← sub next first
  let want ← sub wantTo (offset - chunkStart)
  alloc want 1
  let _ ← add next 1
  pure ()

def readCalc (fileSize partSize offset size : ℕ) : Calc Unit := do
  -- `read_bytes`, once it knows the version to read.
  let _ ← sub fileSize offset
  let stop ← add offset size
  let last ← sub stop 1
  let _ ← toI64 (offset / partSize)
  let _ ← toI64 (last / partSize)
  let span ← sub (last / partSize) (offset / partSize)
  let count ← add span 1
  alloc count vecBytes
  forEach (pieceCalc partSize offset size (offset / partSize)) (List.range' (offset / partSize) count)
  alloc size 1
  pure ()

def copyCalc (overlapStart overlapEnd chunkStart chunkLen offset len : ℕ) : Calc Unit :=
  if overlapStart < overlapEnd then do
    let targetStart ← sub overlapStart chunkStart
    let targetStop ← sub overlapEnd chunkStart
    Calc.slice targetStart targetStop chunkLen
    let start ← sub overlapStart offset
    let stop ← sub overlapEnd offset
    Calc.slice start stop len
    copy (targetStop - targetStart) (stop - start)
    pure ()
  else pure ()

def chunkCalc (plan : WritePlan) (len index : ℕ) : Calc Unit := do
  -- One round of the loop of `write_bytes`.
  let chunkStart ← mul index plan.partSize
  let rest ← sub plan.newSize chunkStart
  let stop ← add plan.offset len
  let chunkEnd ← add chunkStart (min plan.partSize rest)
  alloc (min plan.partSize rest) 1
  copyCalc (max plan.offset chunkStart) (min stop chunkEnd) chunkStart (min plan.partSize rest) plan.offset len
  let _ ← toI64 index
  let _ ← toI64 chunkStart
  let _ ← toI32 (min plan.partSize rest)
  pure ()

def writeCalc (partSize oldSize offset len : ℕ) : Calc Unit := do
  -- `write_bytes`, once it knows the version to add to.
  let stop ← add offset len
  let _ ← sub stop 1
  let plan : WritePlan := { partSize := partSize, offset := offset, stop := stop, oldSize := oldSize }
  let _ ← toI64 plan.writeFirst
  let _ ← toI64 (min plan.writeLast plan.chunkCount)
  forEach (fun tail => do let _ ← toI64 tail) plan.rewriteLast.toList
  forEach (chunkCalc plan len) plan.touched
  let _ ← toI64 plan.newSize
  pure ()

def uploadCalc (partSize index len : ℕ) : Calc Unit := do
  let _ ← toI64 index
  let logicalOffset ← mul index partSize
  let _ ← toI64 logicalOffset
  let _ ← toI32 len
  let _ ← add len (Crypto.ciphertextOverhead len)
  pure ()

def commitCalc (sizes : List ℕ) (req : CommitVersionRequest) : Calc Unit := do
  -- What `commit_version` goes on with once the manifest adds up to the total.
  let total ← sumFrom 0 sizes
  if total = req.totalSize then do
    let _ ← toI64 req.expectedGeneration
    let _ ← toI64 req.totalSize
    let _ ← add req.expectedGeneration 1
    pure ()
  else pure ()

theorem WritePlan.Valid.touched_start {plan : WritePlan} (h : plan.Valid) {i : ℕ} (hi : i ∈ plan.touched) :
    i * plan.partSize < plan.newSize := by
  have hstop : plan.stop ≤ plan.newSize := le_max_right _ _
  have hold : plan.oldSize ≤ plan.newSize := le_max_left _ _
  have hnonempty := h.nonempty
  rcases h.mem_touched.mp hi with ⟨-, hlast⟩ | htail
  · rw [h.writeLast_eq, Nat.le_div_iff_mul_le h.partSize_pos] at hlast
    omega
  · simp only [WritePlan.rewriteLast, Option.ite_none_right_eq_some, Option.some.injEq] at htail
    obtain ⟨⟨-, hmod, -⟩, rfl⟩ := htail
    have hsplit := Nat.div_add_mod' plan.oldSize plan.partSize
    omega

section write

variable {plan : WritePlan} {len : ℕ}

theorem copyCalc_fits {overlapStart overlapEnd chunkStart chunkLen offset : ℕ} (hstart : chunkStart ≤ overlapStart)
    (hoffset : offset ≤ overlapStart) (hchunk : overlapEnd ≤ chunkStart + chunkLen)
    (hbody : overlapEnd ≤ offset + len) :
    (copyCalc overlapStart overlapEnd chunkStart chunkLen offset len).Fits := by
  unfold copyCalc
  split_ifs with hmeet
  · simp only [sub_fits, slice_fits, copy_fits, pure_fits, and_true]
    omega
  · exact pure_fits ()

theorem chunkCalc_fits (hplan : plan.Valid) (hstop : plan.stop = plan.offset + len)
    {i : ℕ} (hi : i ∈ plan.touched) : (chunkCalc plan len i).Fits ↔ plan.chunkLen i < 2 ^ 31 := by
  have hstart := hplan.touched_start hi
  have hnew := hplan.newSize_lt
  have hlt := hplan.touched_lt hi
  have hend := hplan.stop_lt
  have hcopy : (copyCalc (max plan.offset (i * plan.partSize)) (min (plan.offset + len) (i * plan.partSize
      + min plan.partSize (plan.newSize - i * plan.partSize))) (i * plan.partSize)
      (min plan.partSize (plan.newSize - i * plan.partSize)) plan.offset len).Fits :=
    copyCalc_fits (le_max_right _ _) (le_max_left _ _) (min_le_right _ _) (min_le_left _ _)
  simp only [chunkCalc, mul_fits, sub_fits, add_fits, alloc_fits, bind_fits (x := copyCalc ..), toI64_fits, toI32_fits,
    pure_fits, and_true]
  rw [WritePlan.chunkLen]
  constructor
  · intro h
    exact h.2.2.2.2.2.2.2.2
  · intro h
    generalize i * plan.partSize = start at hstart hcopy h ⊢
    refine ⟨?_, ?_, ?_, ?_, ?_, hcopy, ?_, ?_, h⟩ <;> omega

theorem writeCalc_fits {partSize oldSize offset : ℕ} (hpos : 0 < partSize)
    (hold : oldSize < 2 ^ 63) (hlen : 0 < len) :
    (writeCalc partSize oldSize offset len).Fits ↔ offset + len < 2 ^ 63
      ∧ ∀ i ∈ (WritePlan.mk partSize offset (offset + len) oldSize).touched,
        (WritePlan.mk partSize offset (offset + len) oldSize).chunkLen i < 2 ^ 31 := by
  simp only [writeCalc, add_fits, sub_fits, toI64_fits, forEach_fits, pure_fits, and_true]
  have hvalid : offset + len < 2 ^ 63 → (WritePlan.mk partSize offset (offset + len) oldSize).Valid := fun hend =>
    ⟨hpos, Nat.lt_add_of_pos_right hlen, hend, hold⟩
  generalize hplan : WritePlan.mk partSize offset (offset + len) oldSize = plan at hvalid ⊢
  have hstop : plan.stop = plan.offset + len := by rw [← hplan]
  have hnew : plan.newSize = max oldSize (offset + len) := by rw [← hplan]; rfl
  have hfirst : plan.writeFirst ≤ offset := by rw [← hplan]; exact Nat.div_le_self ..
  constructor
  · rintro ⟨-, -, -, -, -, hchunks, hsize⟩
    have hend : offset + len < 2 ^ 63 := by omega
    exact ⟨hend, fun i hi => (chunkCalc_fits (hvalid hend) hstop hi).mp (hchunks i hi)⟩
  · rintro ⟨hend, hshort⟩
    have hlast := (hvalid hend).writeLast_lt
    have hsize : plan.newSize < 2 ^ 63 := (hvalid hend).newSize_lt
    refine ⟨by omega, by omega, by omega, by omega, fun tail htail => ?_, fun i hi => ?_, hsize⟩
    · exact (hvalid hend).rewriteLast_lt (Option.mem_toList.mp htail)
    · exact (chunkCalc_fits (hvalid hend) hstop hi).mpr (hshort i hi)

end write

section read

variable {fileSize partSize offset size : ℕ}

theorem pieceCalc_fits {first next : ℕ} (hpart : partSize < 2 ^ 63) (hend : offset + size < 2 ^ 63)
    (hfirst : first ≤ next) (hstart : next * partSize < offset + size) (hmeets : offset < next * partSize + partSize)
    (hnext : next < 2 ^ 63) : (pieceCalc partSize offset size first next).Fits := by
  simp only [pieceCalc, mul_fits, add_fits, sub_fits, alloc_fits, pure_fits, and_true]
  generalize next * partSize = start at hstart hmeets ⊢
  omega

theorem readCalc_fits (hpos : 0 < partSize) (hpart : partSize < 2 ^ 63) (hsize : 0 < size)
    (hend : offset + size ≤ fileSize) (hfile : fileSize < 2 ^ 63) :
    (readCalc fileSize partSize offset size).Fits ↔
      partsSpanned partSize offset size * vecBytes < 2 ^ 63 := by
  rw [partsSpanned]
  have hfirst := Nat.div_le_self offset partSize
  have hlast := Nat.div_le_self (offset + size - 1) partSize
  have horder : offset / partSize ≤ (offset + size - 1) / partSize := Nat.div_le_div_right (by omega)
  have hpieces : ∀ next ∈ List.range' (offset / partSize) ((offset + size - 1) / partSize - offset / partSize + 1),
      (pieceCalc partSize offset size (offset / partSize) next).Fits := by
    intro next hnext
    rw [List.mem_range'_1] at hnext
    have hle : next ≤ (offset + size - 1) / partSize := by omega
    have hstart := (Nat.le_div_iff_mul_le hpos).mp hle
    have hmeets : offset < next * partSize + partSize := by
      have := Nat.lt_mul_div_succ offset hpos
      have := Nat.mul_le_mul_left partSize hnext.1
      rw [Nat.mul_comm next]
      rw [Nat.mul_add] at *
      omega
    apply pieceCalc_fits hpart (by omega) hnext.1 (by omega) hmeets (by omega)
  simp only [readCalc, sub_fits, add_fits, toI64_fits, alloc_fits, forEach_fits, pure_fits, and_true]
  generalize offset / partSize = first at hfirst horder hpieces ⊢
  generalize (offset + size - 1) / partSize = last at hlast horder hpieces ⊢
  constructor
  · intro h
    exact h.2.2.2.2.2.2.2.1
  · intro h
    refine ⟨?_, ?_, ?_, ?_, ?_, horder, ?_, h, hpieces, ?_⟩ <;> omega

end read

theorem overhead_le (len : ℕ) : Crypto.ciphertextOverhead len ≤ 24 + 16 * len := by
  have hcount : Crypto.segmentCount len ≤ len + 1 := by
    rw [Crypto.segmentCount]
    refine max_le ?_ (Nat.le_add_left 1 len)
    have hmul : len ≤ Crypto.segmentSize * len := Nat.le_mul_of_pos_left len (by decide)
    apply Nat.div_le_of_le_mul
    rw [Nat.mul_add, Nat.mul_one]
    omega
  rw [Crypto.ciphertextOverhead, Crypto.headerLen, Crypto.tagLen]
  omega

theorem uploadCalc_fits {partSize index len : ℕ} (hpos : 0 < partSize) (hlen : len ≤ maxWriteBytes) :
    (uploadCalc partSize index len).Fits ↔ index * partSize < 2 ^ 63 := by
  have hover := overhead_le len
  have hindex : index ≤ index * partSize := Nat.le_mul_of_pos_right index hpos
  have hmax : maxWriteBytes < 2 ^ 27 := by decide
  simp only [uploadCalc, toI64_fits, mul_fits, toI32_fits, add_fits, pure_fits, and_true]
  generalize index * partSize = start at hindex ⊢
  omega

theorem commitCalc_fits {sizes : List ℕ} {req : CommitVersionRequest} :
    (commitCalc sizes req).Fits ↔ sizes.sum < 2 ^ 64
      ∧ (sizes.sum = req.totalSize → req.totalSize < 2 ^ 63 ∧ req.expectedGeneration < 2 ^ 63) := by
  rw [commitCalc, sumFrom_fits (by decide), Nat.zero_add]
  refine and_congr_right fun _ => ?_
  split_ifs with htotal
  · simp only [toI64_fits, add_fits, pure_fits, and_true]
    omega
  · simp [htotal, pure_fits]

end Dcfs
