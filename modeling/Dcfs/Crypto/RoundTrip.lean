import Dcfs.Crypto.Chunk
import Dcfs.Library.Outcome
import Dcfs.Library.Sparse

namespace Dcfs.Crypto.Cipher

open Blocks Outcomes

variable (cipher : Cipher) (keyId : Bytes) (objectId : Uuid) (plaintext : Bytes)

theorem sealSegment_length (index : ℕ) :
    (cipher.sealSegment keyId objectId plaintext index).length =
      (slice plaintext segmentSize index).length + tagLen := by
  rw [sealSegment, cipher.encrypt_length]
  rfl

theorem openSegment_sealSegment (index : ℕ) :
    cipher.openSegment keyId objectId (segmentCount plaintext.length - 1) index
      (cipher.sealSegment keyId objectId plaintext index) =
      .ok (slice plaintext segmentSize index) := by
  rw [openSegment, sealSegment, cipher.decrypt_encrypt]
  rfl

theorem segmentSpan_length (index : ℕ) :
    (segmentSpan plaintext.length index).2 - (segmentSpan plaintext.length index).1 =
      (cipher.sealSegment keyId objectId plaintext index).length := by
  rw [sealSegment_length, length_slice]
  simp only [segmentSpan]
  omega

theorem header_length : header.length = headerLen := by decide

theorem slice_full {index : ℕ} (h : index + 1 < segmentCount plaintext.length) :
    (slice plaintext segmentSize index).length = segmentSize := by
  rw [length_slice]
  simp only [segmentCount, segmentSize] at h ⊢
  omega

theorem openSegments_sealed {range : ChunkRange} (ho : range.objectId = objectId)
    (hl : range.plaintextLen = plaintext.length) {i k fuel : ℕ} (hf : k ≤ fuel) :
    cipher.openSegments keyId range fuel i
      ((List.range' i k).flatMap (cipher.sealSegment keyId objectId plaintext)) =
      .ok ((List.range' i k).flatMap (slice plaintext segmentSize)) := by
  induction k generalizing i fuel with
  | zero => cases fuel <;> rfl
  | succ k ih =>
    obtain ⟨fuel, rfl⟩ : ∃ f, fuel = f + 1 := ⟨fuel - 1, by omega⟩
    rw [List.range'_succ, List.flatMap_cons, List.flatMap_cons]
    have hne : (cipher.sealSegment keyId objectId plaintext i ++
        (List.range' (i + 1) k).flatMap (cipher.sealSegment keyId objectId plaintext)).isEmpty
        = false := by
      rw [List.isEmpty_eq_false_iff, ← List.length_pos_iff, List.length_append, sealSegment_length]
      simp only [tagLen]
      omega
    simp only [openSegments, hne, hl, ho, Bool.false_eq_true, if_false,
      cipher.segmentSpan_length keyId objectId plaintext i, List.length_append,
      List.take_left, List.drop_left, openSegment_sealSegment, ih (by omega : k ≤ fuel)]
    rw [if_neg (by omega)]
    rfl

theorem sealedBytes_drop {first : ℕ} (h : first < segmentCount plaintext.length) :
    (cipher.sealedBytes keyId objectId plaintext).drop (segmentSpan plaintext.length first).1 =
      (List.range' first (segmentCount plaintext.length - first)).flatMap
        (cipher.sealSegment keyId objectId plaintext) := by
  rw [sealedBytes, segmentSpan, List.drop_append, List.drop_eq_nil_of_le, List.nil_append,
    List.range_eq_range']
  · rw [header_length, Nat.add_sub_cancel_left, drop_uniform _ h.le, Nat.zero_add]
    intro i _ hi
    rw [sealSegment_length, slice_full plaintext (by omega)]
  · rw [header_length]
    exact Nat.le_add_right ..

theorem span_length {first last : ℕ} (n : ℕ) (h : first ≤ last) :
    (last - first) * (segmentSize + tagLen) + (min segmentSize (n - last * segmentSize) + tagLen) =
      (segmentSpan n last).2 - (segmentSpan n first).1 := by
  simp only [segmentSpan, segmentSize, tagLen, headerLen]
  omega

theorem segments_length {first last : ℕ} (h : first ≤ last) (hl : last < segmentCount plaintext.length) :
    ((List.range' first (last + 1 - first)).flatMap
        (cipher.sealSegment keyId objectId plaintext)).length =
      (segmentSpan plaintext.length last).2 - (segmentSpan plaintext.length first).1 := by
  rw [flatMap_split _ (by omega : last - first ≤ last + 1 - first), List.length_append,
    length_uniform (L := segmentSize + tagLen)]
  · have h1 : last + 1 - first - (last - first) = 1 := by omega
    have h2 : first + (last - first) = last := by omega
    rw [h1, h2, List.range'_one, List.flatMap_singleton, sealSegment_length, length_slice,
      span_length _ h]
  · intro i _ hi
    rw [sealSegment_length, slice_full plaintext (by omega)]

theorem covering_segments {a b n : ℕ} (hab : a < b) (hbn : b ≤ n) :
    a / segmentSize ≤ (b - 1) / segmentSize ∧ (b - 1) / segmentSize < segmentCount n := by
  simp only [segmentCount, segmentSize]
  omega

theorem covering_skip (a : ℕ) :
    a / segmentSize * segmentSize + (a - a / segmentSize * segmentSize) = a := by
  simp only [segmentSize]
  omega

theorem covering_take {a b : ℕ} (hab : a < b) :
    a - a / segmentSize * segmentSize + (b - a) ≤
      ((b - 1) / segmentSize + 1 - a / segmentSize) * segmentSize := by
  simp only [segmentSize]
  omega

theorem span_bound {first last : ℕ} (n : ℕ) (h : first ≤ last) :
    last + 1 - first ≤ (segmentSpan n last).2 - (segmentSpan n first).1 := by
  simp only [segmentSpan, headerLen, segmentSize, tagLen]
  omega

theorem span_last (n : ℕ) :
    (segmentSpan n (segmentCount n - 1)).2 - headerLen = n + segmentCount n * tagLen := by
  simp only [segmentSpan, segmentCount, segmentSize, headerLen, tagLen]
  omega

theorem segments_le_length {first last : ℕ} (h : first ≤ last)
    (hl : last < segmentCount plaintext.length) :
    last + 1 - first ≤ ((List.range' first (last + 1 - first)).flatMap
        (cipher.sealSegment keyId objectId plaintext)).length := by
  rw [segments_length cipher keyId objectId plaintext h hl]
  exact span_bound _ h

theorem openRange_of_segments {range : ChunkRange} {fetched opened : Bytes} {firstIndex : ℕ}
    (h : cipher.openSegments keyId range fetched.length firstIndex fetched = .ok opened)
    (hlen : range.fromByte - firstIndex * segmentSize + (range.toByte - range.fromByte) ≤ opened.length) :
    cipher.openRange keyId range fetched firstIndex =
      .ok ((opened.drop (range.fromByte - firstIndex * segmentSize)).take
        (range.toByte - range.fromByte)) := by
  simp only [openRange, h, bind, Except.bind]
  rw [if_neg (Nat.not_lt.mpr hlen)]
  rfl

theorem openRange_sealed (range : ChunkRange) (ho : range.objectId = objectId)
    (hl : range.plaintextLen = plaintext.length) (hft : range.fromByte < range.toByte)
    (hto : range.toByte ≤ plaintext.length) :
    cipher.openRange keyId range
      (((cipher.sealedBytes keyId objectId plaintext).drop range.toFetch.1).take
        (range.toFetch.2.1 - range.toFetch.1)) range.toFetch.2.2 =
      .ok ((plaintext.drop range.fromByte).take (range.toByte - range.fromByte)) := by
  obtain ⟨hfl, hcount⟩ := covering_segments hft hto
  have hskip := covering_skip range.fromByte
  have htake := covering_take hft
  generalize hfirst : range.fromByte / segmentSize = first at hfl hskip htake
  generalize hlast : (range.toByte - 1) / segmentSize = last at hfl hcount htake
  have hfetch : range.toFetch = ((segmentSpan plaintext.length first).1,
      (segmentSpan plaintext.length last).2, first) := by
    simp only [ChunkRange.toFetch, hl, hfirst, hlast]
    rw [min_eq_left (Nat.le_sub_one_of_lt (hfl.trans_lt hcount)),
      min_eq_left (Nat.le_sub_one_of_lt hcount)]
  have hseg := cipher.segments_length keyId objectId plaintext hfl hcount
  have hfuel := cipher.segments_le_length keyId objectId plaintext hfl hcount
  have hopen := cipher.openSegments_sealed keyId objectId plaintext ho hl (i := first) hfuel
  rw [flatMap_slice] at hopen
  rw [hfetch, sealedBytes_drop _ _ _ _ (hfl.trans_lt hcount),
    take_split _ (Nat.sub_le_sub_right hcount first) hseg, openRange_of_segments _ _ hopen]
  · rw [List.drop_take, List.drop_drop, List.take_take, hskip, min_eq_left (Nat.le_sub_of_add_le' htake)]
  · rw [List.length_take, List.length_drop]
    clear hopen hseg hfuel hfetch hcount
    generalize first * segmentSize = start at hskip htake ⊢
    generalize (last + 1 - first) * segmentSize = total at htake ⊢
    omega

theorem body_length :
    ((cipher.sealedBytes keyId objectId plaintext).drop headerLen).length =
      plaintext.length + segmentCount plaintext.length * tagLen := by
  have hpos : 0 < segmentCount plaintext.length := lt_max_of_lt_right Nat.one_pos
  have h0 := cipher.sealedBytes_drop keyId objectId plaintext hpos
  have hs := cipher.segments_length keyId objectId plaintext (Nat.zero_le _)
    (Nat.sub_lt hpos Nat.one_pos)
  rw [Nat.sub_add_cancel hpos] at hs
  have hstart : (segmentSpan plaintext.length 0).1 = headerLen := by
    rw [segmentSpan, Nat.zero_mul, Nat.add_zero]
  rw [hstart] at h0 hs
  rw [h0, hs, span_last]

theorem body_slice {index : ℕ} (h : index < segmentCount plaintext.length) :
    (((cipher.sealedBytes keyId objectId plaintext).drop headerLen).drop
        (index * (segmentSize + tagLen))).take (segmentSize + tagLen) =
      cipher.sealSegment keyId objectId plaintext index := by
  have hd := cipher.sealedBytes_drop keyId objectId plaintext h
  rw [List.drop_drop, show headerLen + index * (segmentSize + tagLen) =
    (segmentSpan plaintext.length index).1 from rfl, hd]
  obtain ⟨k, hk⟩ : ∃ k, segmentCount plaintext.length - index = k + 1 := ⟨_, (Nat.succ_pred (by omega)).symm⟩
  rw [hk, List.range'_succ, List.flatMap_cons]
  have hlen := cipher.sealSegment_length keyId objectId plaintext index
  rcases Nat.eq_zero_or_pos k with rfl | hpos
  · rw [List.range'_zero, List.flatMap_nil, List.append_nil]
    apply List.take_of_length_le
    rw [hlen, length_slice]
    omega
  · rw [slice_full plaintext (by omega)] at hlen
    exact List.take_left' hlen

theorem openSegmented_sealed (plaintextHash ciphertextHash : String) :
    cipher.openSegmented ⟨keyId, objectId, plaintextHash, ciphertextHash,
      cipher.sealedBytes keyId objectId plaintext⟩ = .ok plaintext := by
  have hheader : headerLen ≤ (cipher.sealedBytes keyId objectId plaintext).length := by
    rw [sealedBytes, List.length_append, header_length]
    exact Nat.le_add_right ..
  have hsize : ((cipher.sealedBytes keyId objectId plaintext).drop 4).take 4 = leBytes 4 segmentSize := by
    rw [sealedBytes, header, List.append_assoc, List.drop_left' (by decide), List.take_left' (by decide)]
  have hsegs : max ((((cipher.sealedBytes keyId objectId plaintext).drop headerLen).length +
      (segmentSize + tagLen) - 1) / (segmentSize + tagLen)) 1 = segmentCount plaintext.length := by
    rw [body_length]
    simp only [segmentCount, segmentSize, tagLen]
    omega
  simp only [openSegmented, hsize, ne_eq, not_true_eq_false, if_false, hsegs]
  rw [if_neg (by omega), mapM_ok (g := slice plaintext segmentSize)]
  · change Except.ok _ = _
    rw [← List.flatMap_def, List.range_eq_range', flatMap_slice, Nat.zero_mul, List.drop_zero,
      List.take_of_length_le]
    simp only [segmentCount, segmentSize]
    omega
  · intro index hindex
    rw [body_slice _ _ _ _ (List.mem_range.mp hindex), openSegment_sealSegment]

theorem openChunk_sealed :
    cipher.openChunk ⟨keyId, objectId, cipher.hashData plaintext,
      cipher.hashData (cipher.sealedBytes keyId objectId plaintext),
      cipher.sealedBytes keyId objectId plaintext⟩ = .ok plaintext := by
  have hmagic : magic.isPrefixOf (cipher.sealedBytes keyId objectId plaintext) = true := by
    rw [List.isPrefixOf_iff_prefix, sealedBytes, header, List.append_assoc]
    exact List.prefix_append ..
  simp only [openChunk, ne_eq, not_true_eq_false, if_false, hmagic, if_true, openSegmented_sealed]
  change (if _ then _ else _) = _
  rw [if_neg (by simp)]
  rfl

end Dcfs.Crypto.Cipher
