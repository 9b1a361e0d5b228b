import Dcfs.Crypto.RoundTrip

namespace Dcfs.Crypto

theorem segmentSpan_le_last {n i : ℕ} (h : i < segmentCount n) :
    (segmentSpan n i).2 ≤ headerLen + (n + segmentCount n * tagLen) := by
  simp only [segmentSpan, segmentCount, segmentSize, headerLen, tagLen] at h ⊢
  omega

theorem segmentSpan_mono {i j : ℕ} (n : ℕ) (h : i < j) : (segmentSpan n i).2 ≤ (segmentSpan n j).1 := by
  simp only [segmentSpan, segmentSize, headerLen, tagLen]
  omega

namespace ChunkRange

variable {range : ChunkRange}

def Meets (range : ChunkRange) (index : ℕ) : Prop :=
  ∃ byte, range.fromByte ≤ byte ∧ byte < range.toByte ∧ byte / segmentSize = index

theorem meets_iff (h : range.fromByte < range.toByte) {index : ℕ} : range.Meets index ↔
    range.fromByte / segmentSize ≤ index ∧ index ≤ (range.toByte - 1) / segmentSize := by
  simp only [Meets, segmentSize]
  constructor
  · rintro ⟨byte, hfrom, hto, rfl⟩
    omega
  · rintro ⟨hfirst, hlast⟩
    by_cases hstart : range.fromByte ≤ index * (256 * 1024)
    · exact ⟨index * (256 * 1024), hstart, by omega, by omega⟩
    · exact ⟨range.fromByte, le_rfl, h, by omega⟩

theorem toFetch_eq (h : range.fromByte < range.toByte) (hto : range.toByte ≤ range.plaintextLen) :
    range.toFetch = ((segmentSpan range.plaintextLen (range.fromByte / segmentSize)).1,
      (segmentSpan range.plaintextLen ((range.toByte - 1) / segmentSize)).2, range.fromByte / segmentSize) := by
  obtain ⟨hle, hlt⟩ := Cipher.covering_segments h hto
  have hfirst : range.fromByte / segmentSize ≤ segmentCount range.plaintextLen - 1 := by omega
  have hlast : (range.toByte - 1) / segmentSize ≤ segmentCount range.plaintextLen - 1 := by omega
  simp only [toFetch, min_eq_left hfirst, min_eq_left hlast]

theorem toFetch_inside (h : range.fromByte < range.toByte) (hto : range.toByte ≤ range.plaintextLen) :
    headerLen ≤ range.toFetch.1 ∧ range.toFetch.1 ≤ range.toFetch.2.1
      ∧ range.toFetch.2.1 ≤ range.plaintextLen + ciphertextOverhead range.plaintextLen := by
  obtain ⟨hle, hlt⟩ := Cipher.covering_segments h hto
  have hend := segmentSpan_le_last hlt
  have hspan := Cipher.span_bound range.plaintextLen hle
  rw [toFetch_eq h hto, ciphertextOverhead]
  refine ⟨?_, ?_, ?_⟩
  · simp [segmentSpan]
  · dsimp only
    omega
  · dsimp only
    omega

theorem toFetch_meets (h : range.fromByte < range.toByte) (hto : range.toByte ≤ range.plaintextLen) {index : ℕ}
    (hmeets : range.Meets index) : range.toFetch.1 ≤ (segmentSpan range.plaintextLen index).1
      ∧ (segmentSpan range.plaintextLen index).2 ≤ range.toFetch.2.1 := by
  obtain ⟨hfirst, hlast⟩ := (meets_iff h).mp hmeets
  rw [toFetch_eq h hto]
  simp only [segmentSpan, segmentSize, headerLen, tagLen] at hfirst hlast ⊢
  omega

theorem toFetch_misses (h : range.fromByte < range.toByte) (hto : range.toByte ≤ range.plaintextLen) {index : ℕ}
    (hmisses : ¬ range.Meets index) :
    (segmentSpan range.plaintextLen index).2 ≤ range.toFetch.1
      ∨ range.toFetch.2.1 ≤ (segmentSpan range.plaintextLen index).1 := by
  rw [meets_iff h, not_and_or, not_le, not_le] at hmisses
  rw [toFetch_eq h hto]
  rcases hmisses with hbefore | hafter
  · exact .inl (segmentSpan_mono _ hbefore)
  · exact .inr (segmentSpan_mono _ hafter)

end ChunkRange

namespace Cipher

variable (cipher : Cipher) (keyId : Bytes) (objectId : Uuid) (plaintext : Bytes)

theorem sealedBytes_length : (cipher.sealedBytes keyId objectId plaintext).length =
    plaintext.length + ciphertextOverhead plaintext.length := by
  have hbody := cipher.body_length keyId objectId plaintext
  have hheader : headerLen ≤ (cipher.sealedBytes keyId objectId plaintext).length := by
    rw [sealedBytes, List.length_append, header_length]
    exact Nat.le_add_right ..
  rw [List.length_drop] at hbody
  rw [ciphertextOverhead]
  omega

theorem openChunk_sealChunk :
    cipher.openChunk (cipher.sealChunk keyId objectId plaintext) = .ok plaintext
      ∧ (cipher.sealChunk keyId objectId plaintext).ciphertext.length
        = plaintext.length + ciphertextOverhead plaintext.length :=
  ⟨cipher.openChunk_sealed keyId objectId plaintext, cipher.sealedBytes_length keyId objectId plaintext⟩

theorem openRange_sealChunk {start stop : ℕ} (hstart : start < stop) (hstop : stop ≤ plaintext.length) :
    let range : ChunkRange := ⟨objectId, plaintext.length, start, stop⟩
    let sealed := (cipher.sealChunk keyId objectId plaintext).ciphertext
    headerLen ≤ range.toFetch.1 ∧ range.toFetch.1 ≤ range.toFetch.2.1 ∧ range.toFetch.2.1 ≤ sealed.length
      ∧ (∀ index < segmentCount plaintext.length,
        (range.Meets index → range.toFetch.1 ≤ (segmentSpan plaintext.length index).1
          ∧ (segmentSpan plaintext.length index).2 ≤ range.toFetch.2.1)
        ∧ (¬ range.Meets index → (segmentSpan plaintext.length index).2 ≤ range.toFetch.1
          ∨ range.toFetch.2.1 ≤ (segmentSpan plaintext.length index).1))
      ∧ cipher.openRange keyId range
          ((sealed.drop range.toFetch.1).take (range.toFetch.2.1 - range.toFetch.1)) range.toFetch.2.2
        = .ok ((plaintext.drop start).take (stop - start)) := by
  intro range sealed
  obtain ⟨hheader, horder, hend⟩ : headerLen ≤ range.toFetch.1 ∧ range.toFetch.1 ≤ range.toFetch.2.1
      ∧ range.toFetch.2.1 ≤ plaintext.length + ciphertextOverhead plaintext.length :=
    ChunkRange.toFetch_inside hstart hstop
  refine ⟨hheader, horder, ?_, ?_, ?_⟩
  · rw [show sealed.length = _ from cipher.sealedBytes_length keyId objectId plaintext]
    exact hend
  · intro index _
    exact ⟨ChunkRange.toFetch_meets hstart hstop, ChunkRange.toFetch_misses hstart hstop⟩
  · exact cipher.openRange_sealed keyId objectId plaintext range rfl rfl hstart hstop

end Cipher

end Dcfs.Crypto

namespace Dcfs

def plainCipher : Crypto.Cipher where
  encrypt _ _ msg := msg ++ List.replicate 16 0
  decrypt _ _ sealed := some (sealed.take (sealed.length - 16))
  blake3 data := [data.foldl (· + ·) 0]
  decrypt_encrypt := by simp
  encrypt_length := by simp

open Crypto Blocks

@[irreducible] def twoSegments : Bytes := List.replicate segmentSize 5 ++ List.replicate 20 9

theorem twoSegments_length : twoSegments.length = segmentSize + 20 := by
  rw [twoSegments, List.length_append, List.length_replicate, List.length_replicate]

theorem twoSegments_count : segmentCount twoSegments.length = 2 := by
  rw [twoSegments_length]
  decide

theorem twoSegments_first : Blocks.slice twoSegments segmentSize 0 = List.replicate segmentSize 5 := by
  rw [Blocks.slice, Nat.zero_mul, List.drop_zero, twoSegments, List.take_left' (List.length_replicate ..)]

theorem twoSegments_second : Blocks.slice twoSegments segmentSize 1 = List.replicate 20 9 := by
  rw [Blocks.slice, Nat.one_mul, twoSegments, List.drop_left' (List.length_replicate ..), List.take_of_length_le]
  decide

theorem twoSegments_across : (twoSegments.drop (segmentSize - 1)).take 3 = [5, 9, 9] := by
  rw [twoSegments, List.drop_append_of_le_length (by rw [List.length_replicate]; decide), List.drop_replicate]
  decide

theorem openRange_plain :
    let range : ChunkRange := ⟨7, twoSegments.length, segmentSize - 1, segmentSize + 2⟩
    let sealed := (plainCipher.sealChunk [] 7 twoSegments).ciphertext
    range.toFetch.2.1 ≤ sealed.length ∧ plainCipher.openRange [] range
      ((sealed.drop range.toFetch.1).take (range.toFetch.2.1 - range.toFetch.1)) range.toFetch.2.2
      = .ok [5, 9, 9] := by
  have hto : segmentSize + 2 ≤ twoSegments.length := by
    rw [twoSegments_length]
    decide
  obtain ⟨-, -, hinside, -, hopen⟩ := plainCipher.openRange_sealChunk [] 7 twoSegments
    (show segmentSize - 1 < segmentSize + 2 by decide) hto
  have hwidth : segmentSize + 2 - (segmentSize - 1) = 3 := by decide
  rw [hwidth, twoSegments_across] at hopen
  exact ⟨hinside, hopen⟩

end Dcfs
