import Dcfs.Crypto.Vault

namespace Dcfs.Crypto.Vault

open Blocks Outcomes

variable {cipher : Cipher} {vault : Vault cipher} {answer opened plaintext : Bytes} {k : Bytes} {o : Uuid}

theorem beyond_last {n index : ℕ} (h : segmentCount n ≤ index) : n ≤ index * segmentSize := by
  simp only [segmentCount, segmentSize] at h ⊢
  omega

def sealedLength (n index : ℕ) : ℕ := (segmentSpan n index).2 - (segmentSpan n index).1

theorem sealedLength_beyond {n index : ℕ} (h : segmentCount n ≤ index) : sealedLength n index = tagLen := by
  have hn := beyond_last h
  simp only [sealedLength, segmentSpan]
  rw [Nat.sub_eq_zero_of_le hn, Nat.min_zero, Nat.add_zero, Nat.add_sub_cancel_left]

theorem cons_of_openSegments {range : ChunkRange} {fuel index : ℕ} {fetched : Bytes}
    (h : cipher.openSegments k range (fuel + 1) index fetched = .ok opened) :
    opened = [] ∨ ∃ first rest, opened = first ++ rest ∧ sealedLength range.plaintextLen index ≤ fetched.length
      ∧ cipher.openSegment k range.objectId (segmentCount range.plaintextLen - 1) index
          (fetched.take (sealedLength range.plaintextLen index)) = .ok first
      ∧ cipher.openSegments k range fuel (index + 1)
          (fetched.drop (sealedLength range.plaintextLen index)) = .ok rest := by
  rw [Cipher.openSegments] at h
  dsimp only at h
  split_ifs at h with hempty hlen
  · cases h
    exact .inl rfl
  · obtain ⟨first, hfirst, h⟩ := ok_of_bind h
    obtain ⟨rest, hrest, h⟩ := ok_of_bind h
    cases h
    exact .inr ⟨first, rest, rfl, Nat.le_of_not_lt hlen, hfirst, hrest⟩

theorem openSegments_own (hobject : vault.objects k o = some (.segmented plaintext)) {range : ChunkRange}
    (ho : range.objectId = o) (hl : range.plaintextLen = plaintext.length) {fuel index : ℕ} {fetched : Bytes}
    (hfetched : vault.Unforged k o fetched) (h : cipher.openSegments k range fuel index fetched = .ok opened) :
    opened <+: plaintext.drop (index * segmentSize) := by
  induction fuel generalizing index fetched opened with
  | zero =>
    cases h
    exact List.nil_prefix
  | succ fuel ih =>
    rcases cons_of_openSegments h with rfl | ⟨first, rest, rfl, hlen, hfirst, hrest⟩
    · exact List.nil_prefix
    · have hpart := hfetched.of_part
        (List.take_prefix (sealedLength range.plaintextLen index) fetched).isInfix
      have htail := ih (hfetched.of_part (List.drop_suffix _ _).isInfix) hrest
      rw [ho, hl] at hfirst
      rw [hl] at hpart hlen
      rcases Nat.lt_or_ge index (segmentCount plaintext.length) with hindex | hindex
      · rw [(openSegment_own hobject hpart hindex hfirst).1, slice]
        rw [Nat.succ_mul, ← List.drop_drop] at htail
        conv_rhs => rw [← List.take_append_drop segmentSize (plaintext.drop (index * segmentSize))]
        exact (List.prefix_append_right_inj _).mpr htail
      · -- past the last segment a piece is a bare tag, which opens to nothing
        have hempty := (hpart.sealed_segment hfirst).2
        rw [sealedLength_beyond hindex] at hempty hlen
        rw [List.length_take, Nat.min_eq_left hlen] at hempty
        rw [List.drop_eq_nil_of_le (beyond_last (Nat.le_succ_of_le hindex)), List.prefix_nil] at htail
        have hnil : first = [] := List.eq_nil_of_length_eq_zero (by omega)
        rw [htail, hnil]
        exact List.nil_prefix

theorem segments_of_openRange {range : ChunkRange} {fetched : Bytes} {first : ℕ}
    (h : cipher.openRange k range fetched first = .ok opened) :
    ∃ whole, cipher.openSegments k range fetched.length first fetched = .ok whole
      ∧ range.fromByte - first * segmentSize + (range.toByte - range.fromByte) ≤ whole.length
      ∧ opened = (whole.drop (range.fromByte - first * segmentSize)).take (range.toByte - range.fromByte) := by
  obtain ⟨whole, hwhole, h⟩ := ok_of_bind h
  dsimp only at h
  split_ifs at h with hlen
  cases h
  exact ⟨whole, hwhole, Nat.le_of_not_lt hlen, rfl⟩

theorem openRange_own (hobject : vault.objects k o = some (.segmented plaintext)) {range : ChunkRange}
    (ho : range.objectId = o) (hl : range.plaintextLen = plaintext.length) {fetched : Bytes} {first : ℕ}
    (hfirst : first * segmentSize ≤ range.fromByte) (hfetched : vault.Unforged k o fetched)
    (h : cipher.openRange k range fetched first = .ok opened) :
    opened = (plaintext.drop range.fromByte).take (range.toByte - range.fromByte) := by
  obtain ⟨whole, hwhole, hlen, rfl⟩ := segments_of_openRange h
  obtain ⟨rest, hrest⟩ := openSegments_own hobject ho hl hfetched hwhole
  have hdrop : plaintext.drop range.fromByte = (whole ++ rest).drop (range.fromByte - first * segmentSize) := by
    rw [hrest, List.drop_drop, Nat.add_sub_of_le hfirst]
  rw [hdrop, List.drop_append_of_le_length (by omega), List.take_append_of_le_length]
  rw [List.length_drop]
  omega

theorem openRange_single {nonce : Bytes} (hobject : vault.objects k o = some (.single nonce plaintext))
    {range : ChunkRange} (ho : range.objectId = o) (hwant : range.fromByte < range.toByte) {fetched : Bytes}
    {first : ℕ} (hfetched : vault.Unforged k o fetched) : cipher.openRange k range fetched first ≠ .ok opened := by
  intro h
  obtain ⟨whole, hwhole, hlen, -⟩ := segments_of_openRange h
  cases hfuel : fetched.length with
  | zero =>
    rw [hfuel] at hwhole
    cases hwhole
    rw [List.length_nil] at hlen
    omega
  | succ fuel =>
    rw [hfuel] at hwhole
    rcases cons_of_openSegments hwhole with rfl | ⟨piece, rest, -, -, hpiece, -⟩
    · rw [List.length_nil] at hlen
      omega
    · rw [ho] at hpiece
      exact openSegment_single hobject (hfetched.of_part (List.take_prefix _ _).isInfix) hpiece

def pieceCount (answer : Bytes) : ℕ :=
  max (((answer.drop headerLen).length + (segmentSize + tagLen) - 1) / (segmentSize + tagLen)) 1

def piece (answer : Bytes) (i : ℕ) : Bytes :=
  ((answer.drop headerLen).drop (i * (segmentSize + tagLen))).take (segmentSize + tagLen)

theorem pieceCount_pos (answer : Bytes) : 0 < pieceCount answer := lt_max_of_lt_right Nat.one_pos

theorem Unforged.piece (h : vault.Unforged k o answer) (i : ℕ) : vault.Unforged k o (piece answer i) :=
  h.of_part (((List.take_prefix _ _).isInfix.trans (List.drop_suffix _ _).isInfix).trans
    (List.drop_suffix _ _).isInfix)

theorem pieces_of_openSegmented {plaintextHash ciphertextHash : String}
    (h : cipher.openSegmented ⟨k, o, plaintextHash, ciphertextHash, answer⟩ = .ok opened) :
    ∃ parts, (List.range (pieceCount answer)).mapM (fun i =>
      cipher.openSegment k o (pieceCount answer - 1) i (piece answer i)) = .ok parts ∧ opened = parts.flatten := by
  unfold Cipher.openSegmented at h
  split_ifs at h
  obtain ⟨parts, hparts, h⟩ := ok_of_bind h
  cases h
  exact ⟨parts, hparts, rfl⟩

theorem openSegmented_own (hobject : vault.objects k o = some (.segmented plaintext))
    (hanswer : vault.Unforged k o answer) {plaintextHash ciphertextHash : String}
    (h : cipher.openSegmented ⟨k, o, plaintextHash, ciphertextHash, answer⟩ = .ok opened) : opened = plaintext := by
  obtain ⟨parts, hparts, rfl⟩ := pieces_of_openSegmented h
  have hown : ∀ i < pieceCount answer, i < segmentCount plaintext.length →
      cipher.openSegment k o (pieceCount answer - 1) i (piece answer i) = .ok (slice plaintext segmentSize i)
        ∧ (i == pieceCount answer - 1) = (i == segmentCount plaintext.length - 1) := by
    intro i hi hlt
    obtain ⟨part, hpart⟩ := forall_of_mapM hparts i (List.mem_range.mpr hi)
    obtain ⟨rfl, hflag⟩ := openSegment_own hobject (hanswer.piece i) hlt hpart
    exact ⟨hpart, hflag⟩
  -- the last piece opens as a last segment, so there are neither fewer pieces than segments nor more
  have hcount : pieceCount answer = segmentCount plaintext.length := by
    have hpos : 0 < segmentCount plaintext.length := lt_max_of_lt_right Nat.one_pos
    have hpieces := pieceCount_pos answer
    rcases Nat.lt_or_ge (pieceCount answer - 1) (segmentCount plaintext.length) with hlt | hge
    · have hflag := (hown (pieceCount answer - 1) (by omega) hlt).2
      rw [beq_self_eq_true, eq_comm, beq_iff_eq] at hflag
      omega
    · have hflag := (hown (segmentCount plaintext.length - 1) (by omega) (by omega)).2
      rw [beq_self_eq_true, beq_iff_eq] at hflag
      omega
  rw [mapM_ok fun i hi => (hown i (List.mem_range.mp hi) (hcount ▸ List.mem_range.mp hi)).1] at hparts
  cases hparts
  rw [← List.flatMap_def, hcount, List.range_eq_range', flatMap_slice, Nat.zero_mul, List.drop_zero,
    List.take_of_length_le]
  simp only [segmentCount, segmentSize]
  omega

theorem openSegmented_single {nonce : Bytes} (hobject : vault.objects k o = some (.single nonce plaintext))
    (hanswer : vault.Unforged k o answer) {plaintextHash ciphertextHash : String} :
    cipher.openSegmented ⟨k, o, plaintextHash, ciphertextHash, answer⟩ ≠ .ok opened := by
  intro h
  obtain ⟨parts, hparts, -⟩ := pieces_of_openSegmented h
  obtain ⟨part, hpart⟩ := forall_of_mapM hparts 0 (List.mem_range.mpr (pieceCount_pos answer))
  exact openSegment_single hobject (hanswer.piece 0) hpart

theorem openSingle_own {layout : Layout} (hobject : vault.objects k o = some layout)
    (hanswer : vault.Unforged k o answer) {plaintextHash ciphertextHash : String}
    (h : cipher.openSingle ⟨k, o, plaintextHash, ciphertextHash, answer⟩ = .ok opened) :
    opened = layout.plaintext ∨ ∃ i < segmentCount layout.plaintext.length,
      opened = slice layout.plaintext segmentSize i := by
  unfold Cipher.openSingle at h
  split_ifs at h with hlen
  split at h
  · rename_i msg hmsg
    cases h
    have htried : Tried cipher k o answer (answer.take 24) := by
      refine .inr ⟨?_, (List.take_prefix 24 answer).isInfix⟩
      rw [List.length_take, Nat.min_eq_left (not_lt.mp hlen)]
    have hsealed := (hanswer.sealed htried (List.drop_suffix 24 answer).isInfix hmsg).1
    rcases hsealed.own hobject with ⟨_, i, rfl, hi, -, rfl⟩ | rfl
    · exact .inr ⟨i, hi, rfl⟩
    · exact .inl rfl
  · cases h

theorem openChunk_own {layout : Layout} (hobject : vault.objects k o = some layout)
    (hanswer : vault.Unforged k o answer) {ciphertextHash : String}
    (hhash : ∀ i < segmentCount layout.plaintext.length,
      cipher.hashData (slice layout.plaintext segmentSize i) = cipher.hashData layout.plaintext →
      slice layout.plaintext segmentSize i = layout.plaintext)
    (h : cipher.openChunk ⟨k, o, cipher.hashData layout.plaintext, ciphertextHash, answer⟩ = .ok opened) :
    opened = layout.plaintext := by
  unfold Cipher.openChunk at h
  dsimp only at h
  split_ifs at h
  · obtain ⟨whole, hwhole, h⟩ := ok_of_bind h
    split_ifs at h
    cases h
    cases layout with
    | segmented plaintext => exact openSegmented_own hobject hanswer hwhole
    | single nonce plaintext => exact absurd hwhole (openSegmented_single hobject hanswer)
  · obtain ⟨whole, hwhole, h⟩ := ok_of_bind h
    split_ifs at h with hne
    cases h
    rcases openSingle_own hobject hanswer hwhole with rfl | ⟨i, hi, rfl⟩
    · rfl
    · exact hhash i hi (not_not.mp hne)

end Dcfs.Crypto.Vault
