import Dcfs.Crypto.Authentic
import Dcfs.Crypto.Spans

namespace Dcfs.Crypto

open Outcomes Vault

def Cipher.singleBytes (cipher : Cipher) (keyId : Bytes) (objectId : Uuid) (nonce plaintext : Bytes) : Bytes :=
  nonce ++ cipher.encrypt nonce (Cipher.aadOf keyId objectId) plaintext

/-- No part of `bytes` opens as a segment of the object but the message, and that where its nonce is the segment's. -/
def Lone (cipher : Cipher) (k : Bytes) (o : Uuid) (nonce plaintext bytes : Bytes) : Prop :=
  ∀ i last part opened, part <:+: bytes →
    cipher.decrypt (cipher.nonceFor k o i last) (Cipher.aadOf k o) part = some opened →
    cipher.nonceFor k o i last = nonce ∧ part = cipher.encrypt nonce (Cipher.aadOf k o) plaintext

variable {cipher : Cipher} {k : Bytes} {o : Uuid} {nonce plaintext bytes : Bytes}

variable (cipher k o plaintext) in
theorem singleBytes_length (hnonce : nonce.length = 24) :
    (cipher.singleBytes k o nonce plaintext).length = 24 + (plaintext.length + tagLen) := by
  rw [Cipher.singleBytes, List.length_append, cipher.encrypt_length, hnonce]
  rfl

theorem openSingle_singleBytes (hnonce : nonce.length = 24) (plaintextHash ciphertextHash : String) :
    cipher.openSingle ⟨k, o, plaintextHash, ciphertextHash, cipher.singleBytes k o nonce plaintext⟩
      = .ok plaintext := by
  have hlen := singleBytes_length cipher k o plaintext hnonce
  have htake : (cipher.singleBytes k o nonce plaintext).take 24 = nonce := by
    rw [Cipher.singleBytes, ← hnonce, List.take_left]
  have hdrop : (cipher.singleBytes k o nonce plaintext).drop 24
      = cipher.encrypt nonce (Cipher.aadOf k o) plaintext := by
    rw [Cipher.singleBytes, ← hnonce, List.drop_left]
  unfold Cipher.openSingle
  dsimp only
  rw [if_neg (by omega), htake, hdrop, cipher.decrypt_encrypt]

theorem magic_prefix_iff (hnonce : nonce.length = 24) :
    magic.isPrefixOf (cipher.singleBytes k o nonce plaintext) = true ↔ magic <+: nonce := by
  rw [List.isPrefixOf_iff_prefix, Cipher.singleBytes]
  constructor
  · intro h
    refine List.prefix_of_prefix_length_le h (List.prefix_append _ _) ?_
    rw [hnonce]
    decide
  · intro h
    exact h.trans (List.prefix_append _ _)

theorem openChunk_singleBytes (hnonce : nonce.length = 24) (hmagic : ¬ magic <+: nonce) :
    cipher.openChunk ⟨k, o, cipher.hashData plaintext, cipher.hashData (cipher.singleBytes k o nonce plaintext),
      cipher.singleBytes k o nonce plaintext⟩ = .ok plaintext := by
  unfold Cipher.openChunk
  dsimp only
  rw [if_neg (not_not.mpr rfl), if_neg (mt (magic_prefix_iff hnonce).mp hmagic), openSingle_singleBytes hnonce]
  exact if_neg (not_not.mpr rfl)

theorem sealedLength_whole {n index : ℕ} (hn : 0 < n) (h : sealedLength n index = n + tagLen) :
    index = 0 ∧ n ≤ segmentSize := by
  have hplain : min segmentSize (n - index * segmentSize) = n := by
    rw [sealedLength, segmentSpan] at h
    dsimp only at h
    omega
  have hstart : index * segmentSize = 0 := by omega
  refine ⟨?_, by omega⟩
  exact (Nat.mul_eq_zero.mp hstart).resolve_right (by decide)

namespace Lone

theorem part_opens {part opened : Bytes} {last index : ℕ} (h : Lone cipher k o nonce plaintext bytes)
    (hpart : part <:+: bytes) (hopen : cipher.openSegment k o last index part = .ok opened) :
    cipher.nonceFor k o index (index == last) = nonce ∧ part.length = plaintext.length + tagLen
      ∧ opened = plaintext := by
  have hdecrypt := opened_of_openSegment hopen
  obtain ⟨hnonce, hsealed⟩ := h _ _ _ _ hpart hdecrypt
  rw [hnonce, hsealed, cipher.decrypt_encrypt, Option.some.injEq] at hdecrypt
  refine ⟨hnonce, ?_, hdecrypt.symm⟩
  rw [hsealed, cipher.encrypt_length]
  rfl

theorem piece_inside (answer : Bytes) (i : ℕ) : piece answer i <:+: answer :=
  ((List.take_prefix _ _).isInfix.trans (List.drop_suffix _ _).isInfix).trans (List.drop_suffix _ _).isInfix

theorem openSegmented_fails (hnonce : nonce.length = 24)
    (h : Lone cipher k o nonce plaintext (cipher.singleBytes k o nonce plaintext))
    {plaintextHash ciphertextHash : String} {opened : Bytes} :
    cipher.openSegmented ⟨k, o, plaintextHash, ciphertextHash, cipher.singleBytes k o nonce plaintext⟩
      ≠ .ok opened := by
  intro hopen
  have hlen := singleBytes_length cipher k o plaintext hnonce
  generalize cipher.singleBytes k o nonce plaintext = answer at h hopen hlen
  obtain ⟨parts, hparts, -⟩ := pieces_of_openSegmented hopen
  have hopens : ∀ i < pieceCount answer, cipher.nonceFor k o i (i == pieceCount answer - 1) = nonce
      ∧ (piece answer i).length = plaintext.length + tagLen := by
    intro i hi
    obtain ⟨part, hpart⟩ := forall_of_mapM hparts i (List.mem_range.mpr hi)
    obtain ⟨hsame, hsize, -⟩ := h.part_opens (piece_inside answer i) hpart
    exact ⟨hsame, hsize⟩
  have hfirst := hopens 0 (pieceCount_pos answer)
  by_cases hcount : 1 < pieceCount answer
  · have hsecond := hopens 1 hcount
    have hindex := nonceFor_index (by decide) (by decide) (hfirst.1.trans hsecond.1.symm)
    omega
  · have hsize := hfirst.2
    rw [piece, List.length_take, Nat.zero_mul, List.drop_zero, List.length_drop] at hsize
    rw [pieceCount, List.length_drop] at hcount
    simp only [segmentSize, tagLen, headerLen] at hlen hsize hcount
    omega

theorem openChunk_fails (hnonce : nonce.length = 24)
    (h : Lone cipher k o nonce plaintext (cipher.singleBytes k o nonce plaintext)) (hmagic : magic <+: nonce)
    {plaintextHash ciphertextHash : String} {opened : Bytes} :
    cipher.openChunk ⟨k, o, plaintextHash, ciphertextHash, cipher.singleBytes k o nonce plaintext⟩ ≠ .ok opened := by
  intro hopen
  unfold Cipher.openChunk at hopen
  dsimp only at hopen
  split_ifs at hopen with hhash hprefix
  · obtain ⟨whole, hwhole, -⟩ := ok_of_bind hopen
    exact openSegmented_fails hnonce h hwhole
  · exact hprefix ((magic_prefix_iff hnonce).mpr hmagic)

theorem openRange_right (h : Lone cipher k o nonce plaintext bytes) {range : ChunkRange} {fetched opened : Bytes}
    (ho : range.objectId = o) (hl : range.plaintextLen = plaintext.length) (hwant : range.fromByte < range.toByte)
    (hto : range.toByte ≤ range.plaintextLen) (hpart : fetched <:+: bytes)
    (hfetched : fetched.length ≤ range.toFetch.2.1 - range.toFetch.1)
    (hopen : cipher.openRange k range fetched range.toFetch.2.2 = .ok opened) :
    opened = (plaintext.drop range.fromByte).take (range.toByte - range.fromByte) := by
  obtain ⟨whole, hwhole, hlen, rfl⟩ := segments_of_openRange hopen
  rw [ChunkRange.toFetch_eq hwant hto] at hwhole hlen hfetched ⊢
  dsimp only at hwhole hlen hfetched ⊢
  cases hfuel : fetched.length with
  | zero =>
    rw [hfuel] at hwhole
    cases hwhole
    rw [List.length_nil] at hlen
    omega
  | succ fuel =>
    rw [hfuel] at hwhole
    rcases cons_of_openSegments hwhole with rfl | ⟨first, rest, rfl, hfits, hfirst, hrest⟩
    · rw [List.length_nil] at hlen
      omega
    · rw [ho] at hfirst
      obtain ⟨-, hsize, hopened⟩ := h.part_opens ((List.take_prefix _ _).isInfix.trans hpart) hfirst
      rw [List.length_take, Nat.min_eq_left hfits, hl] at hsize
      -- the piece is as long as the whole message, so it is the first and only one
      have hzero := sealedLength_whole (by omega) hsize
      have hlast : (range.toByte - 1) / segmentSize = 0 := by
        rw [hl] at hto
        have := hzero.2
        rw [Nat.div_eq_zero_iff]
        omega
      have hnil : fetched.drop (sealedLength range.plaintextLen (range.fromByte / segmentSize)) = [] := by
        rw [hzero.1, hlast] at hfetched
        rw [hzero.1, sealedLength]
        exact List.drop_eq_nil_of_le hfetched
      rw [hnil] at hrest
      have hnone : rest = [] := by
        cases fuel with
        | zero => cases hrest; rfl
        | succ fuel => cases hrest; rfl
      rw [hnone, hopened, List.append_nil, hzero.1, Nat.zero_mul, Nat.sub_zero]

end Lone

end Dcfs.Crypto
