import Dcfs.Crypto.RoundTrip

/-! What was sealed under one key, and what an answer can hold that opens under it. -/

namespace Dcfs.Crypto

open Blocks

inductive Layout
  | segmented (plaintext : Bytes)
  | single (nonce plaintext : Bytes)

def Layout.plaintext : Layout → Bytes
  | .segmented plaintext => plaintext
  | .single _ plaintext => plaintext

/--
Everything sealed under one key, by key id and object id; no object is sealed twice. Different segments
of an object have different nonces, and none of them is the nonce of a message in the old layout.
-/
structure Vault (cipher : Cipher) where
  objects : Bytes → Uuid → Option Layout
  wide : ∀ {k o layout}, objects k o = some layout → o < 256 ^ 16
  segments_apart : ∀ {k o plaintext i j a b}, objects k o = some (.segmented plaintext) →
    i < segmentCount plaintext.length → j < segmentCount plaintext.length →
    cipher.nonceFor k o i a = cipher.nonceFor k o j b → i = j
  single_apart : ∀ {k o nonce plaintext i a}, objects k o = some (.single nonce plaintext) →
    nonce ≠ cipher.nonceFor k o i a

variable {cipher : Cipher}

namespace Vault

inductive Sealed (vault : Vault cipher) : Bytes → Bytes → Bytes → Prop
  | segment {k : Bytes} {o : Uuid} {plaintext : Bytes} {i : ℕ}
      (hobject : vault.objects k o = some (.segmented plaintext)) (hi : i < segmentCount plaintext.length) :
      Sealed vault (cipher.nonceFor k o i (i == segmentCount plaintext.length - 1)) (Cipher.aadOf k o)
        (slice plaintext segmentSize i)
  | single {k : Bytes} {o : Uuid} {nonce plaintext : Bytes}
      (hobject : vault.objects k o = some (.single nonce plaintext)) :
      Sealed vault nonce (Cipher.aadOf k o) plaintext

/-- The nonces an answer is tried with: those of the object's segments, and one that is part of the answer. -/
def Tried (cipher : Cipher) (k : Bytes) (o : Uuid) (answer nonce : Bytes) : Prop :=
  (∃ i last, nonce = cipher.nonceFor k o i last) ∨ nonce.length = 24 ∧ nonce <:+: answer

/-- Any part of the answer that opens as the object's was sealed under the nonce and the data it opens with. -/
def Unforged (vault : Vault cipher) (k : Bytes) (o : Uuid) (answer : Bytes) : Prop :=
  ∀ nonce part opened, Tried cipher k o answer nonce → part <:+: answer →
    cipher.decrypt nonce (Cipher.aadOf k o) part = some opened →
    ∃ msg, vault.Sealed nonce (Cipher.aadOf k o) msg ∧ part = cipher.encrypt nonce (Cipher.aadOf k o) msg

end Vault

theorem leBytes_length (width n : ℕ) : (leBytes width n).length = width := by
  induction width generalizing n with
  | zero => rfl
  | succ width ih => rw [leBytes, List.length_cons, ih]

theorem leBytes_inj {width n m : ℕ} (hn : n < 256 ^ width) (hm : m < 256 ^ width)
    (h : leBytes width n = leBytes width m) : n = m := by
  induction width generalizing n m with
  | zero =>
    rw [pow_zero, Nat.lt_one_iff] at hn hm
    rw [hn, hm]
  | succ width ih =>
    rw [leBytes, leBytes, List.cons.injEq] at h
    have hlow : n % 256 = m % 256 := by
      have := congrArg UInt8.toNat h.1
      simpa using this
    have hhigh : n / 256 = m / 256 := by
      rw [pow_succ] at hn hm
      exact ih (Nat.div_lt_of_lt_mul (by omega)) (Nat.div_lt_of_lt_mul (by omega)) h.2
    omega

theorem aadOf_inj {k k' : Bytes} {o o' : Uuid} (ho : o < 256 ^ 16) (ho' : o' < 256 ^ 16)
    (h : Cipher.aadOf k o = Cipher.aadOf k' o') : k = k' ∧ o = o' := by
  have hlen : (uuidBytes o).length = (uuidBytes o').length := by
    rw [uuidBytes, uuidBytes, List.length_reverse, List.length_reverse, leBytes_length, leBytes_length]
  obtain ⟨hid, hkey⟩ := List.append_inj h hlen
  exact ⟨hkey, leBytes_inj ho ho' (List.reverse_injective hid)⟩

theorem nonceFor_flag {k : Bytes} {o : Uuid} {i : ℕ} {a b : Bool}
    (h : cipher.nonceFor k o i a = cipher.nonceFor k o i b) : a = b := by
  have hlast := List.append_cancel_left h
  cases a <;> cases b <;> first | rfl | exact absurd hlast (by decide)

theorem nonceFor_index {k : Bytes} {o : Uuid} {i j : ℕ} {a b : Bool} (hi : i < 256 ^ 4) (hj : j < 256 ^ 4)
    (h : cipher.nonceFor k o i a = cipher.nonceFor k o j b) : i = j := by
  rw [Cipher.nonceFor, Cipher.nonceFor, List.append_assoc, List.append_assoc] at h
  have hlen : (leBytes 4 i).length = (leBytes 4 j).length := by rw [leBytes_length, leBytes_length]
  exact leBytes_inj hi hj (List.append_inj (List.append_cancel_left h) hlen).1

def Vault.only (cipher : Cipher) (k : Bytes) (o : Uuid) (plaintext : Bytes) (ho : o < 256 ^ 16)
    (hlen : segmentCount plaintext.length ≤ 256 ^ 4) : Vault cipher where
  objects k' o' := if k' = k ∧ o' = o then some (.segmented plaintext) else none
  wide {k' o' layout} h := by
    split_ifs at h with heq
    rw [heq.2]
    exact ho
  segments_apart {k' o' plaintext' i j a b} h hi hj hnonce := by
    split_ifs at h
    cases h
    exact nonceFor_index (hi.trans_le hlen) (hj.trans_le hlen) hnonce
  single_apart {k' o' nonce plaintext' i a} h := by
    split_ifs at h
    cases h

namespace Vault

variable {vault : Vault cipher} {answer part opened : Bytes} {k : Bytes} {o : Uuid}

theorem opened_of_openSegment {last index : ℕ} (h : cipher.openSegment k o last index part = .ok opened) :
    cipher.decrypt (cipher.nonceFor k o index (index == last)) (Cipher.aadOf k o) part = some opened := by
  unfold Cipher.openSegment at h
  split at h
  · cases h
    assumption
  · cases h

theorem Tried.of_part {nonce : Bytes} (h : Tried cipher k o part nonce) (hpart : part <:+: answer) :
    Tried cipher k o answer nonce := by
  rcases h with hderived | ⟨hlen, hnonce⟩
  · exact .inl hderived
  · exact .inr ⟨hlen, hnonce.trans hpart⟩

theorem Unforged.of_part (h : vault.Unforged k o answer) (hpart : part <:+: answer) : vault.Unforged k o part :=
  fun nonce piece opened htried hpiece => h nonce piece opened (htried.of_part hpart) (hpiece.trans hpart)

theorem Unforged.sealed (h : vault.Unforged k o answer) {nonce : Bytes} (htried : Tried cipher k o answer nonce)
    (hpart : part <:+: answer) (hopen : cipher.decrypt nonce (Cipher.aadOf k o) part = some opened) :
    vault.Sealed nonce (Cipher.aadOf k o) opened ∧ part.length = opened.length + tagLen := by
  obtain ⟨msg, hmsg, rfl⟩ := h nonce part opened htried hpart hopen
  rw [cipher.decrypt_encrypt] at hopen
  cases hopen
  exact ⟨hmsg, cipher.encrypt_length nonce _ opened⟩

theorem Unforged.sealed_segment (h : vault.Unforged k o part) {last index : ℕ}
    (hopen : cipher.openSegment k o last index part = .ok opened) :
    vault.Sealed (cipher.nonceFor k o index (index == last)) (Cipher.aadOf k o) opened
      ∧ part.length = opened.length + tagLen :=
  h.sealed (.inl ⟨index, _, rfl⟩) List.infix_rfl (opened_of_openSegment hopen)

theorem Sealed.own {layout : Layout} (hobject : vault.objects k o = some layout) {nonce msg : Bytes}
    (h : vault.Sealed nonce (Cipher.aadOf k o) msg) :
    (∃ plaintext i, layout = .segmented plaintext ∧ i < segmentCount plaintext.length
        ∧ nonce = cipher.nonceFor k o i (i == segmentCount plaintext.length - 1)
        ∧ msg = slice plaintext segmentSize i)
      ∨ layout = .single nonce msg := by
  generalize haad : Cipher.aadOf k o = aad at h
  cases h with
  | segment hother hi =>
    obtain ⟨rfl, rfl⟩ := aadOf_inj (vault.wide hobject) (vault.wide hother) haad
    rw [hobject] at hother
    cases hother
    exact .inl ⟨_, _, rfl, hi, rfl, rfl⟩
  | single hother =>
    obtain ⟨rfl, rfl⟩ := aadOf_inj (vault.wide hobject) (vault.wide hother) haad
    rw [hobject] at hother
    cases hother
    exact .inr rfl

theorem openSegment_own {plaintext : Bytes} (hobject : vault.objects k o = some (.segmented plaintext))
    (hpart : vault.Unforged k o part) {last index : ℕ} (hindex : index < segmentCount plaintext.length)
    (h : cipher.openSegment k o last index part = .ok opened) :
    opened = slice plaintext segmentSize index ∧ (index == last) = (index == segmentCount plaintext.length - 1) := by
  rcases (hpart.sealed_segment h).1.own hobject with ⟨_, i, hlayout, hi, hnonce, hmsg⟩ | hlayout
  · cases hlayout
    obtain rfl := vault.segments_apart hobject hindex hi hnonce
    exact ⟨hmsg, nonceFor_flag hnonce⟩
  · cases hlayout

theorem openSegment_single {nonce plaintext : Bytes} (hobject : vault.objects k o = some (.single nonce plaintext))
    (hpart : vault.Unforged k o part) {last index : ℕ} : cipher.openSegment k o last index part ≠ .ok opened := by
  intro h
  rcases (hpart.sealed_segment h).1.own hobject with ⟨_, _, hlayout, -⟩ | hlayout
  · cases hlayout
  · injection hlayout with hnonce hmsg
    exact vault.single_apart hobject hnonce

end Vault

end Dcfs.Crypto
