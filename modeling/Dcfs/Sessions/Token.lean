import Mathlib.Data.List.GetD
import Dcfs.Library.Text
import Dcfs.Metadata.Records

/-! The credential of a request: how it is read from the headers, and how it is compared. -/

namespace Dcfs.Sessions

open Text

def fromUtf8 (bytes : Bytes) : Option Chars := (String.fromUTF8? ⟨bytes.toArray⟩).map String.toList

def toStr (value : Bytes) : Option Chars :=
  -- `HeaderValue::to_str`: only visible ASCII is text.
  if value.all (fun b => (32 ≤ b && b < 127) || b == 9) then some (value.map fun b => Char.ofNat b.toNat)
  else none

def sessionCookieName : Chars := "dcfs_session".toList

def sessionCookie (header : Chars) : Option Chars :=
  (split ';' header).findSome? fun pair => do
    let (name, value) ← splitOnce '=' (trim pair)
    if name = sessionCookieName then some value else none

def alphabet : Bytes := asBytes "ABCDEFGHIJKLMNOPQRSTUVWXYZabcdefghijklmnopqrstuvwxyz0123456789+/".toList

structure Base64 where
  out : Bytes
  buffer : UInt32
  bits : UInt32

def isAsciiWhitespace (byte : UInt8) : Bool :=
  byte == 32 || byte == 9 || byte == 10 || byte == 12 || byte == 13

def Base64.read (state : Base64) (byte : UInt8) : Option Base64 := do
  if byte == 61 || isAsciiWhitespace byte then return state
  let value ← alphabet.idxOf? byte
  let buffer := (state.buffer <<< 6) ||| UInt32.ofNat value
  let bits := state.bits + 6
  if 8 ≤ bits then return ⟨state.out ++ [(buffer >>> (bits - 8)).toUInt8], buffer, bits - 8⟩
  return ⟨state.out, buffer, bits⟩

def base64Decode (input : Chars) : Option Bytes :=
  ((asBytes input).foldlM Base64.read ⟨[], 0, 0⟩).map Base64.out

def presentedToken (header : Chars) : Option Chars :=
  match header.dropPrefix? "Bearer ".toList with
  | some token => some token
  | none => do
    let encoded ← header.dropPrefix? "Basic ".toList
    let decoded ← fromUtf8 (← base64Decode encoded)
    let (_, password) ← splitOnce ':' decoded
    return password

def constantTimeEq (a b : Bytes) : Bool :=
  (List.range (max a.length b.length)).foldl
    (fun different index => different ||| (a.getD index 0 ^^^ b.getD index 0))
    (UInt8.ofNat (a.length ^^^ b.length)) == 0

def tokenMatches (presented expected : Chars) : Bool := constantTimeEq (asBytes presented) (asBytes expected)

def hexToken (bytes : Fin 32 → UInt8) : Chars :=
  (List.ofFn bytes).flatMap fun b => [hexDigit (b.toNat / 16), hexDigit (b.toNat % 16)]

/-- What someone without the expected token may present: not that token, also not with NUL bytes behind it. -/
def Withheld (expected presented : Chars) : Prop :=
  ∀ n, asBytes presented ≠ asBytes expected ++ List.replicate n 0

theorem asBytes_injective : Function.Injective asBytes := by
  intro a b h
  have hencoded : a.utf8Encode = b.utf8Encode := congrArg List.toByteArray h
  rw [← String.toByteArray_ofList, ← String.toByteArray_ofList] at hencoded
  exact String.ofList_injective (String.toByteArray_inj.mp hencoded)

theorem foldl_or_eq_zero {ι : Type} (f : ι → UInt8) (indices : List ι) (different : UInt8) :
    indices.foldl (fun d i => d ||| f i) different = 0 ↔ different = 0 ∧ ∀ i ∈ indices, f i = 0 := by
  induction indices generalizing different with
  | nil => simp
  | cons i rest ih =>
    rw [List.foldl_cons, ih, UInt8.or_eq_zero_iff]
    simp [and_assoc]

theorem getD_of_constantTimeEq {a b : Bytes} (h : constantTimeEq a b = true) (i : ℕ) :
    a.getD i 0 = b.getD i 0 := by
  rw [constantTimeEq, beq_iff_eq, foldl_or_eq_zero] at h
  by_cases hi : i < max a.length b.length
  · exact UInt8.xor_eq_zero_iff.mp (h.2 i (List.mem_range.mpr hi))
  · have hlen := max_le_iff.mp (not_lt.mp hi)
    rw [List.getD_eq_default _ _ hlen.1, List.getD_eq_default _ _ hlen.2]

theorem length_le_of_getD {a b : Bytes} (hb : 0 ∉ b) (h : ∀ i, a.getD i 0 = b.getD i 0) : b.length ≤ a.length := by
  by_contra hlen
  have hlast : a.length < b.length := not_le.mp hlen
  have hzero := h a.length
  rw [List.getD_eq_default _ _ le_rfl, List.getD_eq_getElem _ _ hlast] at hzero
  apply hb
  rw [hzero]
  exact List.getElem_mem hlast

theorem append_zeros_of_getD {a b : Bytes} (hlen : b.length ≤ a.length) (h : ∀ i, a.getD i 0 = b.getD i 0) :
    a = b ++ List.replicate (a.length - b.length) 0 := by
  apply List.ext_getElem
  · simp only [List.length_append, List.length_replicate]
    omega
  · intro i hi hi'
    rw [← List.getD_eq_getElem _ 0 hi, ← List.getD_eq_getElem _ 0 hi', h i]
    by_cases hbi : i < b.length
    · rw [List.getD_append _ _ _ _ hbi]
    · rw [List.getD_append_right _ _ _ _ (not_lt.mp hbi), List.getD_eq_default _ _ (not_lt.mp hbi),
        List.getD_replicate 0 (by omega)]

theorem padded_of_constantTimeEq {a b : Bytes} (hb : 0 ∉ b) (h : constantTimeEq a b = true) :
    a = b ++ List.replicate (a.length - b.length) 0 := by
  have hget := getD_of_constantTimeEq h
  exact append_zeros_of_getD (length_le_of_getD hb hget) hget

theorem tokenMatches_of_withheld {presented expected : Chars} (hexpected : 0 ∉ asBytes expected)
    (h : Withheld expected presented) : tokenMatches presented expected = false := by
  rw [Bool.eq_false_iff]
  intro hmatch
  exact h _ (padded_of_constantTimeEq hexpected hmatch)

theorem hexDigit_bytes : ∀ n < 16, 0 ∉ String.utf8EncodeChar (hexDigit n) := by decide

theorem hexToken_bytes (bytes : Fin 32 → UInt8) : 0 ∉ asBytes (hexToken bytes) := by
  intro h
  obtain ⟨c, hc, hzero⟩ := List.mem_flatMap.mp h
  obtain ⟨b, -, hcb⟩ := List.mem_flatMap.mp hc
  have hb := b.toNat_lt
  simp only [List.mem_cons, List.not_mem_nil, or_false] at hcb
  rcases hcb with rfl | rfl
  · exact hexDigit_bytes _ (by omega) hzero
  · exact hexDigit_bytes _ (by omega) hzero

theorem hexToken_withheld {expected : Chars} {bytes : Fin 32 → UInt8} (h : hexToken bytes ≠ expected) :
    Withheld expected (hexToken bytes) := by
  intro n hpadded
  cases n with
  | zero =>
    apply h
    apply asBytes_injective
    simpa using hpadded
  | succ n =>
    apply hexToken_bytes bytes
    rw [hpadded]
    simp [List.replicate_succ]

end Dcfs.Sessions
