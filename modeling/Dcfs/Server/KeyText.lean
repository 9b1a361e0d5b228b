import Dcfs.Server.Environment

namespace Dcfs.Environment

open Text

def readPair (c d : Char) : Option UInt8 :=
  if c = '+' then (hexValue d).map UInt8.ofNat
  else (hexValue c).bind fun a => (hexValue d).map fun b => UInt8.ofNat (16 * a + b)

theorem readPair_isSome {c d : Char} :
    (readPair c d).isSome ↔ (c = '+' ∨ (hexValue c).isSome) ∧ (hexValue d).isSome := by
  rw [readPair]
  by_cases h : c = '+'
  · simp [h]
  · cases hexValue c <;> simp [h]

section Bytes

variable {c d : Char} {text : Chars}

theorem toNat_lt_of_utf8Size (h : c.utf8Size = 1) : c.toNat < 128 := by
  rw [Char.utf8Size_eq_one_iff, UInt32.le_iff_toNat_le] at h
  exact Nat.lt_succ_of_le h

theorem utf8_single (h : c.utf8Size = 1) : String.utf8EncodeChar c = [UInt8.ofNat c.toNat] :=
  if_pos (Nat.le_of_lt_succ (toNat_lt_of_utf8Size h))

theorem utf8_longer (h : 2 ≤ c.utf8Size) : ∃ lead next tail, String.utf8EncodeChar c = lead :: next :: tail
    ∧ 192 ≤ lead.toNat ∧ isContinuation next = true ∧ (3 ≤ c.utf8Size → tail.head?.any isContinuation = true) := by
  have hcontinuation : ∀ n, isContinuation (UInt8.ofNat (n % 64 + 128)) = true := by
    intro n
    rw [isContinuation, UInt8.toNat_ofNat']
    simp only [Bool.and_eq_true, decide_eq_true_eq]
    omega
  have hlead : ∀ n, 192 ≤ n → n < 256 → 192 ≤ (UInt8.ofNat n).toNat := by
    intro n hleast hmost
    rwa [UInt8.toNat_ofNat_of_lt' hmost]
  have hlen := String.length_utf8EncodeChar c
  rw [String.utf8EncodeChar] at hlen ⊢
  split_ifs at hlen ⊢
  · simp only [List.length_cons, List.length_nil] at hlen
    omega
  · refine ⟨_, _, _, rfl, hlead _ (by omega) (by omega), hcontinuation _, fun hthree => ?_⟩
    simp only [List.length_cons, List.length_nil] at hlen
    omega
  · exact ⟨_, _, _, rfl, hlead _ (by omega) (by omega), hcontinuation _, fun _ => hcontinuation _⟩
  · exact ⟨_, _, _, rfl, hlead _ (by omega) (by omega), hcontinuation _, fun _ => hcontinuation _⟩

theorem utf8_double (h : c.utf8Size = 2) : ∃ lead next, String.utf8EncodeChar c = [lead, next]
    ∧ 192 ≤ lead.toNat := by
  obtain ⟨lead, next, tail, hbytes, hlead, -⟩ := utf8_longer h.ge
  have hlen := String.length_utf8EncodeChar c
  rw [hbytes, h] at hlen
  obtain rfl : tail = [] := by simpa using hlen
  exact ⟨lead, next, hbytes, hlead⟩

theorem asBytes_head (text : Chars) : (asBytes text).head?.any isContinuation = false := by
  cases text with
  | nil => rfl
  | cons c rest =>
    rw [asBytes, List.flatMap_cons]
    rcases Nat.lt_or_ge c.utf8Size 2 with hc | hc
    · have hone : c.utf8Size = 1 := by
        have := c.utf8Size_pos
        omega
      have hsmall := toNat_lt_of_utf8Size hone
      have hbyte : (UInt8.ofNat c.toNat).toNat = c.toNat := UInt8.toNat_ofNat_of_lt' (lt_trans hsmall (by decide))
      rw [utf8_single hone]
      simp only [List.singleton_append, List.head?_cons, Option.any_some, isContinuation, hbyte]
      simp only [Bool.and_eq_false_iff, decide_eq_false_iff_not]
      omega
    · obtain ⟨lead, next, tail, hbytes, hlead, -⟩ := utf8_longer hc
      rw [hbytes]
      simp only [List.cons_append, List.head?_cons, Option.any_some, isContinuation]
      simp only [Bool.and_eq_false_iff, decide_eq_false_iff_not]
      omega

theorem hexDigit?_single (h : c.utf8Size = 1) : hexDigit? (UInt8.ofNat c.toNat) = hexValue c := by
  have hall : ∀ n < 128, hexDigit? (UInt8.ofNat n) = hexValue (Char.ofNat n) := by decide
  rw [hall c.toNat (toNat_lt_of_utf8Size h), Char.ofNat_toNat]

theorem utf8Size_of_hexValue (h : (hexValue c).isSome) : c.utf8Size = 1 := by
  rw [Char.utf8Size_eq_one_iff, UInt32.le_iff_toNat_le]
  change c.toNat ≤ 127
  rw [hexValue] at h
  split_ifs at h with hdigit hlower hupper
  · have hle := (Bool.and_eq_true_iff.mp hdigit).2
    rw [decide_eq_true_eq, UInt32.le_iff_toNat_le] at hle
    change c.toNat ≤ 57 at hle
    omega
  · have hle := UInt32.le_iff_toNat_le.mp hlower.2
    change c.toNat ≤ 102 at hle
    omega
  · have hle := UInt32.le_iff_toNat_le.mp hupper.2
    change c.toNat ≤ 70 at hle
    omega
  · cases h

theorem hexByte_single (hc : c.utf8Size = 1) (hd : d.utf8Size = 1) :
    hexByte (UInt8.ofNat c.toNat) (UInt8.ofNat d.toNat) = readPair c d := by
  have hplus : UInt8.ofNat c.toNat = 43 ↔ c = '+' := by
    have hall : ∀ n < 128, UInt8.ofNat n = 43 ↔ Char.ofNat n = '+' := by decide
    rw [hall c.toNat (toNat_lt_of_utf8Size hc), Char.ofNat_toNat]
  rw [hexByte, hexDigit?_single hc, hexDigit?_single hd, readPair]
  by_cases h : c = '+'
  · rw [if_pos (hplus.mpr h), if_pos h]
  · rw [if_neg (hplus.not.mpr h), if_neg h]
    cases hexValue c <;> cases hexValue d <;> rfl

theorem not_continuation_single (hc : c.utf8Size = 1) : isContinuation (UInt8.ofNat c.toNat) = false := by
  have hhead := asBytes_head [c]
  rwa [asBytes, List.flatMap_cons, utf8_single hc] at hhead

theorem readKey_wide (hc : 3 ≤ c.utf8Size) : readKey (asBytes (c :: text)) = .error .panicked := by
  obtain ⟨lead, next, tail, hbytes, -, -, hhead⟩ := utf8_longer (c := c) (by omega)
  have hcontinues := hhead hc
  rw [asBytes, List.flatMap_cons, hbytes]
  cases tail with
  | nil => cases hcontinues
  | cons b rest =>
    rw [List.head?_cons, Option.any_some] at hcontinues
    simp [readKey, hcontinues]

theorem readKey_double (hc : c.utf8Size = 2) :
    readKey (asBytes (c :: text)) = invalid "MASTER_KEY" "not valid hex" := by
  obtain ⟨lead, next, hbytes, hlead⟩ := utf8_double hc
  have hstart : isContinuation lead = false := by
    simp only [isContinuation, Bool.and_eq_false_iff, decide_eq_false_iff_not]
    omega
  have hplus : lead ≠ 43 := by
    rintro rfl
    exact absurd hlead (by decide)
  have hdigit : hexDigit? lead = none := by
    rw [hexDigit?, if_neg (by omega), if_neg (by omega), if_neg (by omega)]
  rw [asBytes, List.flatMap_cons, hbytes]
  change readKey (lead :: next :: asBytes text) = _
  rw [readKey, hstart, asBytes_head, hexByte, if_neg hplus, hdigit]
  rfl

theorem readKey_across (hc : c.utf8Size = 1) (hd : 2 ≤ d.utf8Size) :
    readKey (asBytes (c :: d :: text)) = .error .panicked := by
  obtain ⟨lead, next, tail, hbytes, -, hcontinues, -⟩ := utf8_longer hd
  rw [asBytes, List.flatMap_cons, List.flatMap_cons, hbytes, utf8_single hc]
  simp [readKey, hcontinues]

theorem readKey_pair (hc : c.utf8Size = 1) (hd : d.utf8Size = 1) :
    readKey (asBytes (c :: d :: text)) =
      (readPair c d).elim (invalid "MASTER_KEY" "not valid hex") fun b => (readKey (asBytes text)).map (b :: ·) := by
  rw [asBytes, List.flatMap_cons, List.flatMap_cons, utf8_single hc, utf8_single hd]
  change readKey (_ :: _ :: asBytes text) = _
  rw [readKey, not_continuation_single hc, asBytes_head, hexByte_single hc hd]
  cases readPair c d <;> rfl

end Bytes

end Dcfs.Environment
