import Dcfs.Sessions.Token

namespace Dcfs.Sessions

open Text

def base64Digits : Chars := "ABCDEFGHIJKLMNOPQRSTUVWXYZabcdefghijklmnopqrstuvwxyz0123456789+/".toList

def base64Char (value : ℕ) : Char := base64Digits.getD value '='

def base64Encode (padded : Bool) : Bytes → Chars
  | [] => []
  | [a] => base64Char (a.toNat / 4) :: base64Char (a.toNat % 4 * 16) :: if padded then ['=', '='] else []
  | [a, b] =>
    base64Char (a.toNat / 4) :: base64Char (a.toNat % 4 * 16 + b.toNat / 16) :: base64Char (b.toNat % 16 * 4)
      :: if padded then ['='] else []
  | a :: b :: c :: rest =>
    base64Char (a.toNat / 4) :: base64Char (a.toNat % 4 * 16 + b.toNat / 16)
      :: base64Char (b.toNat % 16 * 4 + c.toNat / 64) :: base64Char (c.toNat % 64) :: base64Encode padded rest

theorem base64Char_bytes : ∀ value < 64, String.utf8EncodeChar (base64Char value) = [alphabet.getD value 0]
    ∧ (alphabet.getD value 0 == 61 || isAsciiWhitespace (alphabet.getD value 0)) = false
    ∧ alphabet.idxOf? (alphabet.getD value 0) = some value := by decide +kernel

namespace Base64

def pushed (buffer : UInt32) (value : ℕ) : UInt32 := (buffer <<< 6) ||| UInt32.ofNat value

theorem toNat_pushed (buffer : UInt32) {value : ℕ} (h : value < 64) :
    (pushed buffer value).toNat = buffer.toNat * 64 % 2 ^ 32 + value := by
  have hvalue : (UInt32.ofNat value).toNat = value := UInt32.toNat_ofNat_of_lt' (lt_trans h (by decide))
  have hshift : (buffer <<< 6).toNat = (buffer.toNat * 64 % 2 ^ 32 / 64) <<< 6 := by
    rw [UInt32.toNat_shiftLeft, Nat.shiftLeft_eq, Nat.shiftLeft_eq]
    change buffer.toNat * 64 % 2 ^ 32 = _
    omega
  rw [pushed, UInt32.toNat_or, hvalue, hshift, ← Nat.shiftLeft_add_eq_or_of_lt (i := 6) h, Nat.shiftLeft_eq]
  omega

theorem ofNat_eq {n : ℕ} {a : UInt8} (h : n % 256 = a.toNat) : UInt8.ofNat n = a := by
  apply UInt8.toNat_inj.mp
  rw [UInt8.toNat_ofNat']
  exact h

def readAll (state : Base64) (text : Chars) : Option Base64 := (asBytes text).foldlM read state

structure Pending (state : Base64) (bytes : Bytes) (count low : ℕ) : Prop where
  out : state.out = bytes
  bits : state.bits.toNat = count
  buffer : state.buffer.toNat % 2 ^ count = low

theorem readAll_cons (state : Base64) {value : ℕ} (h : value < 64) (text : Chars) :
    readAll state (base64Char value :: text) =
      if 8 ≤ state.bits + 6 then
        readAll ⟨state.out ++ [(pushed state.buffer value >>> (state.bits + 6 - 8)).toUInt8], pushed state.buffer value,
            state.bits + 6 - 8⟩ text
      else readAll ⟨state.out, pushed state.buffer value, state.bits + 6⟩ text := by
  obtain ⟨hbytes, hskipped, hindex⟩ := base64Char_bytes value h
  rw [readAll, asBytes, List.flatMap_cons, hbytes, List.singleton_append, List.foldlM_cons, read, hskipped, hindex]
  simp only [Bool.false_eq_true, if_false, Option.bind_eq_bind, Option.bind_some]
  split_ifs <;> rfl

variable {state : Base64} {bytes : Bytes} {count low : ℕ}

theorem Pending.keep (h : Pending state bytes count low) (hcount : count < 2) {value : ℕ} (hvalue : value < 64)
    (text : Chars) :
    ∃ state', Pending state' bytes (count + 6) (low * 64 + value)
      ∧ readAll state (base64Char value :: text) = readAll state' text := by
  have hsum : (state.bits + 6).toNat = count + 6 := by
    rw [UInt32.toNat_add, h.bits]
    change (count + 6) % 2 ^ 32 = count + 6
    omega
  have hfew : ¬ 8 ≤ state.bits + 6 := by
    rw [UInt32.le_iff_toNat_le, hsum]
    change ¬ 8 ≤ count + 6
    omega
  have hpushed := toNat_pushed state.buffer hvalue
  have hlow := h.buffer
  rw [readAll_cons state hvalue, if_neg hfew]
  refine ⟨⟨state.out, pushed state.buffer value, state.bits + 6⟩, ⟨h.out, hsum, ?_⟩, rfl⟩
  simp only [hpushed]
  interval_cases count <;> omega

theorem Pending.emit (h : Pending state bytes count low) (hleast : 2 ≤ count) (hcount : count < 8)
    {value : ℕ} (hvalue : value < 64) (text : Chars) :
    ∃ state', Pending state' (bytes ++ [UInt8.ofNat ((low * 64 + value) / 2 ^ (count - 2))]) (count - 2)
        ((low * 64 + value) % 2 ^ (count - 2))
      ∧ readAll state (base64Char value :: text) = readAll state' text := by
  have hsum : (state.bits + 6).toNat = count + 6 := by
    rw [UInt32.toNat_add, h.bits]
    change (count + 6) % 2 ^ 32 = count + 6
    omega
  have hmany : 8 ≤ state.bits + 6 := by
    rw [UInt32.le_iff_toNat_le, hsum]
    change 8 ≤ count + 6
    omega
  have hrest : (state.bits + 6 - 8).toNat = count - 2 := by
    rw [UInt32.toNat_sub_of_le _ _ hmany, hsum]
    change count + 6 - 8 = count - 2
    omega
  have hpushed := toNat_pushed state.buffer hvalue
  have hlow := h.buffer
  rw [readAll_cons state hvalue, if_pos hmany]
  have hbyte : (pushed state.buffer value >>> (state.bits + 6 - 8)).toUInt8 =
      UInt8.ofNat ((low * 64 + value) / 2 ^ (count - 2)) := by
    apply UInt8.toNat_inj.mp
    rw [UInt32.toNat_toUInt8, UInt32.toNat_shiftRight, hrest, Nat.mod_eq_of_lt (a := count - 2) (by omega),
      Nat.shiftRight_eq_div_pow, hpushed, UInt8.toNat_ofNat']
    interval_cases count <;> omega
  rw [h.out, hbyte]
  refine ⟨_, ⟨rfl, hrest, ?_⟩, rfl⟩
  simp only [hpushed]
  interval_cases count <;> omega

theorem readAll_encode (padded : Bool) (rest : Bytes) : ∀ {state bytes}, Pending state bytes 0 0 →
    ∃ state', readAll state (base64Encode padded rest) = some state' ∧ state'.out = bytes ++ rest := by
  induction rest using base64Encode.induct with
  | case1 =>
    intro state bytes h
    exact ⟨state, rfl, by rw [h.out, List.append_nil]⟩
  | case2 a =>
    intro state bytes h
    have ha := a.toNat_lt
    rw [base64Encode]
    obtain ⟨state₁, h₁, hread₁⟩ := h.keep (by omega) (show a.toNat / 4 < 64 by omega) _
    obtain ⟨state₂, h₂, hread₂⟩ := h₁.emit (by omega) (by omega) (show a.toNat % 4 * 16 < 64 by omega) _
    rw [hread₁, hread₂]
    refine ⟨state₂, by cases padded <;> rfl, ?_⟩
    rw [h₂.out, ofNat_eq (a := a) (by omega)]
  | case3 a b =>
    intro state bytes h
    have ha := a.toNat_lt
    have hb := b.toNat_lt
    rw [base64Encode]
    obtain ⟨state₁, h₁, hread₁⟩ := h.keep (by omega) (show a.toNat / 4 < 64 by omega) _
    obtain ⟨state₂, h₂, hread₂⟩ :=
      h₁.emit (by omega) (by omega) (show a.toNat % 4 * 16 + b.toNat / 16 < 64 by omega) _
    obtain ⟨state₃, h₃, hread₃⟩ := h₂.emit (by omega) (by omega) (show b.toNat % 16 * 4 < 64 by omega) _
    rw [hread₁, hread₂, hread₃]
    refine ⟨state₃, by cases padded <;> rfl, ?_⟩
    rw [h₃.out, ofNat_eq (a := a) (by omega), ofNat_eq (a := b) (by omega), List.append_assoc]
    rfl
  | case4 a b c rest ih =>
    intro state bytes h
    have ha := a.toNat_lt
    have hb := b.toNat_lt
    have hc := c.toNat_lt
    rw [base64Encode]
    obtain ⟨state₁, h₁, hread₁⟩ := h.keep (by omega) (show a.toNat / 4 < 64 by omega) _
    obtain ⟨state₂, h₂, hread₂⟩ :=
      h₁.emit (by omega) (by omega) (show a.toNat % 4 * 16 + b.toNat / 16 < 64 by omega) _
    obtain ⟨state₃, h₃, hread₃⟩ :=
      h₂.emit (by omega) (by omega) (show b.toNat % 16 * 4 + c.toNat / 64 < 64 by omega) _
    obtain ⟨state₄, h₄, hread₄⟩ := h₃.emit (by omega) (by omega) (show c.toNat % 64 < 64 by omega) _
    rw [ofNat_eq (a := a) (by omega), ofNat_eq (a := b) (by omega), ofNat_eq (a := c) (by omega)] at h₄
    obtain ⟨state', hread, hout⟩ := ih ⟨h₄.out, h₄.bits, Nat.mod_one _⟩
    rw [hread₁, hread₂, hread₃, hread₄, hread]
    refine ⟨state', rfl, ?_⟩
    rw [hout]
    simp

end Base64

theorem base64Decode_encode (padded : Bool) (bytes : Bytes) :
    base64Decode (base64Encode padded bytes) = some bytes := by
  have hstart : Base64.Pending ⟨[], 0, 0⟩ [] 0 0 := ⟨rfl, rfl, rfl⟩
  obtain ⟨state, hread, hout⟩ := Base64.readAll_encode padded bytes hstart
  rw [Base64.readAll] at hread
  rw [base64Decode, hread, Option.map_some, hout]
  rfl

theorem fromUtf8_asBytes (text : Chars) : fromUtf8 (asBytes text) = some text := by
  have hbytes : (⟨(asBytes text).toArray⟩ : ByteArray) = text.utf8Encode := by
    apply ByteArray.ext
    simp [List.utf8Encode, asBytes, List.data_toByteArray]
  have hvalid : (text.utf8Encode).IsValidUTF8 := (String.ofList text).isValidUTF8
  rw [fromUtf8, hbytes, String.fromUTF8?, dif_pos hvalid]
  exact congrArg some String.toList_ofList

theorem splitOnce_append {separator : Char} {before : Chars} (h : separator ∉ before) (after : Chars) :
    splitOnce separator (before ++ separator :: after) = some (before, after) := by
  induction before with
  | nil => simp [splitOnce]
  | cons c rest ih =>
    rw [List.mem_cons, not_or] at h
    rw [List.cons_append, splitOnce, if_neg (Ne.symm h.1), ih h.2]
    rfl

theorem presentedToken_basic {encoded user token : Chars} (huser : ':' ∉ user)
    (h : base64Decode encoded = some (asBytes (user ++ ':' :: token))) :
    presentedToken ("Basic ".toList ++ encoded) = some token := by
  have hbearer : ("Basic ".toList ++ encoded).dropPrefix? "Bearer ".toList = none := rfl
  have hbasic : ("Basic ".toList ++ encoded).dropPrefix? "Basic ".toList = some encoded := by simp [List.dropPrefix?]
  rw [presentedToken, hbearer, hbasic]
  simp only [Option.bind_eq_bind, Option.bind_some, h, fromUtf8_asBytes, splitOnce_append huser]
  rfl

theorem basic_credential_exact {user : Chars} (huser : ':' ∉ user) (token : Chars) (padded : Bool) :
    presentedToken ("Basic ".toList ++ base64Encode padded (asBytes (user ++ ':' :: token))) = some token :=
  presentedToken_basic huser (base64Decode_encode padded _)

theorem basic_credential_of_me : base64Encode true (asBytes "me:a:b".toList) = "bWU6YTpi".toList
    ∧ presentedToken ("Basic ".toList ++ base64Encode true (asBytes ("me".toList ++ ':' :: "a:b".toList))) =
      some "a:b".toList :=
  ⟨by decide, basic_credential_exact (by decide) "a:b".toList true⟩

end Dcfs.Sessions
