import Mathlib.Data.List.Basic
import Mathlib.Tactic

namespace Text

abbrev Chars := List Char

def asBytes (text : Chars) : List UInt8 := text.flatMap String.utf8EncodeChar

def isWhitespace (c : Char) : Bool :=
  let n := c.toNat
  (9 ≤ n && n ≤ 13) || (0x2000 ≤ n && n ≤ 0x200a)
    || [0x20, 0x85, 0xa0, 0x1680, 0x2028, 0x2029, 0x202f, 0x205f, 0x3000].contains n

def trim (text : Chars) : Chars :=
  ((text.dropWhile isWhitespace).reverse.dropWhile isWhitespace).reverse

def splitOnce (separator : Char) : Chars → Option (Chars × Chars)
  | [] => none
  | c :: rest =>
    if c = separator then some ([], rest)
    else (splitOnce separator rest).map fun (before, after) => (c :: before, after)

def split (separator : Char) : Chars → List Chars
  | [] => [[]]
  | c :: rest =>
    if c = separator then [] :: split separator rest
    else match split separator rest with
      | [] => [[c]]
      | part :: parts => (c :: part) :: parts

inductive IntError
  | empty | invalidDigit | posOverflow
  deriving DecidableEq

def IntError.text : IntError → String
  | .empty => "cannot parse integer from empty string"
  | .invalidDigit => "invalid digit found in string"
  | .posOverflow => "number too large to fit in target type"

def readDigits (bound : ℕ) : ℕ → Chars → Except IntError ℕ
  | value, [] => .ok value
  | value, c :: rest =>
    if c.isDigit then
      let next := value * 10 + (c.toNat - '0'.toNat)
      if next < bound then readDigits bound next rest else .error .posOverflow
    else .error .invalidDigit

def parseUnsigned (bound : ℕ) (text : Chars) : Except IntError ℕ :=
  match text with
  | [] => .error .empty
  | ['+'] => .error .invalidDigit
  | '+' :: rest => readDigits bound 0 rest
  | text => readDigits bound 0 text

def hexValue (c : Char) : Option ℕ :=
  if c.isDigit then some (c.toNat - '0'.toNat)
  else if 'a' ≤ c ∧ c ≤ 'f' then some (c.toNat - 'a'.toNat + 10)
  else if 'A' ≤ c ∧ c ≤ 'F' then some (c.toNat - 'A'.toNat + 10)
  else none

def hexDigit (n : ℕ) : Char := if n < 10 then Char.ofNat (48 + n) else Char.ofNat (87 + n)

def readHex (text : Chars) : Option ℕ :=
  if text = [] then none else text.foldlM (fun value c => (hexValue c).map (value * 16 + ·)) 0

def parseHexI64 (text : Chars) : Option ℤ := do
  let value ← match text with
    | '-' :: rest => (readHex rest).map fun n => -(n : ℤ)
    | '+' :: rest => (readHex rest).map fun n => (n : ℤ)
    | text => (readHex text).map fun n => (n : ℤ)
  if -2 ^ 63 ≤ value ∧ value < 2 ^ 63 then some value else none

theorem readDigits_lt {bound value n : ℕ} {text : Chars} (hvalue : value < bound)
    (h : readDigits bound value text = .ok n) : n < bound := by
  induction text generalizing value with
  | nil =>
    cases h
    exact hvalue
  | cons c rest ih =>
    simp only [readDigits] at h
    split_ifs at h with _ hnext
    exact ih hnext h

theorem parseUnsigned_lt {bound n : ℕ} {text : Chars} (hbound : 0 < bound)
    (h : parseUnsigned bound text = .ok n) : n < bound := by
  unfold parseUnsigned at h
  split at h
  · cases h
  · cases h
  · exact readDigits_lt hbound h
  · exact readDigits_lt hbound h

end Text
