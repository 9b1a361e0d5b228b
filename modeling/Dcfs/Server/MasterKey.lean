import Dcfs.Server.KeyText

namespace Dcfs.Environment

open Text

inductive Spells : Chars → List UInt8 → Prop
  | nil : Spells [] []
  | cons {c d : Char} {a b : ℕ} {text : Chars} {key : List UInt8} (hc : hexValue c = some a) (hd : hexValue d = some b)
      (h : Spells text key) : Spells (c :: d :: text) (UInt8.ofNat (16 * a + b) :: key)

inductive Paired : Chars → Prop
  | nil : Paired []
  | cons {c d : Char} {text : Chars} (hc : c = '+' ∨ (hexValue c).isSome) (hd : (hexValue d).isSome)
      (h : Paired text) : Paired (c :: d :: text)

inductive Cut : Chars → Prop
  | wide {c : Char} {text : Chars} (hc : 3 ≤ c.utf8Size) : Cut (c :: text)
  | across {c d : Char} {text : Chars} (hc : c.utf8Size = 1) (hd : 2 ≤ d.utf8Size) : Cut (c :: d :: text)
  | later {c d : Char} {text : Chars} (hc : c = '+' ∨ (hexValue c).isSome) (hd : (hexValue d).isSome)
      (h : Cut text) : Cut (c :: d :: text)

theorem length_asBytes_cons (c : Char) (text : Chars) :
    (asBytes (c :: text)).length = c.utf8Size + (asBytes text).length := by
  rw [asBytes, List.flatMap_cons, List.length_append, String.length_utf8EncodeChar]
  rfl

inductive Begins : Chars → Prop
  | nil : Begins []
  | wide {c : Char} {text : Chars} (hc : 3 ≤ c.utf8Size) : Begins (c :: text)
  | double {c : Char} {text : Chars} (hc : c.utf8Size = 2) : Begins (c :: text)
  | across {c d : Char} {text : Chars} (hc : c.utf8Size = 1) (hd : 2 ≤ d.utf8Size) : Begins (c :: d :: text)
  | pair {c d : Char} {text : Chars} (hc : c.utf8Size = 1) (hd : d.utf8Size = 1)
      (heven : (asBytes text).length % 2 = 0) : Begins (c :: d :: text)

theorem begins {text : Chars} (heven : (asBytes text).length % 2 = 0) : Begins text := by
  match text with
  | [] => exact .nil
  | c :: rest =>
    have hpos := c.utf8Size_pos
    rw [length_asBytes_cons] at heven
    by_cases hwide : 3 ≤ c.utf8Size
    · exact .wide hwide
    · by_cases hdouble : c.utf8Size = 2
      · exact .double hdouble
      · have hc : c.utf8Size = 1 := by omega
        match rest with
        | [] =>
          rw [hc] at heven
          cases heven
        | d :: text =>
          have hpos := d.utf8Size_pos
          by_cases hd : d.utf8Size = 1
          · rw [length_asBytes_cons] at heven
            exact .pair hc hd (by omega)
          · exact .across hc (by omega)

theorem readKey_of_cut {text : Chars} (h : Cut text) : readKey (asBytes text) = .error .panicked := by
  induction h with
  | wide hc => exact readKey_wide hc
  | across hc hd => exact readKey_across hc hd
  | later hc hd h ih =>
    obtain ⟨b, hb⟩ := Option.isSome_iff_exists.mp (readPair_isSome.mpr ⟨hc, hd⟩)
    have hsize := hc.elim (fun h => h ▸ rfl) utf8Size_of_hexValue
    rw [readKey_pair hsize (utf8Size_of_hexValue hd), hb, ih]
    rfl

theorem readKey_of_paired {text : Chars} (h : Paired text) : ∃ key, readKey (asBytes text) = .ok key := by
  induction h with
  | nil => exact ⟨[], rfl⟩
  | cons hc hd h ih =>
    obtain ⟨b, hb⟩ := Option.isSome_iff_exists.mp (readPair_isSome.mpr ⟨hc, hd⟩)
    obtain ⟨key, hkey⟩ := ih
    have hsize := hc.elim (fun h => h ▸ rfl) utf8Size_of_hexValue
    rw [readKey_pair hsize (utf8Size_of_hexValue hd), hb, hkey]
    exact ⟨b :: key, rfl⟩

theorem readKey_of_spells {text : Chars} {key : List UInt8} (h : Spells text key) :
    readKey (asBytes text) = .ok key := by
  induction h with
  | nil => rfl
  | @cons c d a b text key hc hd h ih =>
    have hplus : c ≠ '+' := by
      rintro rfl
      cases hc
    have hpair : readPair c d = some (UInt8.ofNat (16 * a + b)) := by
      rw [readPair, if_neg hplus, hc, hd]
      rfl
    have hc' := utf8Size_of_hexValue (c := c) (by rw [hc]; rfl)
    have hd' := utf8Size_of_hexValue (c := d) (by rw [hd]; rfl)
    rw [readKey_pair hc' hd', hpair, ih]
    rfl

theorem cut_of_readKey {text : Chars} (heven : (asBytes text).length % 2 = 0)
    (h : readKey (asBytes text) = .error .panicked) : Cut text := by
  induction hn : text.length using Nat.strong_induction_on generalizing text with
  | _ n ih =>
    cases begins heven with
    | nil => cases h
    | wide hc => exact .wide hc
    | double hc =>
      rw [readKey_double hc] at h
      cases h
    | across hc hd => exact .across hc hd
    | @pair c d text hc hd htail =>
      rw [readKey_pair hc hd] at h
      cases hpair : readPair c d with
      | none =>
        rw [hpair] at h
        cases h
      | some b =>
        obtain ⟨hfirst, hsecond⟩ := readPair_isSome.mp (Option.isSome_of_eq_some hpair)
        refine .later hfirst hsecond (ih text.length ?_ htail ?_ rfl)
        · rw [← hn, List.length_cons, List.length_cons]
          omega
        · rw [hpair] at h
          cases hrest : readKey (asBytes text) with
          | ok key =>
            rw [hrest] at h
            cases h
          | error e =>
            rw [hrest] at h
            cases h
            rfl

theorem spells_of_readPair {c d : Char} {b : UInt8} {text : Chars} {key : List UInt8} (hplus : c ≠ '+')
    (hpair : readPair c d = some b) (h : Spells text key) : Spells (c :: d :: text) (b :: key) := by
  rw [readPair, if_neg hplus, Option.bind_eq_some_iff] at hpair
  obtain ⟨x, hx, hpair⟩ := hpair
  obtain ⟨y, hy, rfl⟩ := Option.map_eq_some_iff.mp hpair
  exact .cons hx hy h

theorem paired_of_readKey {text : Chars} {key : List UInt8} (heven : (asBytes text).length % 2 = 0)
    (h : readKey (asBytes text) = .ok key) : Paired text ∧ ('+' ∉ text → Spells text key) := by
  induction hn : text.length using Nat.strong_induction_on generalizing text key with
  | _ n ih =>
    cases begins heven with
    | nil =>
      cases h
      exact ⟨.nil, fun _ => .nil⟩
    | wide hc =>
      rw [readKey_wide hc] at h
      cases h
    | double hc =>
      rw [readKey_double hc] at h
      cases h
    | across hc hd =>
      rw [readKey_across hc hd] at h
      cases h
    | @pair c d text hc hd htail =>
      rw [readKey_pair hc hd] at h
      cases hpair : readPair c d with
      | none =>
        rw [hpair] at h
        cases h
      | some b =>
        rw [hpair] at h
        cases hrest : readKey (asBytes text) with
        | error e =>
          rw [hrest] at h
          cases h
        | ok rest =>
          rw [hrest] at h
          cases h
          obtain ⟨hpaired, hspells⟩ := ih text.length (by rw [← hn, List.length_cons, List.length_cons]; omega)
            htail hrest rfl
          obtain ⟨hfirst, hsecond⟩ := readPair_isSome.mp (Option.isSome_of_eq_some hpair)
          refine ⟨.cons hfirst hsecond hpaired, fun hplus => ?_⟩
          rw [List.mem_cons, not_or, List.mem_cons, not_or] at hplus
          exact spells_of_readPair (Ne.symm hplus.1) hpair (hspells hplus.2.2)

theorem Spells.plus_not_mem {text : Chars} {key : List UInt8} (h : Spells text key) : '+' ∉ text := by
  induction h with
  | nil => exact List.not_mem_nil
  | cons hc hd h ih =>
    rw [List.mem_cons, List.mem_cons]
    rintro (rfl | rfl | hmem)
    · cases hc
    · cases hd
    · exact ih hmem

theorem Spells.length_asBytes {text : Chars} {key : List UInt8} (h : Spells text key) :
    (asBytes text).length = text.length := by
  induction h with
  | nil => rfl
  | @cons c d a b text key hc hd h ih =>
    have hc' := utf8Size_of_hexValue (c := c) (by rw [hc]; rfl)
    have hd' := utf8Size_of_hexValue (c := d) (by rw [hd]; rfl)
    rw [length_asBytes_cons, length_asBytes_cons, ih, hc', hd', List.length_cons, List.length_cons]
    omega

/-- A text of 64 bytes that the parser mistakes: it cuts a character, or it takes signs for digits. -/
def Misread (hex : Chars) : Prop := (asBytes hex).length = 64 ∧ (Cut hex ∨ Paired hex ∧ '+' ∈ hex)

section Exact

variable {env : String → Variable} {raw : Chars} (hset : env "MASTER_KEY" = .set raw)

include hset

theorem masterKeyVar_eq (hlen : (asBytes (trim raw)).length = 64) :
    masterKeyVar env = (readKey (asBytes (trim raw))).map some := by
  have hempty : (trim raw).isEmpty = false := by
    cases htrim : trim raw with
    | nil =>
      rw [htrim] at hlen
      cases hlen
    | cons c rest => rfl
  simp only [masterKeyVar, optionalVar, hset, hempty, Bool.false_eq_true, if_false]
  change (if (asBytes (trim raw)).length ≠ 64 then _ else _) = _
  rw [if_neg (not_not.mpr hlen)]
  rfl

theorem masterKeyVar_other (hlen : (asBytes (trim raw)).length ≠ 64) :
    (∃ e, masterKeyVar env = .error (.error e)) ∨ masterKeyVar env = .ok none := by
  by_cases hempty : (trim raw).isEmpty
  · right
    simp only [masterKeyVar, optionalVar, hset, hempty, if_true]
    rfl
  · left
    simp only [masterKeyVar, optionalVar, hset, hempty, Bool.false_eq_true, if_false]
    change ∃ e, (if (asBytes (trim raw)).length ≠ 64 then _ else _) = _
    rw [if_pos hlen]
    exact ⟨_, rfl⟩

end Exact

theorem map_some_eq_error {α : Type} {x : Load α} {e : Failure} : x.map some = .error e ↔ x = .error e := by
  cases x <;> simp [Except.map]

theorem map_some_eq_ok {α : Type} {x : Load α} {a : α} : x.map some = .ok (some a) ↔ x = .ok a := by
  cases x <;> simp [Except.map]

theorem master_key_exact_iff {env : String → Variable} {raw : Chars} (hset : env "MASTER_KEY" = .set raw) :
    (masterKeyVar env ≠ .error .panicked
      ∧ ∀ key, masterKeyVar env = .ok (some key) ↔ (trim raw).length = 64 ∧ Spells (trim raw) key)
    ↔ ¬ Misread (trim raw) := by
  by_cases hlen : (asBytes (trim raw)).length = 64
  · have heven : (asBytes (trim raw)).length % 2 = 0 := by rw [hlen]
    rw [masterKeyVar_eq hset hlen, Ne, map_some_eq_error]
    simp only [map_some_eq_ok]
    constructor
    · rintro ⟨hcalm, hexact⟩ ⟨-, hcut | ⟨hpaired, hplus⟩⟩
      · exact hcalm (readKey_of_cut hcut)
      · obtain ⟨key, hkey⟩ := readKey_of_paired hpaired
        exact ((hexact key).mp hkey).2.plus_not_mem hplus
    · intro hread
      refine ⟨fun hpanics => hread ⟨hlen, .inl (cut_of_readKey heven hpanics)⟩, fun key => ⟨fun hkey => ?_, ?_⟩⟩
      · obtain ⟨hpaired, hspells⟩ := paired_of_readKey heven hkey
        have hspells := hspells fun hplus => hread ⟨hlen, .inr ⟨hpaired, hplus⟩⟩
        exact ⟨hspells.length_asBytes ▸ hlen, hspells⟩
      · rintro ⟨-, hspells⟩
        exact readKey_of_spells hspells
  · have hother := masterKeyVar_other hset hlen
    constructor
    · rintro - ⟨hsize, -⟩
      exact hlen hsize
    · rintro -
      refine ⟨?_, fun key => ⟨?_, ?_⟩⟩
      · rcases hother with ⟨e, h⟩ | h <;> rw [h] <;> nofun
      · rcases hother with ⟨e, h⟩ | h <;> rw [h] <;> nofun
      · rintro ⟨hsize, hspells⟩
        exact absurd (hspells.length_asBytes.trans hsize) hlen

def keyOnly (raw : Chars) (var : String) : Variable := if var = "MASTER_KEY" then .set raw else .unset

theorem master_key_exact_of_digits : masterKeyVar (keyOnly (List.replicate 64 'a')) ≠ .error .panicked
    ∧ ∀ key, masterKeyVar (keyOnly (List.replicate 64 'a')) = .ok (some key)
      ↔ (trim (List.replicate 64 'a')).length = 64 ∧ Spells (trim (List.replicate 64 'a')) key := by
  apply (master_key_exact_iff rfl).mpr
  have htrim : trim (List.replicate 64 'a') = List.replicate 64 'a' := by decide
  have hread : readKey (asBytes (List.replicate 64 'a')) = .ok (List.replicate 32 170) := rfl
  rw [htrim]
  rintro ⟨-, hcut | ⟨-, hplus⟩⟩
  · rw [readKey_of_cut hcut] at hread
    cases hread
  · exact absurd hplus (by decide)

theorem master_key_misread :
    masterKeyVar (keyOnly (List.replicate 32 ['+', '1']).flatten) = .ok (some (List.replicate 32 1))
    ∧ (¬ ∃ key, Spells (List.replicate 32 ['+', '1']).flatten key)
    ∧ masterKeyVar (keyOnly ('a' :: List.replicate 31 'é' ++ ['a'])) = .error .panicked := by
  -- Thirty-two times a sign and a digit are 64 bytes, and so are 31 characters of two bytes between two letters.
  refine ⟨rfl, ?_, rfl⟩
  rintro ⟨key, hspells⟩
  exact hspells.plus_not_mem (by decide)

end Dcfs.Environment
