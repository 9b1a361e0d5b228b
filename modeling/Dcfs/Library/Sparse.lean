import Mathlib.Tactic

/-!
Arrays kept as parts of one size. A part that is missing or too short reads as zeroes, and a
range is read by cutting it at the part boundaries.
-/

namespace Sparse

variable {α : Type} [Zero α]

def padded (part : List α) (q : ℕ) : α := part[q]?.getD 0

def byteAt (size : ℕ) (parts : ℕ → Option (List α)) (p : ℕ) : α :=
  padded ((parts (p / size)).getD []) (p % size)

theorem padded_nil (q : ℕ) : padded ([] : List α) q = 0 := by simp [padded]

theorem padded_of_le {part : List α} {q : ℕ} (h : part.length ≤ q) : padded part q = 0 := by
  simp [padded, List.getElem?_eq_none h]

theorem byteAt_mul_add {size : ℕ} (parts : ℕ → Option (List α)) {i q : ℕ} (hq : q < size) :
    byteAt size parts (i * size + q) = padded ((parts i).getD []) q := by
  have hpos : 0 < size := by omega
  rw [byteAt, Nat.mul_comm, Nat.mul_add_div hpos, Nat.div_eq_of_lt hq, Nat.add_zero,
    Nat.mul_add_mod, Nat.mod_eq_of_lt hq]

theorem byteAt_congr {size : ℕ} {parts parts' : ℕ → Option (List α)} {p : ℕ}
    (h : parts (p / size) = parts' (p / size)) : byteAt size parts p = byteAt size parts' p := by
  rw [byteAt, byteAt, h]

theorem padded_take (part : List α) (n q : ℕ) :
    padded (part.take n) q = if q < n then padded part q else 0 := by
  split_ifs with h
  · rw [padded, List.getElem?_take_of_lt h, padded]
  · exact padded_of_le ((List.length_take_le n part).trans (not_lt.mp h))

theorem padded_drop (part : List α) (n q : ℕ) : padded (part.drop n) q = padded part (n + q) := by
  rw [padded, List.getElem?_drop, padded]

theorem padded_append (xs ys : List α) (q : ℕ) :
    padded (xs ++ ys) q = if q < xs.length then padded xs q else padded ys (q - xs.length) := by
  rw [padded, List.getElem?_append]
  split_ifs <;> rfl

theorem padded_replicate (n q : ℕ) : padded (List.replicate n (0 : α)) q = 0 := by
  rw [padded, List.getElem?_replicate]
  split_ifs <;> rfl

theorem eq_map_of_padded {xs : List α} {f : ℕ → α} {a n : ℕ} (hlen : xs.length = n)
    (h : ∀ q, q < n → padded xs q = f (a + q)) : xs = (List.range' a n).map f := by
  apply List.ext_getElem
  · rw [hlen, List.length_map, List.length_range']
  · intro q hq _
    have hget : padded xs q = xs[q] := by rw [padded, List.getElem?_eq_getElem hq, Option.getD_some]
    rw [List.getElem_map, List.getElem_range', Nat.one_mul, ← h q (hlen ▸ hq), hget]

theorem padded_map_range (f : ℕ → α) {a n q : ℕ} (hq : q < n) :
    padded ((List.range' a n).map f) q = f (a + q) := by
  have hlen : q < (List.range' a n).length := by rwa [List.length_range']
  rw [padded, List.getElem?_map, List.getElem?_eq_getElem hlen, List.getElem_range', Nat.one_mul]
  rfl

def cut (size offset len i : ℕ) : List ℕ :=
  List.range' (max offset (i * size)) (min (offset + len) (i * size + size) - max offset (i * size))

theorem flatMap_cut {size offset len k : ℕ} (hsize : 0 < size)
    (hk : (offset / size + k) * size < offset + len) :
    (List.range' (offset / size) (k + 1)).flatMap (cut size offset len) =
      List.range' offset (min (offset + len) ((offset / size + k) * size + size) - offset) := by
  have hle := Nat.div_mul_le_self offset size
  have hlt := Nat.lt_div_mul_add hsize (a := offset)
  generalize hf : offset / size = f at hk hle hlt ⊢
  induction k with
  | zero =>
    rw [List.range'_one, List.flatMap_singleton, cut, max_eq_left hle]
    rfl
  | succ k ih =>
    have hstep : (f + (k + 1)) * size = (f + k) * size + size := by ring
    have hge : f * size ≤ (f + k) * size := Nat.mul_le_mul_right _ (Nat.le_add_right _ _)
    rw [hstep] at hk ⊢
    rw [List.range'_concat, List.flatMap_append, ih (by omega), List.flatMap_singleton, cut,
      Nat.one_mul, hstep]
    generalize (f + k) * size = start at hk hge ⊢
    obtain ⟨d, hd⟩ : ∃ d, start + size = offset + d := ⟨start + size - offset, by omega⟩
    rw [min_eq_right (by omega), max_eq_right (by omega), hd, Nat.add_sub_cancel_left,
      List.range'_append_1]
    congr 1
    omega

/-- `body` laid over `whole` at `offset`, with zeroes in the gap. Nothing is written by no bytes. -/
def overlay (whole : List α) (offset : ℕ) (body : List α) : List α :=
  if body.isEmpty then whole
  else (List.range' 0 (max whole.length (offset + body.length))).map fun p =>
    if offset ≤ p ∧ p < offset + body.length then padded body (p - offset) else padded whole p

theorem overlay_nil (whole : List α) (offset : ℕ) : overlay whole offset [] = whole := rfl

theorem length_overlay (whole : List α) (offset : ℕ) {body : List α} (h : body ≠ []) :
    (overlay whole offset body).length = max whole.length (offset + body.length) := by
  rw [overlay, List.isEmpty_eq_false_iff.mpr h, if_neg Bool.false_ne_true, List.length_map,
    List.length_range']

theorem padded_overlay (whole : List α) (offset : ℕ) {body : List α} (h : body ≠ []) (p : ℕ) :
    padded (overlay whole offset body) p =
      if offset ≤ p ∧ p < offset + body.length then padded body (p - offset) else padded whole p := by
  by_cases hp : p < max whole.length (offset + body.length)
  · rw [overlay, List.isEmpty_eq_false_iff.mpr h, if_neg Bool.false_ne_true, padded_map_range _ hp,
      Nat.zero_add]
  · rw [padded_of_le (by rw [length_overlay _ _ h]; exact not_lt.mp hp), if_neg (by omega),
      padded_of_le (by omega)]

theorem eq_of_padded {xs ys : List α} (hlen : xs.length = ys.length) (h : ∀ q, padded xs q = padded ys q) :
    xs = ys := by
  rw [eq_map_of_padded (f := padded ys) (a := 0) hlen fun q _ => by rw [h, Nat.zero_add]]
  exact (eq_map_of_padded rfl fun q _ => by rw [Nat.zero_add]).symm

theorem overlay_append (whole : List α) (offset : ℕ) {body rest : List α} (hbody : body ≠ []) (hrest : rest ≠ []) :
    overlay (overlay whole offset body) (offset + body.length) rest = overlay whole offset (body ++ rest) := by
  have happend : body ++ rest ≠ [] := List.append_ne_nil_of_left_ne_nil hbody rest
  refine eq_of_padded ?_ fun q => ?_
  · rw [length_overlay _ _ hrest, length_overlay _ _ hbody, length_overlay _ _ happend, List.length_append]
    omega
  · rw [padded_overlay _ _ hrest, padded_overlay _ _ hbody, padded_overlay _ _ happend, List.length_append,
      padded_append]
    rcases lt_or_ge q (offset + body.length) with hq | hq
    · rw [if_neg (by omega)]
      by_cases hin : offset ≤ q
      · rw [if_pos ⟨hin, hq⟩, if_pos (by omega), if_pos (by omega)]
      · rw [if_neg (by omega), if_neg (by omega)]
    · rw [if_neg (c := offset ≤ q ∧ q < offset + body.length) (by omega),
        if_neg (c := q - offset < body.length) (by omega)]
      by_cases hin : q < offset + body.length + rest.length
      · rw [if_pos ⟨hq, hin⟩, if_pos (by omega), Nat.sub_sub]
      · rw [if_neg (by omega), if_neg (by omega)]

theorem getElem?_overlay_of_mem (whole : List α) {offset p : ℕ} {body : List α} {a : α} (hp : offset ≤ p)
    (ha : body[p - offset]? = some a) : (overlay whole offset body)[p]? = some a := by
  have hlt := (List.getElem?_eq_some_iff.mp ha).1
  have hne : body.isEmpty = false := by
    cases body with
    | nil => exact absurd hlt (Nat.not_lt_zero _)
    | cons _ _ => rfl
  rw [overlay, hne, if_neg Bool.false_ne_true, List.getElem?_map, List.getElem?_range' (by omega)]
  simp only [Option.map_some, Nat.zero_add, Nat.one_mul]
  rw [if_pos (by omega), padded, ha]
  rfl

theorem getElem?_overlay_of_not_mem {whole : List α} {offset p : ℕ} {body : List α} {a : α}
    (hp : ¬(offset ≤ p ∧ p < offset + body.length)) (ha : whole[p]? = some a) :
    (overlay whole offset body)[p]? = some a := by
  have hlt := (List.getElem?_eq_some_iff.mp ha).1
  rw [overlay]
  split_ifs
  · exact ha
  · rw [List.getElem?_map, List.getElem?_range' (by omega)]
    simp only [Option.map_some, Nat.zero_add, Nat.one_mul]
    rw [if_neg hp, padded, ha]
    rfl

section flatten

variable {size : ℕ} {part : List α} {parts : List (List α)}

end flatten

end Sparse

namespace Blocks

variable {α : Type}

theorem flatMap_split (f : ℕ → List α) {s n k : ℕ} (h : k ≤ n) :
    (List.range' s n).flatMap f =
      (List.range' s k).flatMap f ++ (List.range' (s + k) (n - k)).flatMap f := by
  rw [← List.flatMap_append, List.range'_append_1, Nat.add_sub_cancel' h]

theorem length_uniform (f : ℕ → List α) {s k L : ℕ}
    (h : ∀ i, s ≤ i → i < s + k → (f i).length = L) :
    ((List.range' s k).flatMap f).length = k * L := by
  induction k generalizing s with
  | zero => simp
  | succ k ih =>
    rw [List.range'_succ, List.flatMap_cons, List.length_append, h s le_rfl (by omega),
      ih (fun i h1 h2 => h i (by omega) (by omega))]
    ring

theorem drop_uniform (f : ℕ → List α) {s n k L : ℕ} (hk : k ≤ n)
    (h : ∀ i, s ≤ i → i < s + k → (f i).length = L) :
    ((List.range' s n).flatMap f).drop (k * L) = (List.range' (s + k) (n - k)).flatMap f := by
  rw [flatMap_split f hk]
  exact List.drop_left' (length_uniform f h)

theorem take_split (f : ℕ → List α) {s n k m : ℕ} (hk : k ≤ n)
    (h : ((List.range' s k).flatMap f).length = m) :
    ((List.range' s n).flatMap f).take m = (List.range' s k).flatMap f := by
  rw [flatMap_split f hk]
  exact List.take_left' h

def slice (xs : List α) (L i : ℕ) : List α := (xs.drop (i * L)).take L

theorem flatMap_slice (xs : List α) (L s k : ℕ) :
    (List.range' s k).flatMap (slice xs L) = (xs.drop (s * L)).take (k * L) := by
  induction k generalizing s with
  | zero => simp
  | succ k ih =>
    rw [List.range'_succ, List.flatMap_cons, ih, slice, Nat.succ_mul k, Nat.add_comm (k * L) L,
      List.take_add, List.drop_drop, Nat.succ_mul s]

theorem length_slice (xs : List α) (L i : ℕ) : (slice xs L i).length = min L (xs.length - i * L) := by
  simp [slice]

end Blocks
