import Dcfs.Library.Keyed

namespace Keyed

variable {α : Type} (key : α → ℤ)

def narrow (rows : List α) (target : ℤ) : ℕ → ℕ → ℕ → ℕ
  | 0, base, _ => base
  | n + 1, base, size =>
    if size ≤ 1 then base
    else
      let half := size / 2
      let mid := base + half
      narrow rows target n (if rows[mid]?.any fun a => target < key a then base else mid) (size - half)

def binarySearch (rows : List α) (target : ℤ) : Except ℕ ℕ :=
  let base := narrow key rows target rows.length 0 rows.length
  match rows[base]? with
  | none => .error 0
  | some a => if key a = target then .ok base else .error (if key a < target then base + 1 else base)

def place (a : α) (rows : List α) : List α :=
  match binarySearch key rows (key a) with
  | .ok i => rows.set i a
  | .error i => rows.insertIdx i a

def placeNew (a : α) (rows : List α) : List α :=
  match binarySearch key rows (key a) with
  | .ok _ => rows
  | .error i => rows.insertIdx i a

variable {key}

structure Window (key : α → ℤ) (rows : List α) (target : ℤ) (base size : ℕ) : Prop where
  pos : 0 < size
  fits : base + size ≤ rows.length
  above : ∀ j a, base + size ≤ j → rows[j]? = some a → target < key a
  below : 0 < base → ∀ a, rows[base]? = some a → key a ≤ target

theorem key_lt_of_lt {rows : List α} (ho : Ordered key rows) {i j : ℕ} {a b : α} (hij : i < j)
    (ha : rows[i]? = some a) (hb : rows[j]? = some b) : key a < key b := by
  obtain ⟨hi, rfl⟩ := List.getElem?_eq_some_iff.mp ha
  obtain ⟨hj, rfl⟩ := List.getElem?_eq_some_iff.mp hb
  exact List.pairwise_iff_getElem.mp ho i j hi hj hij

theorem Window.half {rows : List α} (ho : Ordered key rows) {target : ℤ} {base size : ℕ}
    (h : Window key rows target base size) (hsize : 1 < size) :
    Window key rows target (if rows[base + size / 2]?.any fun a => target < key a then base else base + size / 2)
      (size - size / 2) := by
  have hfits := h.fits
  have hmid : base + size / 2 < rows.length := by omega
  have hget : rows[base + size / 2]? = some rows[base + size / 2] := List.getElem?_eq_getElem hmid
  rw [hget, Option.any_some]
  by_cases hlarge : target < key rows[base + size / 2]
  · rw [decide_eq_true hlarge, if_pos rfl]
    refine ⟨by omega, by omega, fun j a hj ha => ?_, h.below⟩
    -- The middle row is too large already, and so is everything behind it.
    rcases Nat.lt_or_ge (base + size / 2) j with hlt | hge
    · exact hlarge.trans (key_lt_of_lt ho hlt hget ha)
    · obtain rfl : j = base + size / 2 := by omega
      rw [hget] at ha
      cases ha
      exact hlarge
  · rw [decide_eq_false hlarge, if_neg Bool.false_ne_true]
    refine ⟨by omega, by omega, fun j a hj ha => h.above j a (by omega) ha, fun _ a ha => ?_⟩
    rw [hget] at ha
    cases ha
    exact not_lt.mp hlarge

theorem Window.narrow {rows : List α} (ho : Ordered key rows) {target : ℤ} {n base size : ℕ}
    (h : Window key rows target base size) (hn : size ≤ n) :
    Window key rows target (narrow key rows target n base size) 1 := by
  induction n generalizing base size with
  | zero =>
    have := h.pos
    omega
  | succ n ih =>
    rw [Keyed.narrow]
    by_cases hsize : size ≤ 1
    · rw [if_pos hsize]
      obtain rfl : size = 1 := by
        have := h.pos
        omega
      exact h
    · rw [if_neg hsize]
      exact ih (h.half ho (by omega)) (by omega)

theorem window_of_ne_nil {rows : List α} (hne : rows ≠ []) (target : ℤ) : Window key rows target 0 rows.length := by
  refine ⟨List.length_pos_iff.mpr hne, by omega, fun j a hj ha => ?_, fun h => absurd h (lt_irrefl 0)⟩
  obtain ⟨hlt, -⟩ := List.getElem?_eq_some_iff.mp ha
  omega

theorem binarySearch_spec {rows : List α} (ho : Ordered key rows) (target : ℤ) :
    (∃ before a after, rows = before ++ a :: after ∧ key a = target
      ∧ binarySearch key rows target = .ok before.length)
    ∨ ∃ before after, rows = before ++ after ∧ (∀ b ∈ before, key b < target) ∧ (∀ b ∈ after, target < key b)
      ∧ binarySearch key rows target = .error before.length := by
  by_cases hnil : rows = []
  · subst hnil
    exact .inr ⟨[], [], rfl, by simp, by simp, rfl⟩
  · have hwindow := (window_of_ne_nil hnil target).narrow ho le_rfl
    rw [binarySearch]
    generalize Keyed.narrow key rows target rows.length 0 rows.length = base at hwindow ⊢
    have hbase : base < rows.length := hwindow.fits
    have hget : rows[base]? = some rows[base] := List.getElem?_eq_getElem hbase
    simp only [hget]
    rcases lt_trichotomy (key rows[base]) target with hlt | heq | hgt
    · right
      refine ⟨rows.take (base + 1), rows.drop (base + 1), (List.take_append_drop _ _).symm, ?_, ?_, ?_⟩
      · intro b hb
        obtain ⟨j, hj⟩ := List.mem_iff_getElem?.mp hb
        rw [List.getElem?_take] at hj
        split_ifs at hj with hlast
        rcases Nat.lt_or_ge j base with hlt' | hge
        · exact (key_lt_of_lt ho hlt' hj hget).trans hlt
        · obtain rfl : j = base := by omega
          rw [hget] at hj
          cases hj
          exact hlt
      · intro b hb
        obtain ⟨j, hj⟩ := List.mem_iff_getElem?.mp hb
        rw [List.getElem?_drop] at hj
        exact hwindow.above _ b (by omega) hj
      · rw [if_neg hlt.ne, if_pos hlt, List.length_take, Nat.min_eq_left hbase]
    · left
      refine ⟨rows.take base, rows[base], rows.drop (base + 1), ?_, heq, ?_⟩
      · rw [← List.drop_eq_getElem_cons hbase, List.take_append_drop]
      · rw [if_pos heq, List.length_take, Nat.min_eq_left hbase.le]
    · right
      obtain rfl : base = 0 := by
        by_contra hpos
        exact absurd (hwindow.below (Nat.pos_of_ne_zero hpos) _ hget) (not_le.mpr hgt)
      refine ⟨[], rows, rfl, by simp, fun b hb => ?_, ?_⟩
      · obtain ⟨j, hj⟩ := List.mem_iff_getElem?.mp hb
        rcases Nat.eq_zero_or_pos j with rfl | hpos
        · rw [hget] at hj
          cases hj
          exact hgt
        · exact hwindow.above j b (by omega) hj
      · rw [if_neg hgt.ne', if_neg hgt.asymm]
        rfl

section Updates

variable {a : α} {before after : List α}

theorem upsert_append (h : ∀ b ∈ before, key b < key a) :
    upsert key a (before ++ after) = before ++ upsert key a after := by
  induction before with
  | nil => rfl
  | cons c rest ih =>
    have hc := h c List.mem_cons_self
    rw [List.cons_append, upsert, if_neg hc.asymm, if_neg hc.ne', ih fun b hb => h b (List.mem_cons_of_mem c hb)]
    rfl

theorem insertNew_append (h : ∀ b ∈ before, key b < key a) :
    insertNew key a (before ++ after) = before ++ insertNew key a after := by
  induction before with
  | nil => rfl
  | cons c rest ih =>
    have hc := h c List.mem_cons_self
    rw [List.cons_append, insertNew, if_neg hc.asymm, if_neg hc.ne', ih fun b hb => h b (List.mem_cons_of_mem c hb)]
    rfl

theorem insertIdx_length (before after : List α) (a : α) :
    (before ++ after).insertIdx before.length a = before ++ a :: after := by
  induction before with
  | nil => rfl
  | cons c rest ih =>
    rw [List.cons_append, List.length_cons, List.insertIdx_succ_cons, ih]
    rfl

theorem length_le_insertNew (a : α) (rows : List α) : rows.length ≤ (insertNew key a rows).length := by
  induction rows with
  | nil => exact Nat.zero_le _
  | cons c rest ih =>
    rw [insertNew]
    split_ifs
    · exact Nat.le_succ _
    · exact le_rfl
    · exact Nat.succ_le_succ ih

theorem before_lt {b : α} (ho : Ordered key (before ++ b :: after)) : ∀ c ∈ before, key c < key b :=
  fun c hc => (List.pairwise_append.mp ho).2.2 c hc b List.mem_cons_self

end Updates

theorem place_eq_upsert {rows : List α} (ho : Ordered key rows) (a : α) : place key a rows = upsert key a rows := by
  rcases binarySearch_spec ho (key a) with ⟨before, b, after, rfl, hb, hfound⟩ |
    ⟨before, after, rfl, hlt, hgt, hmissing⟩
  · have hbefore := before_lt ho
    rw [hb] at hbefore
    rw [place, hfound, upsert_append hbefore, upsert, if_neg (by omega), if_pos hb.symm]
    dsimp only
    rw [List.set_append_right before.length a le_rfl, Nat.sub_self]
    rfl
  · rw [place, hmissing, upsert_append hlt]
    dsimp only
    rw [insertIdx_length]
    cases after with
    | nil => rfl
    | cons c rest => rw [upsert, if_pos (hgt c List.mem_cons_self)]

theorem placeNew_eq_insertNew {rows : List α} (ho : Ordered key rows) (a : α) :
    placeNew key a rows = insertNew key a rows := by
  rcases binarySearch_spec ho (key a) with ⟨before, b, after, rfl, hb, hfound⟩ |
    ⟨before, after, rfl, hlt, hgt, hmissing⟩
  · have hbefore := before_lt ho
    rw [hb] at hbefore
    rw [placeNew, hfound, insertNew_append hbefore, insertNew, if_neg (by omega), if_pos hb.symm]
  · rw [placeNew, hmissing, insertNew_append hlt]
    dsimp only
    rw [insertIdx_length]
    cases after with
    | nil => rfl
    | cons c rest => rw [insertNew, if_pos (hgt c List.mem_cons_self)]

end Keyed
