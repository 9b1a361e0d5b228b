import Mathlib.Tactic
import Mathlib.Data.List.Pairwise

/-!
Lists kept in strictly increasing order of an integer key, searched and updated the way a
sorted vector is by binary search.
-/

namespace Keyed

variable {α : Type} (key : α → ℤ)

def upsert (a : α) : List α → List α
  | [] => [a]
  | b :: rest =>
    if key a < key b then a :: b :: rest
    else if key a = key b then a :: rest
    else b :: upsert a rest

def insertNew (a : α) : List α → List α
  | [] => [a]
  | b :: rest =>
    if key a < key b then a :: b :: rest
    else if key a = key b then b :: rest
    else b :: insertNew a rest

def lookup (i : ℤ) (rows : List α) : Option α := rows.find? (fun a => key a = i)

def Ordered (rows : List α) : Prop := rows.Pairwise (fun a b => key a < key b)

variable {key}

@[simp] theorem lookup_nil (i : ℤ) : lookup key i [] = none := rfl

theorem lookup_cons (i : ℤ) (a : α) (rows : List α) :
    lookup key i (a :: rows) = if key a = i then some a else lookup key i rows := by
  by_cases h : key a = i <;> simp [lookup, h]

theorem key_of_lookup {i : ℤ} {a : α} {rows : List α} (h : lookup key i rows = some a) : key a = i := by
  simpa using List.find?_some h

theorem lookup_eq_none_of_lt {rows : List α} {i : ℤ} (h : ∀ b ∈ rows, i < key b) :
    lookup key i rows = none := by
  simp only [lookup, List.find?_eq_none, decide_eq_true_eq]
  intro b hb
  have := h b hb
  omega

theorem mem_of_lookup {rows : List α} {i : ℤ} {a : α} (h : lookup key i rows = some a) :
    a ∈ rows ∧ key a = i :=
  ⟨List.mem_of_find?_eq_some h, by simpa using List.find?_some h⟩

theorem lookup_of_mem {rows : List α} (ho : Ordered key rows) {a : α} (h : a ∈ rows) :
    lookup key (key a) rows = some a := by
  induction rows with
  | nil => cases h
  | cons b rest ih =>
    obtain ⟨hb, hrest⟩ := List.pairwise_cons.mp ho
    rcases List.mem_cons.mp h with rfl | h
    · simp [lookup]
    · have hlt := hb a h
      have hne : key b ≠ key a := by omega
      simpa [lookup, hne] using ih hrest h

theorem mem_upsert {a b : α} {rows : List α} (h : b ∈ upsert key a rows) : b = a ∨ b ∈ rows := by
  induction rows with
  | nil => simpa [upsert] using h
  | cons c rest ih =>
    simp only [upsert] at h
    split_ifs at h <;> grind

theorem mem_insertNew {a b : α} {rows : List α} (h : b ∈ insertNew key a rows) :
    b = a ∨ b ∈ rows := by
  induction rows with
  | nil => simpa [insertNew] using h
  | cons c rest ih =>
    simp only [insertNew] at h
    split_ifs at h <;> grind

theorem key_mem_upsert {a b : α} {rows : List α} (h : b ∈ rows) : ∃ c ∈ upsert key a rows, key c = key b := by
  induction rows with
  | nil => cases h
  | cons head rest ih =>
    rw [upsert]
    split_ifs with hlt heq
    · exact ⟨b, List.mem_cons_of_mem _ h, rfl⟩
    · rcases List.mem_cons.mp h with rfl | hrest
      · exact ⟨a, List.mem_cons_self, heq⟩
      · exact ⟨b, List.mem_cons_of_mem _ hrest, rfl⟩
    · rcases List.mem_cons.mp h with rfl | hrest
      · exact ⟨b, List.mem_cons_self, rfl⟩
      · obtain ⟨c, hc, hkey⟩ := ih hrest
        exact ⟨c, List.mem_cons_of_mem _ hc, hkey⟩

theorem mem_insertNew_of_mem {a b : α} {rows : List α} (h : b ∈ rows) : b ∈ insertNew key a rows := by
  induction rows with
  | nil => cases h
  | cons head rest ih =>
    rw [insertNew]
    split_ifs
    · exact List.mem_cons_of_mem _ h
    · exact h
    · rcases List.mem_cons.mp h with rfl | hrest
      · exact List.mem_cons_self
      · exact List.mem_cons_of_mem _ (ih hrest)

theorem ordered_upsert {a : α} {rows : List α} (ho : Ordered key rows) :
    Ordered key (upsert key a rows) := by
  induction rows with
  | nil => simp [upsert, Ordered]
  | cons c rest ih =>
    obtain ⟨hc, hrest⟩ := List.pairwise_cons.mp ho
    simp only [upsert]
    split_ifs with hlt heq
    · refine List.pairwise_cons.mpr ⟨?_, ho⟩
      intro b hb
      rcases List.mem_cons.mp hb with rfl | hb
      · exact hlt
      · have := hc b hb
        omega
    · exact List.pairwise_cons.mpr ⟨fun b hb => by have := hc b hb; omega, hrest⟩
    · refine List.pairwise_cons.mpr ⟨?_, ih hrest⟩
      intro b hb
      rcases mem_upsert hb with rfl | hb
      · omega
      · exact hc b hb

theorem ordered_insertNew {a : α} {rows : List α} (ho : Ordered key rows) :
    Ordered key (insertNew key a rows) := by
  induction rows with
  | nil => simp [insertNew, Ordered]
  | cons c rest ih =>
    obtain ⟨hc, hrest⟩ := List.pairwise_cons.mp ho
    simp only [insertNew]
    split_ifs with hlt heq
    · refine List.pairwise_cons.mpr ⟨?_, ho⟩
      intro b hb
      rcases List.mem_cons.mp hb with rfl | hb
      · exact hlt
      · have := hc b hb
        omega
    · exact ho
    · refine List.pairwise_cons.mpr ⟨?_, ih hrest⟩
      intro b hb
      rcases mem_insertNew hb with rfl | hb
      · omega
      · exact hc b hb

theorem lookup_upsert {a : α} {rows : List α} (ho : Ordered key rows) (i : ℤ) :
    lookup key i (upsert key a rows) = if i = key a then some a else lookup key i rows := by
  induction rows with
  | nil => simp only [upsert, lookup_cons, lookup_nil, eq_comm]
  | cons c rest ih =>
    obtain ⟨hc, hrest⟩ := List.pairwise_cons.mp ho
    rcases lt_trichotomy (key a) (key c) with hlt | heq | hgt
    · simp only [upsert, hlt, ↓reduceIte, lookup_cons, eq_comm]
    · simp only [upsert, heq, lt_irrefl, ↓reduceIte, lookup_cons, eq_comm]
      split_ifs <;> rfl
    · have hn : ¬ key a < key c := by omega
      have hne : ¬ key a = key c := by omega
      simp only [upsert, hn, hne, ↓reduceIte, lookup_cons, ih hrest]
      split_ifs with h1 h2
      · omega
      all_goals rfl

theorem mem_upsert_iff {a b : α} {rows : List α} (ho : Ordered key rows) :
    b ∈ upsert key a rows ↔ b = a ∨ b ∈ rows ∧ key b ≠ key a := by
  have hlookup := lookup_upsert (a := a) ho
  constructor
  · intro h
    have hb := lookup_of_mem (ordered_upsert ho) h
    rw [hlookup] at hb
    split_ifs at hb with hkey
    · exact .inl (Option.some.inj hb).symm
    · exact .inr ⟨(mem_of_lookup hb).1, hkey⟩
  · rintro (rfl | ⟨hb, hkey⟩)
    · exact (mem_of_lookup ((hlookup (key b)).trans (if_pos rfl))).1
    · refine (mem_of_lookup ((hlookup (key b)).trans ?_)).1
      rw [if_neg hkey, lookup_of_mem ho hb]

theorem lookup_insertNew {a : α} {rows : List α} (ho : Ordered key rows) (i : ℤ) :
    lookup key i (insertNew key a rows) =
      if i = key a then some ((lookup key i rows).getD a) else lookup key i rows := by
  induction rows with
  | nil => simp only [insertNew, lookup_cons, lookup_nil, eq_comm, Option.getD_none]
  | cons c rest ih =>
    obtain ⟨hc, hrest⟩ := List.pairwise_cons.mp ho
    rcases lt_trichotomy (key a) (key c) with hlt | heq | hgt
    · have habsent : lookup key (key a) (c :: rest) = none := by
        apply lookup_eq_none_of_lt
        intro b hb
        rcases List.mem_cons.mp hb with rfl | hb
        · exact hlt
        · exact hlt.trans (hc b hb)
      simp only [insertNew, hlt, ↓reduceIte]
      by_cases hi : i = key a
      · subst hi
        rw [habsent]
        simp [lookup_cons]
      · have hne : key a ≠ i := fun h => hi h.symm
        rw [lookup_cons, if_neg hne, if_neg hi]
    · simp only [insertNew, heq, lt_irrefl, ↓reduceIte]
      by_cases hi : i = key c
      · subst hi
        simp [lookup_cons]
      · rw [if_neg hi]
    · have hn : ¬ key a < key c := by omega
      have hne : ¬ key a = key c := by omega
      simp only [insertNew, hn, hne, ↓reduceIte, lookup_cons, ih hrest]
      split_ifs with h1 h2
      · omega
      all_goals rfl

theorem ordered_filter {rows : List α} {p : α → Bool} (ho : Ordered key rows) :
    Ordered key (rows.filter p) := List.Pairwise.filter p ho

theorem lookup_filter {rows : List α} {p : α → Bool} (ho : Ordered key rows) (i : ℤ) :
    lookup key i (rows.filter p) = (lookup key i rows).filter p := by
  induction rows with
  | nil => rfl
  | cons c rest ih =>
    obtain ⟨hc, hrest⟩ := List.pairwise_cons.mp ho
    have ih := ih hrest
    rw [List.filter_cons, lookup_cons]
    by_cases hci : key c = i
    · have hnone : lookup key i rest = none :=
        lookup_eq_none_of_lt (fun b hb => by have := hc b hb; omega)
      cases hp : p c
      · simp [ih, hnone, hci, Option.filter, hp]
      · simp [lookup_cons, hci, Option.filter, hp]
    · cases hp : p c
      · simp [ih, hci]
      · simp [lookup_cons, ih, hci]

theorem lookup_map {f : α → α} (hf : ∀ a, key (f a) = key a) (i : ℤ) (rows : List α) :
    lookup key i (rows.map f) = (lookup key i rows).map f := by
  induction rows with
  | nil => rfl
  | cons c rest ih =>
    rw [List.map_cons, lookup_cons, lookup_cons, hf, ih]
    split_ifs <;> rfl

theorem ordered_map {f : α → α} (hf : ∀ a, key (f a) = key a) {rows : List α}
    (ho : Ordered key rows) : Ordered key (rows.map f) :=
  List.Pairwise.map f (fun a b h => by rwa [hf, hf]) ho

end Keyed
