import Mathlib.Data.List.AList

namespace Tables

abbrev Table (κ α : Type) := AList fun _ : κ => α

variable {κ α : Type}

def values (t : Table κ α) : List α := t.entries.map Sigma.snd

variable [DecidableEq κ]

theorem lookup_eq_some_iff {t : Table κ α} {k : κ} {a : α} :
    t.lookup k = some a ↔ (⟨k, a⟩ : Sigma fun _ : κ => α) ∈ t.entries :=
  AList.mem_lookup_iff

theorem mem_values {t : Table κ α} {a : α} : a ∈ values t ↔ ∃ k, t.lookup k = some a := by
  simp only [values, List.mem_map, lookup_eq_some_iff]
  constructor
  · rintro ⟨⟨k, b⟩, hb, rfl⟩
    exact ⟨k, hb⟩
  · rintro ⟨k, hk⟩
    exact ⟨⟨k, a⟩, hk, rfl⟩

theorem lookup_insert (t : Table κ α) (k k' : κ) (a : α) :
    (t.insert k a).lookup k' = if k' = k then some a else t.lookup k' := by
  split_ifs with h
  · subst h
    exact AList.lookup_insert t
  · exact AList.lookup_insert_ne h

theorem lookup_erase (t : Table κ α) (k k' : κ) :
    (t.erase k).lookup k' = if k' = k then none else t.lookup k' := by
  split_ifs with h
  · subst h
    exact AList.lookup_erase _ t
  · exact AList.lookup_erase_ne h

def mapValues (f : κ → α → α) (t : Table κ α) : Table κ α where
  entries := t.entries.map (fun e => ⟨e.1, f e.1 e.2⟩)
  nodupKeys := by
    have h : t.entries.keys.Nodup := t.nodupKeys
    simpa [List.NodupKeys, List.keys, Function.comp_def] using h

theorem lookup_mapValues (f : κ → α → α) (t : Table κ α) (k : κ) :
    (mapValues f t).lookup k = (t.lookup k).map (f k) := by
  ext b
  simp only [lookup_eq_some_iff, Option.map_eq_some_iff, mapValues, List.mem_map]
  constructor
  · rintro ⟨⟨k', a⟩, ha, he⟩
    cases he
    exact ⟨a, ha, rfl⟩
  · rintro ⟨a, ha, rfl⟩
    exact ⟨⟨k, a⟩, ha, rfl⟩

def keep (p : κ → α → Bool) (t : Table κ α) : Table κ α where
  entries := t.entries.filter (fun e => p e.1 e.2)
  nodupKeys := t.nodupKeys.sublist List.filter_sublist

theorem lookup_keep (p : κ → α → Bool) (t : Table κ α) (k : κ) :
    (keep p t).lookup k = (t.lookup k).filter (p k) := by
  ext b
  simp only [lookup_eq_some_iff, Option.filter_eq_some_iff, keep, List.mem_filter]

def modify (k : κ) (f : α → α) (t : Table κ α) : Table κ α :=
  match t.lookup k with
  | some a => t.insert k (f a)
  | none => t

theorem lookup_modify (k k' : κ) (f : α → α) (t : Table κ α) :
    (modify k f t).lookup k' = if k' = k then (t.lookup k').map f else t.lookup k' := by
  unfold modify
  cases h : t.lookup k with
  | none =>
    split_ifs with hk
    · subst hk
      simp [h]
    · rfl
  | some a =>
    simp only [lookup_insert]
    split_ifs with hk
    · subst hk
      simp [h]
    · rfl

theorem values_perm {s t : Table κ α} (h : ∀ k, s.lookup k = t.lookup k) : (values s).Perm (values t) := by
  refine List.Perm.map _ (List.lookup_ext s.nodupKeys t.nodupKeys fun k a => ?_)
  change a ∈ s.lookup k ↔ a ∈ t.lookup k
  rw [h k]

omit [DecidableEq κ] in
theorem values_mapValues (f : α → α) (t : Table κ α) :
    values (mapValues (fun _ => f) t) = (values t).map f := by
  simp [values, mapValues]

theorem mapValues_eq_self {f : κ → α → α} {t : Table κ α} (h : ∀ k a, t.lookup k = some a → f k a = a) :
    mapValues f t = t := by
  apply AList.ext
  change t.entries.map _ = t.entries
  conv_rhs => rw [← List.map_id t.entries]
  refine List.map_congr_left fun e he => ?_
  have hself := h e.1 e.2 (lookup_eq_some_iff.mpr he)
  simp only [hself, id]

omit [DecidableEq κ] in
theorem flatten_keep (t : Table κ (List α)) :
    (values (keep (fun _ rows => !rows.isEmpty) t)).flatten = (values t).flatten := by
  rw [← List.flatten_filter_not_isEmpty (L := values t), values, values, keep, List.filter_map]
  rfl

theorem flatten_perm {s t : Table κ (List α)} (h : ∀ k, (s.lookup k).getD [] = (t.lookup k).getD []) :
    (values s).flatten.Perm (values t).flatten := by
  rw [← flatten_keep s, ← flatten_keep t]
  refine (values_perm fun k => ?_).flatten
  have hk := h k
  rw [lookup_keep, lookup_keep]
  cases hs : s.lookup k with
  | none =>
    cases ht : t.lookup k with
    | none => rfl
    | some rows =>
      rw [hs, ht] at hk
      cases (show rows = [] from hk.symm)
      rfl
  | some rows =>
    cases ht : t.lookup k with
    | none =>
      rw [hs, ht] at hk
      cases (show rows = [] from hk)
      rfl
    | some rows' =>
      rw [hs, ht] at hk
      cases (show rows = rows' from hk)
      rfl

end Tables
