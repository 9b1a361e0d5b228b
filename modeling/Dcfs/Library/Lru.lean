import Mathlib.Algebra.BigOperators.Group.List.Basic
import Mathlib.Algebra.Ring.Nat
import Mathlib.Data.List.Nodup

namespace Lru

variable {κ β γ : Type} [DecidableEq κ] (key : β → κ) (size : β → ℕ)

def find (k : κ) (entries : List β) : Option β := entries.find? fun e => key e = k

def without (k : κ) (entries : List β) : List β := entries.filter fun e => key e ≠ k

def touch (k : κ) (entries : List β) : List β :=
  match find key k entries with
  | some e => without key k entries ++ [e]
  | none => entries

def total (entries : List β) : ℕ := (entries.map size).sum

def trim (budget : ℕ) : List β → List β
  | [] => []
  | e :: rest => if total size (e :: rest) ≤ budget then e :: rest else trim budget rest

def put (budget : ℕ) (e : β) (entries : List β) : List β := trim size budget (without key (key e) entries ++ [e])

def Distinct (entries : List β) : Prop := (entries.map key).Nodup

variable {key size}

@[simp] theorem find_nil (k : κ) : find key k [] = none := rfl

theorem find_cons (k : κ) (e : β) (rest : List β) :
    find key k (e :: rest) = if key e = k then some e else find key k rest := by
  by_cases h : key e = k
  · simp [find, h]
  · simp [find, h]

theorem key_of_find {k : κ} {e : β} {entries : List β} (h : find key k entries = some e) : key e = k := by
  simpa using List.find?_some h

theorem mem_of_find {k : κ} {e : β} {entries : List β} (h : find key k entries = some e) : e ∈ entries :=
  List.mem_of_find?_eq_some h

theorem find_eq_none {k : κ} {entries : List β} : find key k entries = none ↔ ∀ e ∈ entries, key e ≠ k := by
  simp [find]

theorem find_of_mem {entries : List β} (hd : Distinct key entries) {e : β} (he : e ∈ entries) :
    find key (key e) entries = some e := by
  induction entries with
  | nil => cases he
  | cons head rest ih =>
    obtain ⟨hhead, hrest⟩ := List.nodup_cons.mp hd
    rw [find_cons]
    rcases List.mem_cons.mp he with rfl | he
    · exact if_pos rfl
    · rw [if_neg, ih hrest he]
      intro heq
      exact hhead (heq ▸ List.mem_map_of_mem he)

theorem find_without (k k' : κ) (entries : List β) :
    find key k' (without key k entries) = if k' = k then none else find key k' entries := by
  induction entries with
  | nil => simp [without]
  | cons e rest ih =>
    have hrest : without key k (e :: rest) = if key e = k then without key k rest else e :: without key k rest := by
      by_cases he : key e = k <;> simp [without, he]
    rw [hrest, find_cons]
    by_cases he : key e = k
    · rw [if_pos he, ih]
      by_cases hk : k' = k
      · rw [if_pos hk, if_pos hk]
      · rw [if_neg hk, if_neg hk, if_neg (by rw [he]; exact Ne.symm hk)]
    · rw [if_neg he, find_cons, ih]
      by_cases hk : k' = k
      · rw [if_pos hk, if_pos hk, if_neg (by rw [hk]; exact he)]
      · rw [if_neg hk, if_neg hk]

theorem find_append (k : κ) (entries : List β) (e : β) :
    find key k (entries ++ [e]) = (find key k entries).or (if key e = k then some e else none) := by
  rw [find, List.find?_append, ← find, ← find, find_cons, find_nil]

theorem mem_without {k : κ} {e : β} {entries : List β} : e ∈ without key k entries ↔ e ∈ entries ∧ key e ≠ k := by
  simp [without]

omit [DecidableEq κ] in
theorem Distinct.filter {entries : List β} (hd : Distinct key entries) (p : β → Bool) :
    Distinct key (entries.filter p) :=
  (List.filter_sublist.map key).nodup hd

theorem Distinct.replace {entries : List β} (hd : Distinct key entries) (e : β) :
    Distinct key (without key (key e) entries ++ [e]) := by
  rw [Distinct, List.map_append, List.map_singleton]
  refine List.nodup_append.mpr ⟨hd.filter _, List.nodup_singleton _, fun k hk k' hk' => ?_⟩
  obtain ⟨e', he', rfl⟩ := List.mem_map.mp hk
  rw [List.mem_singleton.mp hk']
  exact (mem_without.mp he').2

theorem total_cons (e : β) (rest : List β) : total size (e :: rest) = size e + total size rest := by
  simp [total]

theorem total_append (entries : List β) (e : β) : total size (entries ++ [e]) = total size entries + size e := by
  simp [total]

variable (size) in
theorem total_without {entries : List β} (hd : Distinct key entries) (k : κ) :
    total size (without key k entries) + ((find key k entries).map size).getD 0 = total size entries := by
  induction entries with
  | nil => rfl
  | cons e rest ih =>
    obtain ⟨hhead, hrest⟩ := List.nodup_cons.mp hd
    rw [find_cons, total_cons]
    by_cases he : key e = k
    · have hself : without key k (e :: rest) = rest := by
        have hall : without key k rest = rest := by
          rw [without, List.filter_eq_self]
          intro e' he'
          refine decide_eq_true fun heq => hhead ?_
          rw [he, ← heq]
          exact List.mem_map_of_mem he'
        rw [← hall]
        simp [without, he]
      rw [if_pos he, hself, Option.map_some, Option.getD_some]
      omega
    · have hcons : without key k (e :: rest) = e :: without key k rest := by simp [without, he]
      have hih := ih hrest
      rw [if_neg he, hcons, total_cons]
      omega

section Map

variable {key' : γ → κ} {f : β → γ}

theorem find_map (hf : ∀ e, key' (f e) = key e) (k : κ) (entries : List β) :
    find key' k (entries.map f) = (find key k entries).map f := by
  rw [find, List.find?_map, find]
  congr 2
  funext e
  simp [hf]

theorem without_map (hf : ∀ e, key' (f e) = key e) (k : κ) (entries : List β) :
    without key' k (entries.map f) = (without key k entries).map f := by
  rw [without, List.filter_map, without]
  congr 2
  funext e
  simp [hf]

end Map

end Lru
