import Mathlib.Data.List.Sort
import Mathlib.Order.Interval.Set.Basic
import Mathlib.Order.MinMax

namespace Intervals

variable {α : Type}

structure Extent (α : Type) where
  start : α
  stop : α
  deriving DecidableEq

variable [LinearOrder α]

namespace Extent

def Proper (r : Extent α) : Prop := r.start < r.stop

def set (r : Extent α) : Set α := Set.Ico r.start r.stop

def Before (a b : Extent α) : Prop := a.stop < b.start

def Apart (a b : Extent α) : Prop := a.Before b ∨ b.Before a

def Within (a b : Extent α) : Prop := b.start ≤ a.start ∧ a.stop ≤ b.stop

def hull (a b : Extent α) : Extent α := ⟨min a.start b.start, max a.stop b.stop⟩

theorem Apart.symm {a b : Extent α} (h : Apart a b) : Apart b a := Or.symm h

theorem Before.within {a b c d : Extent α} (h : Before c d) (ha : Within a c) (hb : Within b d) : Before a b :=
  lt_of_le_of_lt ha.2 (lt_of_lt_of_le h hb.1)

theorem Before.of_start {a b : Extent α} (hb : b.Proper) (h : Apart a b) (hstart : a.start ≤ b.start) :
    Before a b := by
  rcases h with h | h
  · exact h
  · exact absurd (lt_of_lt_of_le h hstart) (not_lt.mpr hb.le)

theorem proper_hull {a b : Extent α} (ha : a.Proper) : (a.hull b).Proper :=
  lt_of_le_of_lt (min_le_left _ _) (lt_of_lt_of_le ha (le_max_left _ _))

theorem set_hull {a b : Extent α} (hmeet : ¬ Apart a b) : (a.hull b).set = a.set ∪ b.set := by
  rw [Apart, not_or, Before, Before, not_lt, not_lt] at hmeet
  ext x
  simp only [set, hull, Set.mem_union, Set.mem_Ico, min_le_iff, lt_max_iff]
  constructor
  · rintro ⟨ha | hb, ha' | hb'⟩
    · exact .inl ⟨ha, ha'⟩
    · rcases lt_or_ge x a.stop with h | h
      · exact .inl ⟨ha, h⟩
      · exact .inr ⟨hmeet.1.trans h, hb'⟩
    · rcases lt_or_ge x b.stop with h | h
      · exact .inr ⟨hb, h⟩
      · exact .inl ⟨hmeet.2.trans h, ha'⟩
    · exact .inr ⟨hb, hb'⟩
  · rintro (⟨h, h'⟩ | ⟨h, h'⟩)
    · exact ⟨.inl h, .inl h'⟩
    · exact ⟨.inr h, .inr h'⟩

theorem Apart.hull {a b c : Extent α} (ha : a.Proper) (hab : Before a b) (hac : Apart a c) (hmeet : ¬ Apart c b) :
    Apart a (c.hull b) := by
  rcases hac with hac | hca
  · exact .inl (lt_min hac hab)
  · -- Between the two there would be the whole of the first interval.
    refine absurd (.inl ?_) hmeet
    exact hca.trans (ha.trans hab)

end Extent

open Extent

def covered (rs : List (Extent α)) : Set α := {x | ∃ r ∈ rs, x ∈ r.set}

structure Normal (rs : List (Extent α)) : Prop where
  proper : ∀ r ∈ rs, r.Proper
  ordered : rs.Pairwise Before

@[simp] theorem covered_nil : covered ([] : List (Extent α)) = ∅ := by
  simp [covered]

@[simp] theorem covered_append (rs ts : List (Extent α)) : covered (rs ++ ts) = covered rs ∪ covered ts := by
  ext x
  simp only [covered, List.mem_append, Set.mem_ofPred_eq, Set.mem_union, or_and_right, exists_or]

@[simp] theorem covered_cons (r : Extent α) (rs : List (Extent α)) : covered (r :: rs) = r.set ∪ covered rs := by
  ext x
  simp [covered]

theorem covered_perm {rs ts : List (Extent α)} (h : rs.Perm ts) : covered rs = covered ts := by
  ext x
  simp only [covered, Set.mem_ofPred_eq, h.mem_iff]

theorem Normal.nil : Normal ([] : List (Extent α)) := ⟨by simp, .nil⟩

theorem Normal.sublist {rs ts : List (Extent α)} (h : Normal ts) (hsub : rs.Sublist ts) : Normal rs :=
  ⟨fun r hr => h.proper r (hsub.subset hr), h.ordered.sublist hsub⟩

theorem Normal.insertionSort {rs : List (Extent α)} (hproper : ∀ r ∈ rs, r.Proper) (hapart : rs.Pairwise Apart) :
    Normal (rs.insertionSort fun a b => a.start ≤ b.start) := by
  have : Std.Total fun a b : Extent α => a.start ≤ b.start := ⟨fun a b => le_total a.start b.start⟩
  have : IsTrans (Extent α) fun a b => a.start ≤ b.start := ⟨fun a b c => le_trans⟩
  have hperm := List.perm_insertionSort (fun a b : Extent α => a.start ≤ b.start) rs
  have hproper' : ∀ r ∈ rs.insertionSort fun a b => a.start ≤ b.start, r.Proper :=
    fun r hr => hproper r (hperm.mem_iff.mp hr)
  have hsorted := List.pairwise_insertionSort (fun a b : Extent α => a.start ≤ b.start) rs
  have hapart' := (hperm.pairwise_iff Apart.symm).mpr hapart
  refine ⟨hproper', (hsorted.and hapart').imp_of_mem fun _ hb h => ?_⟩
  exact Before.of_start (hproper' _ hb) h.2 h.1

theorem Normal.flatMap {rs : List (Extent α)} {f : Extent α → List (Extent α)} (h : Normal rs)
    (hpieces : ∀ e ∈ rs, Normal (f e) ∧ ∀ p ∈ f e, p.Within e) : Normal (rs.flatMap f) := by
  constructor
  · intro p hp
    obtain ⟨e, he, hp⟩ := List.mem_flatMap.mp hp
    exact (hpieces e he).1.proper p hp
  · rw [List.pairwise_flatMap]
    refine ⟨fun e he => (hpieces e he).1.ordered, h.ordered.imp_of_mem fun ha hb hbefore p hp q hq => ?_⟩
    exact hbefore.within ((hpieces _ ha).2 p hp) ((hpieces _ hb).2 q hq)

theorem covered_flatMap {rs : List (Extent α)} {f : Extent α → List (Extent α)} {s : Set α}
    (hpieces : ∀ e ∈ rs, covered (f e) = e.set ∩ s) : covered (rs.flatMap f) = covered rs ∩ s := by
  induction rs with
  | nil => simp
  | cons e rs ih =>
    rw [List.flatMap_cons, covered_append, covered_cons, Set.union_inter_distrib_right,
      hpieces e List.mem_cons_self, ih fun r hr => hpieces r (List.mem_cons_of_mem e hr)]

end Intervals
