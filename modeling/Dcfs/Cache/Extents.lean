import Dcfs.Library.Intervals

namespace Dcfs.Cache

open Intervals Extent

abbrev Range := Extent ℕ

def isEmpty (range : Range) : Bool := !decide (range.start < range.stop)

structure DirtyExtents where
  ranges : List Range
  deriving DecidableEq

namespace DirtyExtents

def new : DirtyExtents := ⟨[]⟩

def absorb (state : List Range × Range) (existing : Range) : List Range × Range :=
  let (newRanges, merged) := state
  if existing.stop < merged.start ∨ merged.stop < existing.start then (newRanges ++ [existing], merged)
  else (newRanges, ⟨min merged.start existing.start, max merged.stop existing.stop⟩)

def insert (extents : DirtyExtents) (range : Range) : DirtyExtents :=
  if isEmpty range then extents
  else
    let (newRanges, merged) := extents.ranges.foldl absorb ([], range)
    ⟨(newRanges ++ [merged]).insertionSort fun a b => a.start ≤ b.start⟩

def remaining (range existing : Range) : List Range :=
  if existing.stop ≤ range.start ∨ range.stop ≤ existing.start then [existing]
  else
    (if existing.start < range.start then [⟨existing.start, range.start⟩] else [])
      ++ if range.stop < existing.stop then [⟨range.stop, existing.stop⟩] else []

def clearRange (extents : DirtyExtents) (range : Range) : DirtyExtents :=
  if isEmpty range then extents else ⟨extents.ranges.flatMap (remaining range)⟩

def clearAll (_ : DirtyExtents) : DirtyExtents := ⟨[]⟩

def isDirty (extents : DirtyExtents) : Bool := !extents.ranges.isEmpty

def trimmed (newSize : ℕ) (existing : Range) : List Range :=
  if newSize ≤ existing.start then []
  else if newSize < existing.stop then [⟨existing.start, newSize⟩]
  else [existing]

def truncate (extents : DirtyExtents) (newSize : ℕ) : DirtyExtents :=
  ⟨extents.ranges.flatMap (trimmed newSize)⟩

def truncateGrow (extents : DirtyExtents) (oldSize newSize : ℕ) : DirtyExtents :=
  if oldSize < newSize then extents.insert ⟨oldSize, newSize⟩ else extents

end DirtyExtents

inductive Change
  | insert (range : Range)
  | clearRange (range : Range)
  | truncate (newSize : ℕ)
  | truncateGrow (oldSize newSize : ℕ)

def Change.apply : Change → DirtyExtents → DirtyExtents
  | .insert range, extents => extents.insert range
  | .clearRange range, extents => extents.clearRange range
  | .truncate newSize, extents => extents.truncate newSize
  | .truncateGrow oldSize newSize, extents => extents.truncateGrow oldSize newSize

def Change.denote : Change → Set ℕ → Set ℕ
  | .insert range, bytes => bytes ∪ range.set
  | .clearRange range, bytes => bytes \ range.set
  | .truncate newSize, bytes => bytes ∩ Set.Iio newSize
  | .truncateGrow oldSize newSize, bytes => bytes ∪ Set.Ico oldSize newSize

namespace DirtyExtents

theorem isEmpty_iff {range : Range} : isEmpty range = true ↔ ¬ range.Proper := by
  simp [isEmpty, Proper]

theorem set_of_isEmpty {range : Range} (h : isEmpty range = true) : range.set = ∅ :=
  Set.Ico_eq_empty (isEmpty_iff.mp h)

structure Absorbing (bytes : Set ℕ) (state : List Range × Range) (rest : List Range) : Prop where
  proper : state.2.Proper
  normal : Normal (state.1 ++ rest)
  apart : ∀ r ∈ state.1, Apart r state.2
  bytes : covered state.1 ∪ covered rest ∪ state.2.set = bytes

theorem Absorbing.absorb {bytes : Set ℕ} {state : List Range × Range} {existing : Range} {rest : List Range}
    (h : Absorbing bytes state (existing :: rest)) : Absorbing bytes (absorb state existing) rest := by
  obtain ⟨newRanges, merged⟩ := state
  have hbytes := h.bytes
  simp only [covered_cons] at hbytes
  by_cases happart : Apart existing merged
  · have hstep : DirtyExtents.absorb (newRanges, merged) existing = (newRanges ++ [existing], merged) := if_pos happart
    rw [hstep]
    refine ⟨h.proper, ?_, ?_, ?_⟩
    · rw [List.append_assoc]
      exact h.normal
    · intro r hr
      rcases List.mem_append.mp hr with hr | hr
      · exact h.apart r hr
      · rw [List.mem_singleton.mp hr]
        exact happart
    · simp only [covered_append, covered_cons, covered_nil, Set.union_empty, Set.union_assoc] at hbytes ⊢
      exact hbytes
  · have hstep : DirtyExtents.absorb (newRanges, merged) existing = (newRanges, merged.hull existing) := if_neg happart
    have hmeet : ¬ Apart merged existing := fun hmeet => happart hmeet.symm
    rw [hstep]
    refine ⟨proper_hull h.proper, ?_, ?_, ?_⟩
    · exact h.normal.sublist (List.Sublist.append_left (List.sublist_cons_self existing rest) newRanges)
    · intro r hr
      have hbefore : Before r existing :=
        (List.pairwise_append.mp h.normal.ordered).2.2 r hr existing List.mem_cons_self
      exact Apart.hull (h.normal.proper r (List.mem_append_left _ hr)) hbefore (h.apart r hr) hmeet
    · rw [← hbytes, set_hull hmeet]
      ac_rfl

theorem Absorbing.foldl {bytes : Set ℕ} {state : List Range × Range} {rest : List Range}
    (h : Absorbing bytes state rest) : Absorbing bytes (rest.foldl DirtyExtents.absorb state) [] := by
  induction rest generalizing state with
  | nil => exact h
  | cons existing rest ih => exact ih h.absorb

variable {extents : DirtyExtents}

theorem insert_spec (h : Normal extents.ranges) (range : Range) :
    Normal (extents.insert range).ranges
      ∧ covered (extents.insert range).ranges = covered extents.ranges ∪ range.set := by
  by_cases hempty : isEmpty range = true
  · rw [insert, if_pos hempty, set_of_isEmpty hempty, Set.union_empty]
    exact ⟨h, rfl⟩
  · have hproper : range.Proper := by simpa [isEmpty_iff] using hempty
    have hstart : Absorbing (covered extents.ranges ∪ range.set) ([], range) extents.ranges :=
      ⟨hproper, h, by simp, by simp⟩
    have hend := hstart.foldl
    rw [insert, if_neg hempty]
    generalize extents.ranges.foldl absorb ([], range) = state at hend ⊢
    obtain ⟨newRanges, merged⟩ := state
    have hnormal := hend.normal
    have hbytes := hend.bytes
    rw [List.append_nil] at hnormal
    constructor
    · apply Normal.insertionSort
      · intro r hr
        rcases List.mem_append.mp hr with hr | hr
        · exact hnormal.proper r hr
        · rw [List.mem_singleton.mp hr]
          exact hend.proper
      · rw [List.pairwise_append]
        refine ⟨hnormal.ordered.imp .inl, List.pairwise_singleton _ _, fun r hr m hm => ?_⟩
        rw [List.mem_singleton.mp hm]
        exact hend.apart r hr
    · rw [covered_perm (List.perm_insertionSort _ _), ← hbytes]
      simp

theorem remaining_spec {range existing : Range} (hrange : range.Proper) (h : existing.Proper) :
    (Normal (remaining range existing) ∧ ∀ p ∈ remaining range existing, p.Within existing)
      ∧ covered (remaining range existing) = existing.set ∩ range.setᶜ := by
  rw [Proper] at hrange h
  have hcovered : covered (remaining range existing) = existing.set ∩ range.setᶜ := by
    ext x
    rw [remaining]
    split_ifs <;>
      simp only [covered_cons, covered_nil, covered_append, Extent.set, Set.mem_union, Set.mem_inter_iff,
        Set.mem_compl_iff, Set.mem_Ico, Set.mem_empty_iff_false, or_false, false_or, false_iff] <;>
      omega
  refine ⟨⟨⟨?_, ?_⟩, ?_⟩, hcovered⟩
  · rw [remaining]
    split_ifs <;> simp [Proper] <;> omega
  · rw [remaining]
    split_ifs <;> simp [Before]
    exact hrange
  · rw [remaining]
    split_ifs <;> simp [Within] <;> omega

theorem clearRange_spec (h : Normal extents.ranges) (range : Range) :
    Normal (extents.clearRange range).ranges
      ∧ covered (extents.clearRange range).ranges = covered extents.ranges \ range.set := by
  by_cases hempty : isEmpty range = true
  · rw [clearRange, if_pos hempty, set_of_isEmpty hempty, Set.sdiff_empty]
    exact ⟨h, rfl⟩
  · have hproper : range.Proper := by simpa [isEmpty_iff] using hempty
    rw [clearRange, if_neg hempty]
    refine ⟨h.flatMap fun e he => (remaining_spec hproper (h.proper e he)).1, ?_⟩
    exact covered_flatMap fun e he => (remaining_spec hproper (h.proper e he)).2

theorem trimmed_spec (newSize : ℕ) {existing : Range} (h : existing.Proper) :
    (Normal (trimmed newSize existing) ∧ ∀ p ∈ trimmed newSize existing, p.Within existing)
      ∧ covered (trimmed newSize existing) = existing.set ∩ Set.Iio newSize := by
  rw [Proper] at h
  have hcovered : covered (trimmed newSize existing) = existing.set ∩ Set.Iio newSize := by
    ext x
    rw [trimmed]
    split_ifs <;>
      simp only [covered_cons, covered_nil, Extent.set, Set.mem_union, Set.mem_inter_iff, Set.mem_Ico, Set.mem_Iio,
        Set.mem_empty_iff_false, or_false, false_iff] <;>
      omega
  refine ⟨⟨⟨?_, ?_⟩, ?_⟩, hcovered⟩
  · rw [trimmed]
    split_ifs <;> simp [Proper] <;> omega
  · rw [trimmed]
    split_ifs <;> simp
  · rw [trimmed]
    split_ifs <;> simp [Within]
    omega

theorem truncate_spec (h : Normal extents.ranges) (newSize : ℕ) :
    Normal (extents.truncate newSize).ranges
      ∧ covered (extents.truncate newSize).ranges = covered extents.ranges ∩ Set.Iio newSize :=
  ⟨h.flatMap fun e he => (trimmed_spec newSize (h.proper e he)).1,
    covered_flatMap fun e he => (trimmed_spec newSize (h.proper e he)).2⟩

theorem truncateGrow_spec (h : Normal extents.ranges) (oldSize newSize : ℕ) :
    Normal (extents.truncateGrow oldSize newSize).ranges
      ∧ covered (extents.truncateGrow oldSize newSize).ranges =
        covered extents.ranges ∪ Set.Ico oldSize newSize := by
  by_cases hgrows : oldSize < newSize
  · rw [truncateGrow, if_pos hgrows]
    exact insert_spec h ⟨oldSize, newSize⟩
  · rw [truncateGrow, if_neg hgrows, Set.Ico_eq_empty hgrows, Set.union_empty]
    exact ⟨h, rfl⟩

end DirtyExtents

theorem Change.apply_spec (change : Change) {extents : DirtyExtents} (h : Normal extents.ranges) :
    Normal (change.apply extents).ranges
      ∧ covered (change.apply extents).ranges = change.denote (covered extents.ranges) := by
  cases change with
  | insert range => exact DirtyExtents.insert_spec h range
  | clearRange range => exact DirtyExtents.clearRange_spec h range
  | truncate newSize => exact DirtyExtents.truncate_spec h newSize
  | truncateGrow oldSize newSize => exact DirtyExtents.truncateGrow_spec h oldSize newSize

theorem foldl_changes (changes : List Change) (extents : DirtyExtents) (h : Normal extents.ranges) :
    Normal (changes.foldl (fun e c => c.apply e) extents).ranges
      ∧ covered (changes.foldl (fun e c => c.apply e) extents).ranges =
        changes.foldl (fun bytes c => c.denote bytes) (covered extents.ranges) := by
  induction changes generalizing extents with
  | nil => exact ⟨h, rfl⟩
  | cons change changes ih =>
    obtain ⟨hnormal, hcovered⟩ := change.apply_spec h
    rw [List.foldl_cons, List.foldl_cons, ← hcovered]
    exact ih _ hnormal

theorem dirty_extents_normal (changes : List Change) :
    (∀ r ∈ (changes.foldl (fun e c => c.apply e) DirtyExtents.new).ranges, r.start < r.stop)
    ∧ (changes.foldl (fun e c => c.apply e) DirtyExtents.new).ranges.Pairwise (fun a b => a.stop < b.start)
    ∧ {x | ∃ r ∈ (changes.foldl (fun e c => c.apply e) DirtyExtents.new).ranges, x ∈ Set.Ico r.start r.stop} =
      changes.foldl (fun bytes c => c.denote bytes) ∅ := by
  obtain ⟨hnormal, hcovered⟩ := foldl_changes changes DirtyExtents.new Normal.nil
  refine ⟨hnormal.proper, hnormal.ordered, ?_⟩
  rw [DirtyExtents.new, covered_nil] at hcovered
  exact hcovered

example : ([Change.insert ⟨0, 10⟩, .insert ⟨20, 30⟩, .insert ⟨5, 25⟩, .clearRange ⟨8, 9⟩, .truncate 12].foldl
    (fun e c => c.apply e) DirtyExtents.new).ranges = [⟨0, 8⟩, ⟨9, 12⟩] := by decide

end Dcfs.Cache
