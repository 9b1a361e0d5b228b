import Dcfs.File.Open
import Dcfs.Library.Search

namespace Dcfs

open Tables

namespace World

variable (w : World)

def attachBySearch (row : FileChunkRecord) : Answer Unit × World :=
  -- `attach_chunk` of the memory repository.
  match w.chunks.lookup row.versionId with
  | none => (.error .notFound, w)
  | some rows => (.ok (), w.setRows row.versionId (Keyed.place FileChunkRecord.chunkIndex row rows))

def copyRow (state : List FileChunkRecord × ℕ) (row : FileChunkRecord) : List FileChunkRecord × ℕ :=
  match Keyed.binarySearch FileChunkRecord.chunkIndex state.1 row.chunkIndex with
  | .ok _ => state
  | .error i => (state.1.insertIdx i row, state.2 + 1)

def copyBySearch (fromVersion toVersion : Uuid) (first last : ℤ) : Answer ℕ × World :=
  -- `copy_chunk_range` of the memory repository.
  if last < first then (.ok 0, w)
  else
    let carried := (w.rowsBetween fromVersion first last).map (forVersion toVersion)
    let copied := carried.foldl copyRow (w.rowsOf toVersion, 0)
    (.ok copied.2, w.setRows toVersion copied.1)

def Sorted : Prop :=
  ∀ version rows, w.chunks.lookup version = some rows → Keyed.Ordered FileChunkRecord.chunkIndex rows

end World

inductive ManifestCall where
  | createStagingVersion (nodeId : Uuid) (baseVersionId : Option Uuid) (chunkSize : ℤ)
  | attachChunk (row : FileChunkRecord)
  | copyChunkRange (fromVersion toVersion : Uuid) (first last : ℤ)
  | forgetObject (objectId : Uuid)

def ManifestCall.perform (w : World) : ManifestCall → World
  | .createStagingVersion nodeId baseVersionId chunkSize =>
    (w.createStagingVersion .memory nodeId baseVersionId chunkSize).2
  | .attachChunk row => (w.attachBySearch row).2
  | .copyChunkRange fromVersion toVersion first last => (w.copyBySearch fromVersion toVersion first last).2
  | .forgetObject objectId => (w.forgetObject .memory objectId).2

namespace World

variable {w : World}

theorem Sorted.rowsOf (h : w.Sorted) (version : Uuid) :
    Keyed.Ordered FileChunkRecord.chunkIndex (w.rowsOf version) := by
  rw [World.rowsOf]
  cases hrows : w.chunks.lookup version with
  | none => exact List.Pairwise.nil
  | some rows => exact h version rows hrows

theorem rowsOf_setRows (version other : Uuid) (rows : List FileChunkRecord) :
    (w.setRows version rows).rowsOf other = if other = version then rows else w.rowsOf other := by
  rw [World.rowsOf, setRows, lookup_insert]
  by_cases h : other = version
  · rw [if_pos h, if_pos h]
    rfl
  · rw [if_neg h, if_neg h]
    rfl

theorem Sorted.setRows (h : w.Sorted) (version : Uuid) {rows : List FileChunkRecord}
    (hrows : Keyed.Ordered FileChunkRecord.chunkIndex rows) : (w.setRows version rows).Sorted := by
  intro other found hfound
  rw [World.setRows, lookup_insert] at hfound
  by_cases hother : other = version
  · rw [if_pos hother] at hfound
    cases hfound
    exact hrows
  · rw [if_neg hother] at hfound
    exact h other found hfound

theorem attachBySearch_unknown {row : FileChunkRecord} (hrows : w.chunks.lookup row.versionId = none) :
    w.attachBySearch row = (.error .notFound, w) := by
  rw [attachBySearch, hrows]

theorem attachBySearch_known (h : w.Sorted) {row : FileChunkRecord} (hrows : (w.chunks.lookup row.versionId).isSome) :
    w.attachBySearch row = (.ok (), w.setRows row.versionId
      (Keyed.upsert FileChunkRecord.chunkIndex row (w.rowsOf row.versionId))) := by
  obtain ⟨rows, hfound⟩ := Option.isSome_iff_exists.mp hrows
  simp only [attachBySearch, World.rowsOf, hfound, Option.getD_some]
  rw [Keyed.place_eq_upsert (h _ _ hfound)]

theorem attachBySearch_eq (h : w.Sorted) (row : FileChunkRecord) :
    w.attachBySearch row = w.attachChunk .memory row := by
  by_cases hrows : (w.chunks.lookup row.versionId).isSome
  · rw [attachBySearch_known h hrows]
    exact (if_pos hrows).symm
  · rw [attachBySearch_unknown (Option.not_isSome_iff_eq_none.mp hrows)]
    exact (if_neg hrows).symm

theorem copyRow_eq {target : List FileChunkRecord} (ht : Keyed.Ordered FileChunkRecord.chunkIndex target)
    (row : FileChunkRecord) (n : ℕ) :
    copyRow (target, n) row = (Keyed.insertNew FileChunkRecord.chunkIndex row target,
      n + ((Keyed.insertNew FileChunkRecord.chunkIndex row target).length - target.length)) := by
  have hnew := Keyed.placeNew_eq_insertNew ht row
  rw [← hnew, copyRow, Keyed.placeNew]
  rcases Keyed.binarySearch_spec ht row.chunkIndex with
    ⟨before, a, after, rfl, ha, hfound⟩ | ⟨before, after, rfl, hlt, hgt, hmissing⟩
  · rw [hfound]
    simp
  · rw [hmissing]
    simp only [Keyed.insertIdx_length, List.length_append, List.length_cons, Prod.mk.injEq, true_and]
    omega

theorem length_le_carry (carried target : List FileChunkRecord) : target.length ≤ (carry carried target).length := by
  induction carried generalizing target with
  | nil => exact le_rfl
  | cons row rest ih => exact (Keyed.length_le_insertNew row target).trans (ih _)

theorem ordered_carry {carried target : List FileChunkRecord}
    (ht : Keyed.Ordered FileChunkRecord.chunkIndex target) :
    Keyed.Ordered FileChunkRecord.chunkIndex (carry carried target) := by
  induction carried generalizing target with
  | nil => exact ht
  | cons row rest ih => exact ih (Keyed.ordered_insertNew ht)

theorem foldl_copyRow {target : List FileChunkRecord} (ht : Keyed.Ordered FileChunkRecord.chunkIndex target)
    (carried : List FileChunkRecord) (n : ℕ) :
    carried.foldl copyRow (target, n)
      = (carry carried target, n + ((carry carried target).length - target.length)) := by
  induction carried generalizing target n with
  | nil => simp [carry]
  | cons row rest ih =>
    have hcons : carry (row :: rest) target = carry rest (Keyed.insertNew FileChunkRecord.chunkIndex row target) := rfl
    rw [List.foldl_cons, copyRow_eq ht, ih (Keyed.ordered_insertNew ht), hcons]
    have hfirst : target.length ≤ (Keyed.insertNew FileChunkRecord.chunkIndex row target).length :=
      Keyed.length_le_insertNew row target
    have hrest := length_le_carry rest (Keyed.insertNew FileChunkRecord.chunkIndex row target)
    rw [Prod.mk.injEq]
    constructor
    · rfl
    · omega

theorem copyBySearch_world (h : w.Sorted) (fromVersion toVersion : Uuid) {first last : ℤ} (hrange : ¬last < first) :
    (w.copyBySearch fromVersion toVersion first last).2 = w.setRows toVersion
      (carry ((w.rowsBetween fromVersion first last).map (forVersion toVersion)) (w.rowsOf toVersion)) := by
  simp only [copyBySearch, if_neg hrange, foldl_copyRow (h.rowsOf toVersion)]

theorem copyBySearch_eq (h : w.Sorted) (fromVersion toVersion : Uuid) (first last : ℤ) :
    w.copyBySearch fromVersion toVersion first last = w.copyChunkRange .memory fromVersion toVersion first last := by
  rw [copyBySearch, copyChunkRange]
  by_cases hrange : last < first
  · rw [if_pos hrange, if_pos hrange]
  · rw [if_neg hrange, if_neg hrange]
    simp only [foldl_copyRow (h.rowsOf toVersion), Nat.zero_add]
    rfl

theorem lookup_attachBySearch (h : w.Sorted) {row : FileChunkRecord} (hrows : (w.chunks.lookup row.versionId).isSome)
    (version : Uuid) (i : ℤ) :
    Keyed.lookup FileChunkRecord.chunkIndex i ((w.attachBySearch row).2.rowsOf version) =
      if version = row.versionId ∧ i = row.chunkIndex then some row
      else Keyed.lookup FileChunkRecord.chunkIndex i (w.rowsOf version) := by
  rw [attachBySearch_known h hrows, rowsOf_setRows]
  by_cases hversion : version = row.versionId
  · subst hversion
    rw [if_pos rfl, Keyed.lookup_upsert (h.rowsOf _)]
    simp only [true_and]
  · rw [if_neg hversion, if_neg fun both => hversion both.1]

theorem lookup_copyBySearch (h : w.Sorted) (fromVersion toVersion : Uuid) (first last : ℤ) (version : Uuid) (i : ℤ) :
    Keyed.lookup FileChunkRecord.chunkIndex i ((w.copyBySearch fromVersion toVersion first last).2.rowsOf version) =
      (Keyed.lookup FileChunkRecord.chunkIndex i (w.rowsOf version)).or
        (if version = toVersion ∧ first ≤ i ∧ i ≤ last then
          (Keyed.lookup FileChunkRecord.chunkIndex i (w.rowsOf fromVersion)).map (forVersion toVersion)
        else none) := by
  by_cases hrange : last < first
  · rw [copyBySearch, if_pos hrange, if_neg (by omega), Option.or_none]
  · rw [copyBySearch_world h _ _ hrange, rowsOf_setRows]
    by_cases hversion : version = toVersion
    · subst hversion
      have hsource := h.rowsOf fromVersion
      rw [if_pos rfl, rowsBetween,
        lookup_carry (Keyed.ordered_map (forVersion_key _) (Keyed.ordered_filter hsource)) (h.rowsOf _),
        Keyed.lookup_map (forVersion_key _), Keyed.lookup_filter hsource]
      congr 1
      -- The row found at `i` is in the range just when `i` is.
      cases hfound : Keyed.lookup FileChunkRecord.chunkIndex i (w.rowsOf fromVersion) with
      | none => simp
      | some row =>
        have hi := Keyed.key_of_lookup hfound
        subst hi
        by_cases hin : first ≤ row.chunkIndex ∧ row.chunkIndex ≤ last
        · simp [Option.filter, hin]
        · simp [Option.filter, hin]
    · rw [if_neg hversion, if_neg fun all => hversion all.1, Option.or_none]

theorem Sorted.forgetObject (h : w.Sorted) (objectId : Uuid) : (w.forgetObject .memory objectId).2.Sorted := by
  intro version rows hrows
  simp only [World.forgetObject, lookup_mapValues, Option.map_eq_some_iff] at hrows
  obtain ⟨before, hbefore, rfl⟩ := hrows
  exact Keyed.ordered_filter (h version before hbefore)

theorem Sorted.createStagingVersion (h : w.Sorted) (nodeId : Uuid) (baseVersionId : Option Uuid) (chunkSize : ℤ) :
    (w.createStagingVersion .memory nodeId baseVersionId chunkSize).2.Sorted := by
  rw [World.createStagingVersion]
  cases w.nodes.lookup nodeId with
  | none => exact h
  | some node => exact (h.setRows w.nextUuid List.Pairwise.nil :)

theorem Sorted.perform (h : w.Sorted) (call : ManifestCall) : (call.perform w).Sorted := by
  cases call with
  | createStagingVersion nodeId baseVersionId chunkSize => exact h.createStagingVersion nodeId baseVersionId chunkSize
  | attachChunk row =>
    rw [ManifestCall.perform]
    by_cases hrows : (w.chunks.lookup row.versionId).isSome
    · rw [attachBySearch_known h hrows]
      exact h.setRows _ (Keyed.ordered_upsert (h.rowsOf _))
    · rw [attachBySearch_unknown (Option.not_isSome_iff_eq_none.mp hrows)]
      exact h
  | copyChunkRange fromVersion toVersion first last =>
    rw [ManifestCall.perform]
    by_cases hrange : last < first
    · rw [copyBySearch, if_pos hrange]
      exact h
    · rw [copyBySearch_world h _ _ hrange]
      exact h.setRows _ (ordered_carry (h.rowsOf toVersion))
  | forgetObject objectId => exact h.forgetObject objectId

theorem Sorted.run (h : w.Sorted) (calls : List ManifestCall) : (calls.foldl ManifestCall.perform w).Sorted := by
  induction calls generalizing w with
  | nil => exact h
  | cons call rest ih => exact ih (h.perform call)

theorem sorted_of_empty (h : w.chunks = ∅) : w.Sorted := by
  intro version rows hrows
  rw [h] at hrows
  cases hrows

theorem manifests_are_maps (w : World) (hnew : w.chunks = ∅) (calls : List ManifestCall) :
    let u := calls.foldl ManifestCall.perform w
    (∀ version rows, u.chunks.lookup version = some rows →
      rows.Pairwise fun a b => a.chunkIndex < b.chunkIndex)
    ∧ (∀ row, if (u.chunks.lookup row.versionId).isSome then
        (u.attachBySearch row).1 = .ok () ∧ ∀ version i,
          Keyed.lookup FileChunkRecord.chunkIndex i ((u.attachBySearch row).2.rowsOf version) =
            if version = row.versionId ∧ i = row.chunkIndex then some row
            else Keyed.lookup FileChunkRecord.chunkIndex i (u.rowsOf version)
      else u.attachBySearch row = (.error .notFound, u))
    ∧ ∀ fromVersion toVersion first last version i,
        Keyed.lookup FileChunkRecord.chunkIndex i
          ((u.copyBySearch fromVersion toVersion first last).2.rowsOf version) =
        (Keyed.lookup FileChunkRecord.chunkIndex i (u.rowsOf version)).or
          (if version = toVersion ∧ first ≤ i ∧ i ≤ last then
            (Keyed.lookup FileChunkRecord.chunkIndex i (u.rowsOf fromVersion)).map (forVersion toVersion)
          else none) := by
  intro u
  have hsorted : u.Sorted := (sorted_of_empty hnew).run calls
  refine ⟨hsorted, fun row => ?_, lookup_copyBySearch hsorted⟩
  by_cases hrows : (u.chunks.lookup row.versionId).isSome
  · rw [if_pos hrows]
    refine ⟨?_, lookup_attachBySearch hsorted hrows⟩
    rw [attachBySearch_known hsorted hrows]
  · rw [if_neg hrows]
    exact attachBySearch_unknown (Option.not_isSome_iff_eq_none.mp hrows)

def outOfOrder : List ManifestCall :=
  let row (i : ℤ) (object : Uuid) : FileChunkRecord := ⟨1, i, 0, 4, "", object⟩
  [.createStagingVersion 0 none 4, .attachChunk (row 3 10), .attachChunk (row 1 11), .attachChunk (row 2 12),
    .attachChunk (row 1 13), .forgetObject 10]

theorem out_of_order_sorted :
    let u := outOfOrder.foldl ManifestCall.perform (World.fresh 0)
    (u.rowsOf 1).map (fun row => (row.chunkIndex, row.objectId)) = [(1, 13), (2, 12)]
    ∧ ∀ version rows, u.chunks.lookup version = some rows →
      rows.Pairwise fun a b => a.chunkIndex < b.chunkIndex :=
  ⟨by decide, (manifests_are_maps (World.fresh 0) rfl outOfOrder).1⟩

end World

end Dcfs
