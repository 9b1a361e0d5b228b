import Dcfs.Library.Machine
import Dcfs.Library.Outcome
import Dcfs.Library.Table
import Dcfs.Metadata.Records

namespace Dcfs

open Machine Tables

def sliceBytes {ε : Type} (bytes : Bytes) (start stop : ℕ) : Except (Fault ε) Bytes :=
  -- `Bytes::slice` panics on a range that is not one of the bytes.
  if start ≤ stop ∧ stop ≤ bytes.length then .ok ((bytes.take stop).drop start) else .error .panicked

def sliceRange {ε : Type} (all : Bytes) (offset len : ℕ) : Except (Fault ε) Bytes :=
  -- The part of a whole object that a range asks for; the sum wraps.
  let start := min offset all.length
  let stop := min (addU64 start len) all.length
  sliceBytes all start stop

def defaultGetRange (get : Uuid → Except ObjectStoreError Bytes) (id : Uuid) (offset len : ℕ) :
    Except (Fault ObjectStoreError) Bytes :=
  -- `ObjectStore::get_range`, unless a backend has its own.
  match get id with
  | .ok all => sliceRange all offset len
  | .error e => .error (.error e)

namespace MemoryObjectStore

def get (objects : Table Uuid Bytes) (id : Uuid) : Except ObjectStoreError Bytes :=
  match objects.lookup id with
  | some data => .ok data
  | none => .error (.notFound id)

def getRange (objects : Table Uuid Bytes) : Uuid → ℕ → ℕ → Except (Fault ObjectStoreError) Bytes :=
  defaultGetRange (get objects)

end MemoryObjectStore

namespace FsObjectStore

def fill (reads : ℕ → Except String ℕ) : ℕ → ℕ → ℕ → Bytes → Except String Bytes
  -- The loop of reads into what is left of the buffer. A read gives any number of bytes, none only at the end.
  | 0, _, _, _ => .ok []
  | fuel + 1, attempt, room, rest =>
    if room = 0 then .ok []
    else match reads attempt with
      | .error e => .error e
      | .ok n =>
        let count := min (max n 1) (min room rest.length)
        if count = 0 then .ok []
        else do
          let more ← fill reads fuel (attempt + 1) (room - count) (rest.drop count)
          pure (rest.take count ++ more)

def getRange (files : Table Uuid Bytes) (reads : ℕ → Except String ℕ) (id : Uuid) (offset len : ℕ) :
    Except (Fault ObjectStoreError) Bytes :=
  -- Seeking takes a signed offset, and a buffer has at most `isize::MAX` bytes.
  match files.lookup id with
  | none => .error (.error (.notFound id))
  | some data =>
    if 2 ^ 63 ≤ offset then .error (.error (.backend "Invalid argument (os error 22)"))
    else if 2 ^ 63 ≤ len then .error .panicked
    else match fill reads len 0 len (data.drop offset) with
      | .ok bytes => .ok bytes
      | .error e => .error (.error (.backend e))

end FsObjectStore

def rangeOf (data : Bytes) (offset len : ℕ) : Bytes :=
  (data.take (min (offset + len) data.length)).drop (min offset data.length)

variable {ε : Type} {data : Bytes} {offset len : ℕ}

theorem rangeOf_eq (data : Bytes) (offset len : ℕ) : rangeOf data offset len = (data.drop offset).take len := by
  rw [rangeOf, List.take_eq_take_min, min_assoc, min_self, ← List.take_eq_take_min]
  rcases Nat.le_total offset data.length with h | h
  · rw [min_eq_left h, List.take_drop]
  · rw [min_eq_right h, List.drop_eq_nil_of_le h, List.take_nil, List.drop_eq_nil_of_le]
    exact List.length_take_le' ..

theorem sliceRange_eq (h : min offset data.length + len < 2 ^ 64) :
    sliceRange data offset len = (.ok (rangeOf data offset len) : Except (Fault ε) Bytes) := by
  have hstop : min (min offset data.length + len) data.length = min (offset + len) data.length := by omega
  unfold sliceRange sliceBytes
  dsimp only
  rw [addU64_of_lt h, hstop, if_pos (by omega)]
  rfl

namespace FsObjectStore

theorem fill_eq {reads : ℕ → Except String ℕ} (hreads : ∀ k, ∃ n, reads k = .ok n) {fuel attempt room : ℕ}
    {rest : Bytes}
    (hfuel : room ≤ fuel) : fill reads fuel attempt room rest = .ok (rest.take room) := by
  induction fuel generalizing attempt room rest with
  | zero =>
    rw [Nat.le_zero.mp hfuel, List.take_zero]
    rfl
  | succ fuel ih =>
    obtain ⟨n, hn⟩ := hreads attempt
    rw [fill, hn]
    dsimp only
    by_cases hroom : room = 0
    · rw [if_pos hroom, hroom, List.take_zero]
    rw [if_neg hroom]
    by_cases hcount : min (max n 1) (min room rest.length) = 0
    · have hend : rest = [] := List.eq_nil_of_length_eq_zero (by omega)
      rw [if_pos hcount, hend, List.take_nil]
    · rw [if_neg hcount, ih (by omega)]
      generalize hc : min (max n 1) (min room rest.length) = count at hcount ⊢
      have hsum : room = count + (room - count) := by omega
      conv_rhs => rw [hsum, List.take_add]
      rfl

theorem getRange_eq {files : Table Uuid Bytes} {reads : ℕ → Except String ℕ} {id : Uuid}
    (hreads : ∀ k, ∃ n, reads k = .ok n) (hfile : files.lookup id = some data) :
    getRange files reads id offset len = .ok (rangeOf data offset len) ↔ offset < 2 ^ 63 ∧ len < 2 ^ 63 := by
  unfold getRange
  rw [hfile]
  dsimp only
  rw [fill_eq hreads le_rfl, ← rangeOf_eq]
  by_cases hoffset : 2 ^ 63 ≤ offset
  · rw [if_pos hoffset]
    simp only [reduceCtorEq, false_iff]
    omega
  · rw [if_neg hoffset]
    by_cases hlen : 2 ^ 63 ≤ len
    · rw [if_pos hlen]
      simp only [reduceCtorEq, false_iff]
      omega
    · rw [if_neg hlen]
      simp only [true_iff]
      omega

end FsObjectStore

end Dcfs
