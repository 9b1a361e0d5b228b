import Dcfs.Library.Sparse
import Dcfs.State.Switch

namespace Dcfs

open Machine Tables World

section

variable (cfg : Config) (w : World)

def plaintextOf (row : FileChunkRecord) : Bytes :=
  match w.objects.lookup row.objectId with
  | none => []
  | some stored =>
    match cfg.cipher.openChunk
        { keyId := cfg.keyId
          objectId := row.objectId
          plaintextHash := row.plaintextHash
          ciphertextHash := cfg.cipher.hashData stored.data
          ciphertext := stored.data } with
    | .ok plaintext => plaintext
    | .error _ => []

def partsOf (rows : List FileChunkRecord) (index : ℕ) : Option Bytes :=
  (atIndex rows index).map (plaintextOf cfg w)

def byteOf (v : Uuid) (p : ℕ) : UInt8 := Sparse.byteAt cfg.partSize (partsOf cfg w (w.rowsOf v)) p

def visibleVersion (n : Uuid) : Option Uuid :=
  match newest (w.stagingOf n) with
  | some version => some version.id
  | none => (w.nodes.lookup n).bind NodeRecord.currentVersionId

def visibleByte (n : Uuid) (p : ℕ) : UInt8 :=
  match visibleVersion w n with
  | some v => byteOf cfg w v p
  | none => 0

end

variable {cfg : Config} {w : World}

theorem Config.partSize_pos (cfg : Config) : 0 < cfg.partSize := by
  simp only [Config.partSize]
  omega

theorem Config.partSize_lt (hsize : cfg.chunkSize < 2 ^ 31) : cfg.partSize < 2 ^ 31 := by
  have := cfg.chunkSize_pos
  rw [Config.partSize, asI64_of_lt (by omega)]
  omega

theorem Sealed.plaintextOf_eq {file : Uuid} {row : FileChunkRecord} {plaintext : Bytes}
    (h : Sealed cfg w file row plaintext) : plaintextOf cfg w row = plaintext := by
  simp only [plaintextOf, h.stored, h.hash, cfg.cipher.openChunk_sealed]

theorem inI64_asI64 (z : ℤ) : InI64 (asI64 z) := by
  have h1 := Int.le_bmod (x := z) (m := 2 ^ 64) (by decide)
  have h2 := Int.bmod_lt (x := z) (m := 2 ^ 64) (by decide)
  simp only [InI64, asI64]
  omega

theorem asU64_asI64 (n : ℕ) (h : n < 2 ^ 64) : asU64 (asI64 n) = n := by
  simp only [asU64, asI64, Int.bmod]
  split_ifs <;> omega

theorem asI64_asU64 {z : ℤ} (h : InI64 z) : asI64 (asU64 z) = z := by
  simp only [InI64] at h
  simp only [asI64, asU64, Int.bmod]
  split_ifs <;> omega

theorem asU64_eq_iff {z : ℤ} (hz : InI64 z) {i : ℕ} (hi : i < 2 ^ 64) : asU64 z = i ↔ z = asI64 i :=
  ⟨fun h => by rw [← h, asI64_asU64 hz], fun h => by rw [h, asU64_asI64 i hi]⟩

theorem atIndex_eq_lookup {rows : List FileChunkRecord} (hrows : ∀ row ∈ rows, InI64 row.chunkIndex)
    {i : ℕ} (hi : i < 2 ^ 64) :
    atIndex rows i = Keyed.lookup FileChunkRecord.chunkIndex (asI64 i) rows := by
  induction rows with
  | nil => rfl
  | cons row rest ih =>
    have hrow := asU64_eq_iff (hrows row List.mem_cons_self) hi
    have hrest := ih (fun r hr => hrows r (List.mem_cons_of_mem _ hr))
    rw [Keyed.lookup_cons, ← hrest, atIndex, List.find?_cons]
    by_cases h : asU64 row.chunkIndex = i
    · rw [if_pos (hrow.mp h), beq_iff_eq.mpr h]
    · rw [if_neg (fun e => h (hrow.mpr e)), beq_eq_false_iff_ne.mpr h]
      rfl

theorem mem_of_atIndex {rows : List FileChunkRecord} {i : ℕ} {row : FileChunkRecord}
    (h : atIndex rows i = some row) : row ∈ rows := List.mem_of_find?_eq_some h

theorem partsOf_mono {u : World} {version : FileVersionRecord} {rows : List FileChunkRecord}
    (h : ManifestOk cfg w version rows) (ho : ∀ row ∈ rows, ∀ stored,
      w.objects.lookup row.objectId = some stored → u.objects.lookup row.objectId = some stored)
    (i : ℕ) : partsOf cfg u rows i = partsOf cfg w rows i := by
  simp only [partsOf]
  cases hrow : atIndex rows i with
  | none => rfl
  | some row =>
    have hmem := mem_of_atIndex hrow
    obtain ⟨plaintext, hp⟩ := h.sealed row hmem
    rw [Option.map_some, Option.map_some, (hp.mono (ho row hmem)).plaintextOf_eq, hp.plaintextOf_eq]

theorem byteOf_mono {u : World} (hw : Consistent cfg w) {v : Uuid} {version : FileVersionRecord}
    (hv : w.versions.lookup v = some version) (hrows : u.rowsOf v = w.rowsOf v)
    (ho : ∀ row ∈ w.rowsOf v, ∀ stored,
      w.objects.lookup row.objectId = some stored → u.objects.lookup row.objectId = some stored) :
    byteOf cfg u v = byteOf cfg w v := by
  funext p
  rw [byteOf, hrows, byteOf]
  exact Sparse.byteAt_congr (partsOf_mono (hw.rows_ok hv) ho _)

theorem newest_mem {versions : List FileVersionRecord} {version : FileVersionRecord}
    (h : newest versions = some version) : version ∈ versions := by
  induction versions with
  | nil => cases h
  | cons head rest ih =>
    simp only [newest] at h
    split at h
    · split_ifs at h
      · cases h
        exact List.mem_cons_of_mem _ (ih ‹_›)
      · cases h
        exact List.mem_cons_self
    · cases h
      exact List.mem_cons_self

theorem newest_eq_none {versions : List FileVersionRecord} : newest versions = none ↔ versions = [] := by
  cases versions with
  | nil => simp [newest]
  | cons head rest =>
    simp only [newest, reduceCtorEq, iff_false]
    split
    · split_ifs <;> simp
    · simp

theorem newest_le {versions : List FileVersionRecord} {version : FileVersionRecord}
    (h : newest versions = some version) : ∀ other ∈ versions, other.createdAt ≤ version.createdAt := by
  induction versions generalizing version with
  | nil => cases h
  | cons head rest ih =>
    intro other hother
    simp only [newest] at h
    split at h
    · rename_i best hbest
      split_ifs at h with hle
      · cases h
        rcases List.mem_cons.mp hother with rfl | hmem
        · exact hle
        · exact ih hbest other hmem
      · cases h
        rcases List.mem_cons.mp hother with rfl | hmem
        · exact le_rfl
        · exact (ih hbest other hmem).trans (le_of_not_ge hle)
    · rename_i hnone
      cases h
      rw [newest_eq_none.mp hnone] at hother
      rw [List.mem_singleton.mp hother]

theorem mem_stagingOf {n : Uuid} {version : FileVersionRecord} :
    version ∈ w.stagingOf n ↔
      (∃ id, w.versions.lookup id = some version) ∧ version.nodeId = n ∧ version.state = .staging := by
  simp [stagingOf, List.mem_filter, mem_values]

end Dcfs
