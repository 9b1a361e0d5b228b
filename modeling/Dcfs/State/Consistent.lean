import Dcfs.Server.Exec

/-!
What holds of the metadata and the object store between requests: every version has its
manifest, every row of a manifest names a sealed object put for the same file and for one chunk
of it, and the current version of a node is a committed version of that node.
-/

namespace Dcfs

open Machine Tables

def Config.partSize (cfg : Config) : ℕ := (max (asI64 cfg.chunkSize) 1).toNat

def InI64 (z : ℤ) : Prop := -(2 ^ 63) ≤ z ∧ z < 2 ^ 63

theorem inI64_zero : InI64 0 := by
  unfold InI64
  omega

/-- The row names a stored object of the file, sealed from `plaintext`. -/
structure Sealed (cfg : Config) (w : World) (file : Uuid) (row : FileChunkRecord) (plaintext : Bytes) :
    Prop where
  stored : w.objects.lookup row.objectId =
    some ⟨cfg.cipher.sealedBytes cfg.keyId row.objectId plaintext, file⟩
  hash : row.plaintextHash = cfg.cipher.hashData plaintext
  size : row.plaintextSize = asI32 plaintext.length
  fits : plaintext.length ≤ cfg.partSize

structure ManifestOk (cfg : Config) (w : World) (version : FileVersionRecord)
    (rows : List FileChunkRecord) : Prop where
  ordered : Keyed.Ordered FileChunkRecord.chunkIndex rows
  owner : ∀ row ∈ rows, row.versionId = version.id
  index : ∀ row ∈ rows, InI64 row.chunkIndex
  sealed : ∀ row ∈ rows, ∃ plaintext, Sealed cfg w version.nodeId row plaintext

structure VersionOk (cfg : Config) (w : World) (id : Uuid) (version : FileVersionRecord) : Prop where
  id_eq : version.id = id
  id_lt : id < w.nextUuid
  size_range : InI64 version.size
  part_size : version.partSize = cfg.partSize
  staged : version.state = .staging ↔ version.committedAt = none
  created_past : version.createdAt < w.now
  committed_past : ∀ t, version.committedAt = some t → t < w.now

structure NodeOk (id : Uuid) (node : NodeRecord) : Prop where
  id_eq : node.id = id
  size_range : InI64 node.size

structure Orderly (w : World) : Prop where
  ids : ∀ {id version}, w.versions.lookup id = some version → version.id = id ∧ id < w.nextUuid
  current : ∀ {id node current}, w.nodes.lookup id = some node → node.currentVersionId = some current →
    ∃ version, w.versions.lookup current = some version ∧ version.nodeId = id
      ∧ version.state = .committed

structure Consistent (cfg : Config) (w : World) : Prop where
  version : ∀ {id version}, w.versions.lookup id = some version → VersionOk cfg w id version
  distinct : ∀ {id version id' version'}, w.versions.lookup id = some version →
    w.versions.lookup id' = some version' → version.state = .staging → version'.state = .staging →
    version.createdAt = version'.createdAt → id = id'
  manifest : ∀ {id version}, w.versions.lookup id = some version →
    ∃ rows, w.chunks.lookup id = some rows ∧ ManifestOk cfg w version rows
  chunk_version : ∀ {id rows}, w.chunks.lookup id = some rows →
    ∃ version, w.versions.lookup id = some version
  shared : ∀ {v v' row row'}, row ∈ w.rowsOf v → row' ∈ w.rowsOf v' → row.objectId = row'.objectId →
    row' = World.forVersion row'.versionId row
  object_lt : ∀ {id stored}, w.objects.lookup id = some stored → id < w.nextUuid
  node : ∀ {id node}, w.nodes.lookup id = some node → NodeOk id node
  current : ∀ {id node current}, w.nodes.lookup id = some node → node.currentVersionId = some current →
    ∃ version, w.versions.lookup current = some version ∧ version.nodeId = id
      ∧ version.state = .committed

variable {cfg : Config} {w w' : World}

theorem Sealed.mono {file : Uuid} {row : FileChunkRecord} {plaintext : Bytes}
    (h : Sealed cfg w file row plaintext)
    (ho : ∀ stored, w.objects.lookup row.objectId = some stored →
      w'.objects.lookup row.objectId = some stored) : Sealed cfg w' file row plaintext :=
  { h with stored := ho _ h.stored }

theorem ManifestOk.mono {version version' : FileVersionRecord} {rows : List FileChunkRecord}
    (h : ManifestOk cfg w version rows) (hid : version'.id = version.id)
    (hnode : version'.nodeId = version.nodeId)
    (ho : ∀ row ∈ rows, ∀ stored, w.objects.lookup row.objectId = some stored →
      w'.objects.lookup row.objectId = some stored) : ManifestOk cfg w' version' rows where
  ordered := h.ordered
  owner row hr := (h.owner row hr).trans hid.symm
  index := h.index
  sealed row hr := by
    obtain ⟨plaintext, hp⟩ := h.sealed row hr
    exact ⟨plaintext, hnode ▸ hp.mono (ho row hr)⟩

theorem VersionOk.later {id : Uuid} {version : FileVersionRecord} (h : VersionOk cfg w id version)
    (hnext : w.nextUuid ≤ w'.nextUuid) (hnow : w.now ≤ w'.now) : VersionOk cfg w' id version :=
  { h with
    id_lt := h.id_lt.trans_le hnext
    created_past := h.created_past.trans_le hnow
    committed_past := fun t ht => (h.committed_past t ht).trans_le hnow }

namespace Consistent

variable (hw : Consistent cfg w)

include hw

theorem orderly : Orderly w where
  ids hv := ⟨(hw.version hv).id_eq, (hw.version hv).id_lt⟩
  current := hw.current

theorem rows_ok {id : Uuid} {version : FileVersionRecord} (hv : w.versions.lookup id = some version) :
    ManifestOk cfg w version (w.rowsOf id) := by
  obtain ⟨rows, hrows, hok⟩ := hw.manifest hv
  rwa [World.rowsOf, hrows]

theorem chunks_eq {id : Uuid} {version : FileVersionRecord}
    (hv : w.versions.lookup id = some version) : w.chunks.lookup id = some (w.rowsOf id) := by
  obtain ⟨rows, hrows, -⟩ := hw.manifest hv
  rw [World.rowsOf, hrows]
  rfl

theorem version_of_row {v : Uuid} {row : FileChunkRecord} (hrow : row ∈ w.rowsOf v) :
    ∃ version, w.versions.lookup v = some version := by
  cases hchunks : w.chunks.lookup v with
  | none => simp [World.rowsOf, hchunks] at hrow
  | some rows => exact hw.chunk_version hchunks

theorem named_lt {v : Uuid} {row : FileChunkRecord} (hrow : row ∈ w.rowsOf v) :
    row.objectId < w.nextUuid := by
  obtain ⟨version, hv⟩ := hw.version_of_row hrow
  obtain ⟨plaintext, hp⟩ := (hw.rows_ok hv).sealed row hrow
  exact hw.object_lt hp.stored

theorem of_nodes (hv : w'.versions = w.versions) (hc : w'.chunks = w.chunks)
    (ho : w'.objects = w.objects) (hnext : w'.nextUuid = w.nextUuid) (hnow : w.now ≤ w'.now)
    (hid : ∀ {id node}, w'.nodes.lookup id = some node → NodeOk id node)
    (hcur : ∀ {id node current}, w'.nodes.lookup id = some node →
      node.currentVersionId = some current →
      ∃ node, w.nodes.lookup id = some node ∧ node.currentVersionId = some current) :
    Consistent cfg w' where
  version h := (hw.version (hv ▸ h)).later hnext.ge hnow
  distinct h h' := hw.distinct (hv ▸ h) (hv ▸ h')
  manifest h := by
    obtain ⟨rows, hrows, hok⟩ := hw.manifest (hv ▸ h)
    exact ⟨rows, hc ▸ hrows, hok.mono rfl rfl (fun _ _ _ h => ho ▸ h)⟩
  chunk_version h := hv ▸ hw.chunk_version (hc ▸ h)
  shared := by
    simp only [World.rowsOf, hc]
    exact hw.shared
  object_lt h := hnext ▸ hw.object_lt (ho ▸ h)
  node := hid
  current h hcurrent := by
    obtain ⟨node, hnode, hc⟩ := hcur h hcurrent
    exact hv ▸ hw.current hnode hc

end Consistent

end Dcfs
