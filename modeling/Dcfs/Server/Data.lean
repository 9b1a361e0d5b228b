import Dcfs.Server.Request

namespace Dcfs

open Effects Machine Request

def commitEveryBytes : ℕ := 1024 * 1024 * 1024

def divCeil (a b : ℕ) : ℕ := (a + b - 1) / b

def resize (bytes : Bytes) (len : ℕ) : Bytes :=
  -- `Vec::resize(len, 0)`.
  bytes.take len ++ List.replicate (len - bytes.length) 0

def splice (bytes : Bytes) (start : ℕ) (patch : Bytes) : Bytes :=
  -- `bytes[at..at + patch.len()].copy_from_slice(patch)`.
  bytes.take start ++ patch ++ bytes.drop (start + patch.length)

def NodeRecord.length (node : NodeRecord) : ℕ := node.size.toNat

def FileVersionRecord.partSize (version : FileVersionRecord) : ℕ := (max version.chunkSize 1).toNat

def atIndex (rows : List FileChunkRecord) (index : ℕ) : Option FileChunkRecord :=
  rows.find? (fun c => asU64 c.chunkIndex == index)

def vecBytes : ℕ := 24

section

variable (cfg : Config)

def readChunkPlaintext (chunk : FileChunkRecord) : Request Bytes := do
  let ciphertext ← store (← ask (.query (.get chunk.objectId)))
  match cfg.cipher.openChunk
      { keyId := cfg.keyId
        objectId := chunk.objectId
        plaintextHash := chunk.plaintextHash
        ciphertextHash := cfg.cipher.hashData ciphertext
        ciphertext := ciphertext } with
  | .ok plaintext => pure plaintext
  | .error _ => throw (.internal "chunk integrity failure")

def readChunkSlice (chunk : FileChunkRecord) (start stop : ℕ) : Request Bytes := do
  let len := chunk.plaintextSize.toNat
  let want := stop - start
  let readable := min stop len
  if readable ≤ start then return List.replicate want 0
  let range : Crypto.ChunkRange :=
    { objectId := chunk.objectId, plaintextLen := len, fromByte := start, toByte := readable }
  let fetched ← store
    (← ask (.query (.getRange chunk.objectId range.toFetch.1 (range.toFetch.2.1 - range.toFetch.1))))
  match cfg.cipher.openRange cfg.keyId range fetched range.toFetch.2.2 with
  | .ok plaintext => pure (resize plaintext want)
  | .error _ =>
    -- an object in the old layout, or corruption: the whole chunk tells them apart
    let whole ← readChunkPlaintext cfg chunk
    pure (resize ((whole.drop start).take (min readable whole.length - start)) want)

def writeChunkPlaintext (plaintext : Bytes) (file : Uuid) : Request (Uuid × String) := do
  let objectId ← ask .newUuid
  let sealed := cfg.cipher.sealChunk cfg.keyId objectId plaintext
  store (← ask (.put objectId sealed.ciphertext file))
  pure (objectId, sealed.plaintextHash)

def readPiece (rows : List FileChunkRecord) (partSize offset size next : ℕ) : Request Bytes :=
  let chunkStart := next * partSize
  let wantFrom := offset - chunkStart
  let wantTo := min (offset + size) (chunkStart + partSize) - chunkStart
  match atIndex rows next with
  | some chunk => readChunkSlice cfg chunk wantFrom wantTo
  | none => pure (List.replicate (wantTo - wantFrom) 0)

def readPieces (rows : List FileChunkRecord) (partSize offset size first count : ℕ) : Request Bytes := do
  let pieces ← (List.range' first count).mapM' (readPiece cfg rows partSize offset size)
  pure pieces.flatten

def partsSpanned (partSize offset size : ℕ) : ℕ := (offset + size - 1) / partSize - offset / partSize + 1

def readFrom (version : FileVersionRecord) (offset size : ℕ) : ReadRequest Bytes := do
  let partSize := version.partSize
  let first := offset / partSize
  let last := (offset + size - 1) / partSize
  let rows ← repo (← ask (.query (.getChunkRange version.id (asI64 first) (asI64 last))))
  -- `vec![Vec::new(); n]` panics where it would take more than `isize::MAX` bytes
  if 2 ^ 63 ≤ partsSpanned partSize offset size * vecBytes then throw .panicked
  readPieces cfg rows partSize offset size first (partsSpanned partSize offset size)

def readVisible (nodeId : Uuid) (current : Option Uuid) (offset size : ℕ) : ReadRequest (Bytes × Bool) := do
  match ← ask (.query (.findOpenStagingVersion nodeId)) with
  | .ok working => return (← readFrom cfg working offset size, false)
  | .error .notFound =>
    match current with
    | none => return ([], true)
    | some versionId =>
      let version ← repo (← ask (.query (.getVersion versionId)))
      return (← readFrom cfg version offset size, true)
  | .error e => throw (.error (.ofRepository e))

def readBytes (nodeId : Uuid) (offset size : Option ℕ) : ReadRequest (Bytes × Bool) := do
  let node ← repo (← ask (.query (.getNode nodeId)))
  if node.kind = .directory then throw (.error (.badRequest "cannot read a directory"))
  let offset := offset.getD 0
  let fileSize := node.length
  if fileSize ≤ offset then return ([], true)
  let size := min (size.getD (fileSize - offset)) (fileSize - offset)
  if size = 0 then return ([], true)
  readVisible cfg nodeId node.currentVersionId offset size

def openWorkingVersion (nodeId : Uuid) (node : NodeRecord) : Request FileVersionRecord := do
  -- The version a write adds to: the open one, or a new one that carries the manifest over.
  match ← ask (.query (.findOpenStagingVersion nodeId)) with
  | .ok version => pure version
  | .error .notFound =>
    match node.currentVersionId with
    | none => repo (← ask (.createStagingVersion nodeId none (asI64 cfg.chunkSize)))
    | some base =>
      let chunkSize := max (← repo (← ask (.query (.getVersion base)))).chunkSize 1
      let version ← repo (← ask (.createStagingVersion nodeId (some base) chunkSize))
      let parts := divCeil node.length chunkSize.toNat
      let _ ← repo (← ask (.copyChunkRange base version.id 0 (asI64 parts)))
      pure version
  | .error e => throw (.ofRepository e)

structure WritePlan where
  partSize : ℕ
  offset : ℕ
  stop : ℕ
  oldSize : ℕ

namespace WritePlan

variable (plan : WritePlan)

def newSize : ℕ := max plan.oldSize plan.stop
def chunkCount : ℕ := divCeil plan.newSize plan.partSize
def writeFirst : ℕ := plan.offset / plan.partSize
def writeLast : ℕ := asU64 ((plan.stop : ℤ) - 1) / plan.partSize

def rewriteLast : Option ℕ :=
  -- The file's last chunk grows when the file does, so it is rewritten even if not reached.
  let tail := plan.oldSize / plan.partSize
  if 0 < plan.oldSize ∧ plan.oldSize % plan.partSize ≠ 0 ∧ tail < plan.chunkCount
      ∧ (tail < plan.writeFirst ∨ plan.writeLast < tail) then some tail
  else none

def touched : List ℕ :=
  let reached := List.range' plan.writeFirst
    (min plan.writeLast (plan.chunkCount - 1) + 1 - plan.writeFirst)
  match plan.rewriteLast with
  | some tail => if tail < plan.writeFirst then tail :: reached else reached ++ [tail]
  | none => reached

def chunkLen (index : ℕ) : ℕ := min plan.partSize (plan.newSize - index * plan.partSize)
def overlapStart (index : ℕ) : ℕ := max plan.offset (index * plan.partSize)
def overlapEnd (index : ℕ) : ℕ := min plan.stop (index * plan.partSize + plan.chunkLen index)

def coversWhole (index : ℕ) : Bool :=
  plan.overlapStart index = index * plan.partSize
    ∧ plan.overlapEnd index = index * plan.partSize + plan.chunkLen index

def merge (body old : Bytes) (index : ℕ) : Bytes :=
  let plaintext := resize old (plan.chunkLen index)
  if plan.overlapStart index < plan.overlapEnd index then
    splice plaintext (plan.overlapStart index - index * plan.partSize)
      ((body.drop (plan.overlapStart index - plan.offset)).take
        (plan.overlapEnd index - plan.overlapStart index))
  else plaintext

end WritePlan

def oldPlaintext (plan : WritePlan) (oldChunks : List FileChunkRecord) (index : ℕ) : Request Bytes :=
  if plan.coversWhole index then pure []
  else match atIndex oldChunks index with
    | some chunk => readChunkPlaintext cfg chunk
    | none => pure []

def writeChunk (nodeId versionId : Uuid) (plan : WritePlan) (body : Bytes)
    (oldChunks : List FileChunkRecord) (index : ℕ) : Request Unit := do
  let old ← oldPlaintext cfg plan oldChunks index
  let plaintext := plan.merge body old index
  let (objectId, plaintextHash) ← writeChunkPlaintext cfg plaintext nodeId
  repo (← ask (.attachChunk
    { versionId := versionId
      chunkIndex := asI64 index
      logicalOffset := asI64 ↑(index * plan.partSize)
      plaintextSize := asI32 plaintext.length
      plaintextHash := plaintextHash
      objectId := objectId }))

def totalHash (working : FileVersionRecord) : String :=
  -- A cheap identity for the version, not a hash of the file's content.
  cfg.cipher.hashData (toString working.id ++ ":" ++ toString working.size).toUTF8.toList

def commitWorkingVersion (nodeId : Uuid) : Request Bool := do
  match ← ask (.query (.findOpenStagingVersion nodeId)) with
  | .error .notFound => pure false
  | .error e => throw (.ofRepository e)
  | .ok working =>
    let node ← repo (← ask (.query (.getNode nodeId)))
    let guard : CommitGuard :=
      { nodeId := nodeId
        versionId := working.id
        expectedGeneration := node.generation
        expectedCurrentVersion := node.currentVersionId }
    let _ ← repo (← ask (.commitVersion guard working.size (totalHash cfg working)))
    pure true

def oldChunksOf (versionId : Uuid) (plan : WritePlan) : Request (List FileChunkRecord) := do
  let reached ← repo (← ask (.query (.getChunkRange versionId (asI64 plan.writeFirst)
    (asI64 ↑(min plan.writeLast plan.chunkCount)))))
  match plan.rewriteLast with
  | some tail =>
    let last ← repo (← ask (.query (.getChunkRange versionId (asI64 tail) (asI64 tail))))
    pure (reached ++ last)
  | none => pure reached

def writeLocked (nodeId : Uuid) (offset : ℕ) (body : Bytes) : Request ℕ := do
  let node ← repo (← ask (.query (.getNode nodeId)))
  if node.kind = .directory then throw (.badRequest "cannot write to a directory")
  let working ← openWorkingVersion cfg nodeId node
  let plan : WritePlan :=
    { partSize := working.partSize
      offset := offset
      stop := addU64 offset body.length
      oldSize := node.length }
  let oldChunks ← oldChunksOf working.id plan
  plan.touched.forM (writeChunk cfg nodeId working.id plan body oldChunks)
  repo (← ask (.touchStagingVersion working.id (asI64 plan.newSize)))
  let _ ← repo (← ask (.updateNodeAttr nodeId none none none (some (asI64 plan.newSize)) none none))
  if plan.oldSize / commitEveryBytes < plan.newSize / commitEveryBytes then
    let _ ← commitWorkingVersion cfg nodeId
  pure body.length

def writeBytes (nodeId : Uuid) (offset : ℕ) (body : Bytes) : Request ℕ :=
  if body.isEmpty then pure 0 else withNodeLock nodeId (writeLocked cfg nodeId offset body)

def commitNode (nodeId : Uuid) : Request Unit := do
  let _ ← repo (← ask (.query (.getNode nodeId)))
  let _ ← withNodeLock nodeId (commitWorkingVersion cfg nodeId)
  pure ()

end

end Dcfs
