import Dcfs.Server.Data

namespace Dcfs

open Effects Machine Request

structure StageVersionResponse where
  versionId : Uuid
  nodeId : Uuid
  generation : ℕ
  chunkSize : ℕ

structure UploadChunkRequest where
  chunkIndex : ℕ
  plaintextSize : ℕ
  plaintextHash : String

structure UploadChunkResponse where
  objectId : Uuid
  ciphertextSize : ℕ

structure CommitVersionRequest where
  totalSize : ℕ
  plaintextHash : String
  expectedGeneration : ℕ
  expectedCurrentVersion : Option Uuid

structure CommitVersionResponse where
  versionId : Uuid
  nodeId : Uuid
  generation : ℕ
  committedAt : Option Time

structure ChunkManifestEntry where
  chunkIndex : ℕ
  objectId : Uuid
  plaintextHash : String
  plaintextSize : ℕ

def maxWriteBytes : ℕ := 64 * 1024 * 1024

section

variable (cfg : Config)

def stageVersion (nodeId : Uuid) : Request StageVersionResponse := do
  let node ← repo (← ask (.query (.getNode nodeId)))
  let version ← repo (← ask
    (.createStagingVersion nodeId node.currentVersionId (asI64 cfg.chunkSize)))
  pure
    { versionId := version.id
      nodeId := nodeId
      generation := addU64 (asU64 node.generation) 1
      chunkSize := asU64 version.chunkSize }

def uploadChunk (versionId : Uuid) (req : UploadChunkRequest) (body : Bytes) :
    Request UploadChunkResponse := do
  let version ← repo (← ask (.query (.getVersion versionId)))
  if version.state ≠ .staging then throw (.ofConflict "version is no longer staging")
  if req.plaintextSize ≠ body.length then
    throw (.badRequest ("plaintext_size " ++ toString req.plaintextSize ++ " does not match the "
      ++ toString body.length ++ " bytes received"))
  let chunkSize := version.partSize
  if chunkSize < body.length then
    throw (.badRequest ("chunk is larger than the version's chunk size of " ++ toString chunkSize))
  let (objectId, plaintextHash) ← writeChunkPlaintext cfg body version.nodeId
  if req.plaintextHash ≠ "" ∧ req.plaintextHash ≠ plaintextHash then
    throw (.badRequest "plaintext_hash does not match the body")
  repo (← ask (.attachChunk
    { versionId := versionId
      chunkIndex := asI64 req.chunkIndex
      logicalOffset := asI64 (mulU64 req.chunkIndex chunkSize)
      plaintextSize := asI32 body.length
      plaintextHash := plaintextHash
      objectId := objectId }))
  pure
    { objectId := objectId
      ciphertextSize := body.length + Crypto.ciphertextOverhead body.length }

def listChunks (versionId : Uuid) : Request (List ChunkManifestEntry) := do
  let chunks ← repo (← ask (.query (.getChunks versionId)))
  pure (chunks.map (fun c =>
    { chunkIndex := asU64 c.chunkIndex
      objectId := c.objectId
      plaintextHash := c.plaintextHash
      plaintextSize := asU64 c.plaintextSize }))

def manifestTotal : ℕ → ℕ → List FileChunkRecord → Except String ℕ
  | _, total, [] => .ok total
  | expectedIndex, total, chunk :: rest =>
    if asU64 chunk.chunkIndex ≠ expectedIndex then
      .error ("manifest has a hole: expected chunk " ++ toString expectedIndex ++ ", found "
        ++ toString chunk.chunkIndex)
    else manifestTotal (expectedIndex + 1) (addU64 total chunk.plaintextSize.toNat) rest

def commitVersion (versionId : Uuid) (req : CommitVersionRequest) : Request CommitVersionResponse := do
  let version ← repo (← ask (.query (.getVersion versionId)))
  let chunks ← repo (← ask (.query (.getChunks versionId)))
  match manifestTotal 0 0 chunks with
  | .error message => throw (.badRequest message)
  | .ok total =>
    if total ≠ req.totalSize then
      throw (.badRequest ("manifest covers " ++ toString total ++ " bytes but total_size is "
        ++ toString req.totalSize))
    let guard : CommitGuard :=
      { nodeId := version.nodeId
        versionId := versionId
        expectedGeneration := asI64 req.expectedGeneration
        expectedCurrentVersion := req.expectedCurrentVersion }
    let committed ← repo (← ask (.commitVersion guard (asI64 req.totalSize) req.plaintextHash))
    pure
      { versionId := committed.id
        nodeId := version.nodeId
        generation := addU64 req.expectedGeneration 1
        committedAt := committed.committedAt }

end

end Dcfs
