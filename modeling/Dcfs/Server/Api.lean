import Dcfs.Crypto.RoundTrip
import Dcfs.Library.Machine
import Dcfs.Library.Triple
import Dcfs.Metadata.Versions

/-!
The calls a request handler makes on the metadata repository, the object store, the clock and
the locks, each one atomic, and what they do to the state.
-/

namespace Dcfs

open Effects Tables

/-- The server as configured. `arrange` is the order in which unordered rows come back. -/
structure Config where
  backend : Backend
  keepsLocators : Bool
  chunkSize : ℕ
  chunkSize_pos : 0 < chunkSize
  keyId : Bytes
  cipher : Crypto.Cipher
  arrange : List Uuid → List Uuid
  arrange_perm : ∀ ids, (arrange ids).Perm ids

/-- Which object deletions fail, by the moment they are tried. -/
abbrev Faults := Time → Uuid → Option ObjectStoreError

def noFaults : Faults := fun _ _ => none

inductive Query
  | getNode (id : Uuid)
  | getRoot
  | findChild (parentId : Uuid) (name : Bytes)
  | listChildren (parentId : Uuid) (limit offset : ℕ)
  | getVersion (id : Uuid)
  | findOpenStagingVersion (nodeId : Uuid)
  | getChunks (versionId : Uuid)
  | getChunkRange (versionId : Uuid) (first last : ℤ)
  | collectableObjects (olderThan : Time) (limit : ℤ)
  | get (objectId : Uuid)
  | getRange (objectId : Uuid) (offset len : ℕ)

inductive Call
  | query (q : Query)
  | createNode (id parentId : Uuid) (name : Bytes) (kind : NodeKind) (mode uid gid : ℤ)
  | createSymlink (id parentId : Uuid) (name target : Bytes) (uid gid : ℤ)
  | deleteNode (id : Uuid)
  | renameNode (id newParentId : Uuid) (newName : Bytes)
  | publishNode (id newParentId : Uuid) (newName : Bytes)
  | updateNodeAttr (id : Uuid) (mode uid gid size : Option ℤ) (mtime atime : Option Time)
  | createStagingVersion (nodeId : Uuid) (baseVersionId : Option Uuid) (chunkSize : ℤ)
  | touchStagingVersion (versionId : Uuid) (size : ℤ)
  | attachChunk (row : FileChunkRecord)
  | copyChunkRange (fromVersion toVersion : Uuid) (first last : ℤ)
  | commitVersion (guard : CommitGuard) (totalSize : ℤ) (plaintextHash : String)
  | reconcileNodeSizes
  | forgetObject (objectId : Uuid)
  | purgeEmptyDeadVersions (olderThan : Time)
  | purgeDeletedNodes (olderThan : Time)
  | purgeExpiredSessions (olderThan : Time)
  | newUuid
  | put (objectId : Uuid) (data : Bytes) (file : Uuid)
  | delete (objectId : Uuid)
  | utcNow
  | lockNode (nodeId : Uuid)
  | unlockNode (nodeId : Uuid)
  | tryLockGc
  | unlockGc

abbrev Query.Reply : Query → Type
  | .getNode _ => Answer NodeRecord
  | .getRoot => Answer NodeRecord
  | .findChild _ _ => Answer NodeRecord
  | .listChildren _ _ _ => Answer (List NodeRecord)
  | .getVersion _ => Answer FileVersionRecord
  | .findOpenStagingVersion _ => Answer FileVersionRecord
  | .getChunks _ => Answer (List FileChunkRecord)
  | .getChunkRange _ _ _ => Answer (List FileChunkRecord)
  | .collectableObjects _ _ => Answer (List Uuid)
  | .get _ => Except ObjectStoreError Bytes
  | .getRange _ _ _ => Except ObjectStoreError Bytes

abbrev Call.Reply : Call → Type
  | .query q => q.Reply
  | .createNode _ _ _ _ _ _ _ => Answer NodeRecord
  | .createSymlink _ _ _ _ _ _ => Answer NodeRecord
  | .deleteNode _ => Answer Unit
  | .renameNode _ _ _ => Answer Unit
  | .publishNode _ _ _ => Answer Unit
  | .updateNodeAttr _ _ _ _ _ _ _ => Answer NodeRecord
  | .createStagingVersion _ _ _ => Answer FileVersionRecord
  | .touchStagingVersion _ _ => Answer Unit
  | .attachChunk _ => Answer Unit
  | .copyChunkRange _ _ _ _ => Answer ℕ
  | .commitVersion _ _ _ => Answer FileVersionRecord
  | .reconcileNodeSizes => Answer ℕ
  | .forgetObject _ => Answer ℕ
  | .purgeEmptyDeadVersions _ => Answer ℕ
  | .purgeDeletedNodes _ => Answer ℕ
  | .purgeExpiredSessions _ => Answer ℕ
  | .newUuid => Uuid
  | .put _ _ _ => Except ObjectStoreError Unit
  | .delete _ => Except ObjectStoreError Unit
  | .utcNow => Time
  | .lockNode _ => Unit
  | .unlockNode _ => Unit
  | .tryLockGc => Bool
  | .unlockGc => Unit

abbrev Api : Interface := ⟨Call, Call.Reply⟩

namespace World

variable (w : World)

def get (objectId : Uuid) : Except ObjectStoreError Bytes :=
  match w.objects.lookup objectId with
  | some stored => .ok stored.data
  | none => .error (.notFound objectId)

def getRange (objectId : Uuid) (offset len : ℕ) : Except ObjectStoreError Bytes :=
  match w.objects.lookup objectId with
  | some stored => .ok ((stored.data.drop offset).take len)
  | none => .error (.notFound objectId)

def keepObject (keepsLocators : Bool) (objectId : Uuid) (stored : StoredObject) : World :=
  { w.tick with
    objects := w.objects.insert objectId stored
    storedObjects := if keepsLocators then w.storedObjects.insert objectId w.now
      else w.storedObjects }

def put (keepsLocators : Bool) (objectId : Uuid) (data : Bytes) (file : Uuid) :
    Except ObjectStoreError Unit × World :=
  match w.objects.lookup objectId with
  | some _ => (.error (.alreadyExists objectId), w)
  | none => (.ok (), w.keepObject keepsLocators objectId ⟨data, file⟩)

def dropObject (objectId : Uuid) : World :=
  { w.tick with
    objects := w.objects.erase objectId
    storedObjects := w.storedObjects.erase objectId }

def delete (faults : Faults) (objectId : Uuid) : Except ObjectStoreError Unit × World :=
  match faults w.now objectId with
  | some e => (.error e, w.tick)
  | none =>
    match w.objects.lookup objectId with
    | none => (.error (.notFound objectId), w.tick)
    | some _ => (.ok (), w.dropObject objectId)

end World

def answer (cfg : Config) (w : World) : (q : Query) → q.Reply
  | .getNode id => w.getNode id
  | .getRoot => w.getRoot cfg.backend
  | .findChild parentId name => w.findChild parentId name
  | .listChildren parentId limit offset => w.listChildren cfg.backend parentId limit offset
  | .getVersion id => w.getVersion id
  | .findOpenStagingVersion nodeId => w.findOpenStagingVersion nodeId
  | .getChunks versionId => w.getChunks cfg.backend versionId
  | .getChunkRange versionId first last => w.getChunkRange cfg.backend versionId first last
  | .collectableObjects olderThan limit => w.collectableObjects cfg.backend cfg.arrange olderThan limit
  | .get objectId => w.get objectId
  | .getRange objectId offset len => w.getRange objectId offset len

def perform (cfg : Config) (faults : Faults) (w : World) : (c : Call) → c.Reply × World
  | .query q => (answer cfg w q, w)
  | .createNode id parentId name kind mode uid gid =>
    w.createNode cfg.backend id parentId name kind mode uid gid
  | .createSymlink id parentId name target uid gid =>
    w.createSymlink cfg.backend id parentId name target uid gid
  | .deleteNode id => w.deleteNode cfg.backend id
  | .renameNode id newParentId newName => w.renameNode cfg.backend id newParentId newName
  | .publishNode id newParentId newName => w.publishNode cfg.backend id newParentId newName
  | .updateNodeAttr id mode uid gid size mtime atime => w.updateNodeAttr id mode uid gid size mtime atime
  | .createStagingVersion nodeId base chunkSize => w.createStagingVersion cfg.backend nodeId base chunkSize
  | .touchStagingVersion versionId size => w.touchStagingVersion versionId size
  | .attachChunk row => w.attachChunk cfg.backend row
  | .copyChunkRange fromVersion toVersion first last =>
    w.copyChunkRange cfg.backend fromVersion toVersion first last
  | .commitVersion guard totalSize plaintextHash =>
    w.commitVersion cfg.backend guard totalSize plaintextHash
  | .reconcileNodeSizes => w.reconcileNodeSizes
  | .forgetObject objectId => w.forgetObject cfg.backend objectId
  | .purgeEmptyDeadVersions olderThan => w.purgeEmptyDeadVersions cfg.backend olderThan
  | .purgeDeletedNodes olderThan => w.purgeDeletedNodes cfg.backend olderThan
  | .purgeExpiredSessions olderThan => w.purgeExpiredSessions olderThan
  | .newUuid => (w.nextUuid, w.nextId)
  | .put objectId data file => w.put cfg.keepsLocators objectId data file
  | .delete objectId => w.delete faults objectId
  | .utcNow => (w.now, w.tick)
  | .lockNode nodeId => ((), { w with nodeLocks := nodeId :: w.nodeLocks })
  | .unlockNode nodeId => ((), { w with nodeLocks := w.nodeLocks.erase nodeId })
  | .tryLockGc =>
    match cfg.backend with
    | .memory => (true, w)
    | .postgres => (!w.sweeping, { w with sweeping := true })
  | .unlockGc => ((), { w with sweeping := false })

def handle (cfg : Config) (faults : Faults) (c : Api.Call) (w : World) : Api.Reply c × World :=
  perform cfg faults w c

end Dcfs
