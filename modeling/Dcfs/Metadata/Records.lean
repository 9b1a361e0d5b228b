import Dcfs.Library.Table
import Dcfs.Library.Keyed
import Mathlib.Data.UInt

/-!
The rows of the metadata store and of the object store, and the state of both. Identifiers
are drawn from a counter, which stands for the random UUIDs of the source never repeating.
-/

namespace Dcfs

open Tables

abbrev Uuid := ℕ
abbrev Bytes := List UInt8
abbrev Time := ℤ

inductive NodeKind
  | directory | file | symlink
  deriving DecidableEq

inductive VersionState
  | staging | committed | superseded | garbage
  deriving DecidableEq

def VersionState.canTransitionTo : VersionState → VersionState → Bool
  | .staging, .committed => true
  | .staging, .garbage => true
  | .committed, .superseded => true
  | .superseded, .garbage => true
  | _, _ => false

inductive RepositoryError
  | notFound | alreadyExists | conflict | directoryNotEmpty
  | database (detail : String)
  deriving DecidableEq

inductive ObjectStoreError
  | notFound (id : Uuid) | alreadyExists (id : Uuid)
  | backend (detail : String)
  | retained (id : Uuid)
  deriving DecidableEq

inductive Fault (ε : Type)
  | error (e : ε)
  | panicked
  deriving DecidableEq

def Fault.map {ε δ : Type} (f : ε → δ) : Fault ε → Fault δ
  | .error e => .error (f e)
  | .panicked => .panicked

structure NodeRecord where
  id : Uuid
  parentId : Option Uuid
  name : Bytes
  kind : NodeKind
  mode : ℤ
  uid : ℤ
  gid : ℤ
  size : ℤ
  atime : Time
  mtime : Time
  ctime : Time
  currentVersionId : Option Uuid
  generation : ℤ
  linkTarget : Option Bytes
  deriving DecidableEq

structure FileVersionRecord where
  id : Uuid
  nodeId : Uuid
  baseVersionId : Option Uuid
  state : VersionState
  size : ℤ
  plaintextHash : String
  chunkSize : ℤ
  createdAt : Time
  committedAt : Option Time
  deriving DecidableEq

structure FileChunkRecord where
  versionId : Uuid
  chunkIndex : ℤ
  logicalOffset : ℤ
  plaintextSize : ℤ
  plaintextHash : String
  objectId : Uuid
  deriving DecidableEq

structure CommitGuard where
  nodeId : Uuid
  versionId : Uuid
  expectedGeneration : ℤ
  expectedCurrentVersion : Option Uuid
  deriving DecidableEq

structure SessionRecord where
  id : Uuid
  label : String
  createdAt : Time
  expiresAt : Time
  deriving DecidableEq

structure StoredObject where
  data : Bytes
  file : Uuid
  deriving DecidableEq

namespace FileVersionRecord

def lastActive (version : FileVersionRecord) : Time :=
  version.committedAt.getD version.createdAt

end FileVersionRecord

/-- Rows of `nodes` whose `deleted_at` is set are kept apart in `deletedNodes`, with that time. -/
structure World where
  rootId : Uuid
  nodes : Table Uuid NodeRecord
  deletedNodes : Table Uuid (NodeRecord × Time)
  versions : Table Uuid FileVersionRecord
  chunks : Table Uuid (List FileChunkRecord)
  sessions : Table String (SessionRecord × Bool)
  storedObjects : Table Uuid Time
  objects : Table Uuid StoredObject
  nodeLocks : List Uuid
  sweeping : Bool
  nextUuid : Uuid
  now : Time

namespace World

def rowsOf (w : World) (version : Uuid) : List FileChunkRecord :=
  (w.chunks.lookup version).getD []

def isCurrent (w : World) (version : FileVersionRecord) : Bool :=
  match w.nodes.lookup version.nodeId with
  | some node => node.currentVersionId == some version.id
  | none => false

def stagingOf (w : World) (nodeId : Uuid) : List FileVersionRecord :=
  (values w.versions).filter (fun v => v.nodeId == nodeId && v.state == .staging)

-- `Utc::now()` and `NOW()`: no two answers are equal.
def tick (w : World) : World := { w with now := w.now + 1 }

def nextId (w : World) : World := { w with nextUuid := w.nextUuid + 1 }

end World

def rootNode (id : Uuid) (now : Time) : NodeRecord where
  id := id
  parentId := none
  name := []
  kind := .directory
  mode := 0o40755
  uid := 0
  gid := 0
  size := 0
  atime := now
  mtime := now
  ctime := now
  currentVersionId := none
  generation := 0
  linkTarget := none

def World.fresh (now : Time) : World where
  rootId := 0
  nodes := AList.singleton 0 (rootNode 0 now)
  deletedNodes := ∅
  versions := ∅
  chunks := ∅
  sessions := ∅
  storedObjects := ∅
  objects := ∅
  nodeLocks := []
  sweeping := false
  nextUuid := 1
  now := now + 1

theorem World.lookup_fresh {now : Time} {id : Uuid} {node : NodeRecord}
    (h : (World.fresh now).nodes.lookup id = some node) : id = 0 ∧ node = rootNode 0 now := by
  have hlookup := lookup_insert (∅ : Table Uuid NodeRecord) 0 id (rootNode 0 now)
  rw [show (∅ : Table Uuid NodeRecord).insert 0 (rootNode 0 now) = (World.fresh now).nodes from rfl, h] at hlookup
  split_ifs at hlookup with hid
  · cases hlookup
    exact ⟨hid, rfl⟩
  · cases hlookup

end Dcfs
