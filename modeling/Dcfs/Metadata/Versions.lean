import Dcfs.Metadata.Nodes

namespace Dcfs

open Tables

namespace World

variable (w : World)

def getVersion (id : Uuid) : Answer FileVersionRecord :=
  match w.versions.lookup id with
  | some version => .ok version
  | none => .error .notFound

def newVersion (nodeId : Uuid) (baseVersionId : Option Uuid) (chunkSize : ℤ) : FileVersionRecord where
  id := w.nextUuid
  nodeId := nodeId
  baseVersionId := baseVersionId
  state := .staging
  size := 0
  plaintextHash := ""
  chunkSize := chunkSize
  createdAt := w.now
  committedAt := none

def addVersion (nodeId : Uuid) (node : NodeRecord) (version : FileVersionRecord) : World :=
  { w.tick with
    nodes := w.nodes.insert nodeId { node with generation := node.generation + 1 }
    versions := w.versions.insert w.nextUuid version
    chunks := w.chunks.insert w.nextUuid []
    nextUuid := w.nextUuid + 1 }

def createStagingVersion (backend : Backend) (nodeId : Uuid) (baseVersionId : Option Uuid)
    (chunkSize : ℤ) : Answer FileVersionRecord × World :=
  match w.nodes.lookup nodeId with
  | none => (.error .notFound, w)
  | some node =>
    if backend == .postgres && baseVersionId.any (fun base => (w.versions.lookup base).isNone) then
      (.error foreignKeyViolation, w)
    else
      let version := w.newVersion nodeId baseVersionId chunkSize
      (.ok version, w.addVersion nodeId node version)

def newest : List FileVersionRecord → Option FileVersionRecord
  | [] => none
  | version :: rest =>
    match newest rest with
    | some best => if version.createdAt ≤ best.createdAt then some best else some version
    | none => some version

def findOpenStagingVersion (nodeId : Uuid) : Answer FileVersionRecord :=
  match newest (w.stagingOf nodeId) with
  | some version => .ok version
  | none => .error .notFound

def touchStagingVersion (versionId : Uuid) (size : ℤ) : Answer Unit × World :=
  (.ok (), { w.tick with
    versions := modify versionId (fun v =>
      if v.state = .staging then { v with size := size, createdAt := w.now } else v) w.versions })

def committedSize (node : NodeRecord) : ℤ :=
  match node.currentVersionId.bind w.versions.lookup with
  | some version => version.size
  | none => 0

def reconciled (node : NodeRecord) : NodeRecord :=
  if node.kind = .file ∧ (w.stagingOf node.id).isEmpty then { node with size := w.committedSize node }
  else node

def reconcileNodeSizes : Answer ℕ × World :=
  let fixed := (values w.nodes ++ (values w.deletedNodes).map Prod.fst).countP
    (fun node => (w.reconciled node).size != node.size)
  (.ok fixed, { w with
    nodes := mapValues (fun _ node => w.reconciled node) w.nodes
    deletedNodes := mapValues (fun _ entry => (w.reconciled entry.1, entry.2)) w.deletedNodes })

def setRows (versionId : Uuid) (rows : List FileChunkRecord) : World :=
  { w with chunks := w.chunks.insert versionId rows }

def attachChunk (backend : Backend) (row : FileChunkRecord) : Answer Unit × World :=
  let attached := w.setRows row.versionId
    (Keyed.upsert FileChunkRecord.chunkIndex row (w.rowsOf row.versionId))
  match backend with
  | .memory =>
    if (w.chunks.lookup row.versionId).isSome then (.ok (), attached) else (.error .notFound, w)
  | .postgres =>
    if (w.versions.lookup row.versionId).isSome then (.ok (), attached)
    else (.error foreignKeyViolation, w)

def getChunks (backend : Backend) (versionId : Uuid) : Answer (List FileChunkRecord) :=
  let known := match backend with
    | .memory => (w.chunks.lookup versionId).isSome
    | .postgres => (w.versions.lookup versionId).isSome
  if known then .ok (w.rowsOf versionId) else .error .notFound

def rowsBetween (versionId : Uuid) (first last : ℤ) : List FileChunkRecord :=
  (w.rowsOf versionId).filter (fun c => first ≤ c.chunkIndex && c.chunkIndex ≤ last)

def getChunkRange (backend : Backend) (versionId : Uuid) (first last : ℤ) :
    Answer (List FileChunkRecord) :=
  match backend with
  | .memory =>
    if (w.chunks.lookup versionId).isSome then .ok (w.rowsBetween versionId first last)
    else .error .notFound
  | .postgres => .ok (w.rowsBetween versionId first last)

def forVersion (versionId : Uuid) (row : FileChunkRecord) : FileChunkRecord :=
  { row with versionId := versionId }

def carry (carried target : List FileChunkRecord) : List FileChunkRecord :=
  -- Rows already there win, as `ON CONFLICT DO NOTHING` and the failed binary search say.
  carried.foldl (fun rows row => Keyed.insertNew FileChunkRecord.chunkIndex row rows) target

def copyChunkRange (backend : Backend) (fromVersion toVersion : Uuid) (first last : ℤ) :
    Answer ℕ × World :=
  if last < first then (.ok 0, w)
  else
    let carried := (w.rowsBetween fromVersion first last).map (forVersion toVersion)
    let target := w.rowsOf toVersion
    if backend == .postgres && (w.versions.lookup toVersion).isNone then
      if carried.isEmpty then (.ok 0, w) else (.error foreignKeyViolation, w)
    else
      (.ok ((carry carried target).length - target.length),
        w.setRows toVersion (carry carried target))

def supersede (old : Option Uuid) (versions : Table Uuid FileVersionRecord) :
    Table Uuid FileVersionRecord :=
  match old with
  | some id =>
    modify id (fun v => if v.state = .committed then { v with state := .superseded } else v) versions
  | none => versions

def committed (version : FileVersionRecord) (totalSize : ℤ) (plaintextHash : String) :
    FileVersionRecord :=
  { version with
    state := .committed, size := totalSize, plaintextHash := plaintextHash, committedAt := some w.now }

def published (backend : Backend) (node : NodeRecord) (versionId : Uuid) (totalSize : ℤ) : NodeRecord :=
  -- PostgreSQL also stamps the node, the memory repository does not.
  { node with
    currentVersionId := some versionId, size := totalSize
    mtime := if backend = .postgres then w.now else node.mtime
    ctime := if backend = .postgres then w.now else node.ctime }

def switchTo (backend : Backend) (nodeId versionId : Uuid) (node : NodeRecord)
    (version : FileVersionRecord) : World :=
  { w.tick with
    versions := (supersede node.currentVersionId w.versions).insert versionId version
    nodes := w.nodes.insert nodeId (w.published backend node versionId version.size) }

def commitVersion (backend : Backend) (guard : CommitGuard) (totalSize : ℤ) (plaintextHash : String) :
    Answer FileVersionRecord × World :=
  match w.nodes.lookup guard.nodeId with
  | none => (.error .notFound, w)
  | some node =>
    if node.generation ≠ guard.expectedGeneration
        ∨ node.currentVersionId ≠ guard.expectedCurrentVersion then (.error .conflict, w)
    else match w.versions.lookup guard.versionId with
    | none => (.error .notFound, w)
    | some version =>
      if backend = .postgres ∧ version.state ≠ .staging then (.error .notFound, w)
      else
        let version := w.committed version totalSize plaintextHash
        (.ok version, w.switchTo backend guard.nodeId guard.versionId node version)

def isLive (olderThan : Time) (version : FileVersionRecord) : Bool :=
  (version.state == .staging && decide (olderThan ≤ version.createdAt)) || w.isCurrent version

def liveVersions (olderThan : Time) : List FileVersionRecord :=
  (values w.versions).filter (w.isLive olderThan)

def deadVersions (olderThan : Time) : List FileVersionRecord :=
  (values w.versions).filter (fun v => !w.isLive olderThan v && decide (v.lastActive < olderThan))

def objectsIn (versions : List FileVersionRecord) : List Uuid :=
  versions.flatMap (fun v => (w.rowsOf v.id).map FileChunkRecord.objectId)

def deadObjects (olderThan : Time) : List Uuid :=
  ((w.objectsIn (w.deadVersions olderThan)).filter
    (fun o => !(w.objectsIn (w.liveVersions olderThan)).contains o)).dedup

def referencedObjects : List Uuid :=
  (values w.chunks).flatMap (fun rows => rows.map FileChunkRecord.objectId)

def unreferencedObjects (olderThan : Time) : List Uuid :=
  (keep (fun o createdAt => decide (createdAt < olderThan) && !w.referencedObjects.contains o)
    w.storedObjects).keys

def collectable (backend : Backend) (olderThan : Time) : List Uuid :=
  match backend with
  | .memory => w.deadObjects olderThan
  | .postgres => w.deadObjects olderThan ++ w.unreferencedObjects olderThan

/--
Neither repository orders the answer: `arrange` is the order it happens to come in. The memory
repository looks at the limit once it has taken an object.
-/
def collectableObjects (backend : Backend) (arrange : List Uuid → List Uuid) (olderThan : Time)
    (limit : ℤ) : Answer (List Uuid) :=
  let candidates := arrange (w.collectable backend olderThan)
  match backend with
  | .memory => .ok (candidates.take (max 1 limit).toNat)
  | .postgres =>
    if limit < 0 then .error (.database "LIMIT must not be negative")
    else .ok (candidates.take limit.toNat)

def forgetObject (backend : Backend) (objectId : Uuid) : Answer ℕ × World :=
  (.ok (w.referencedObjects.count objectId), { w with
    chunks := mapValues (fun _ rows => rows.filter (fun c => c.objectId != objectId)) w.chunks
    storedObjects := match backend with
      | .memory => w.storedObjects
      | .postgres => w.storedObjects.erase objectId })

def isNamed (backend : Backend) (version : FileVersionRecord) : Bool :=
  -- PostgreSQL asks for any node that names the version, the memory repository for its own node.
  match backend with
  | .memory => w.isCurrent version
  | .postgres => (values w.nodes).any (fun n => n.currentVersionId == some version.id)

def isDoomed (backend : Backend) (olderThan : Time) (version : FileVersionRecord) : Bool :=
  decide (version.lastActive < olderThan) && !w.isNamed backend version && (w.rowsOf version.id).isEmpty

def doomedVersions (backend : Backend) (olderThan : Time) : List Uuid :=
  ((values w.versions).filter (w.isDoomed backend olderThan)).map FileVersionRecord.id

def unlinked (backend : Backend) (doomed : List Uuid) (version : FileVersionRecord) : FileVersionRecord :=
  -- PostgreSQL clears the references to purged versions, the memory repository leaves them.
  match backend with
  | .memory => version
  | .postgres =>
    if version.baseVersionId.any doomed.contains then { version with baseVersionId := none } else version

def purgeEmptyDeadVersions (backend : Backend) (olderThan : Time) : Answer ℕ × World :=
  let doomed := w.doomedVersions backend olderThan
  (.ok doomed.length, { w with
    versions := mapValues (fun _ v => unlinked backend doomed v)
      (keep (fun id _ => !doomed.contains id) w.versions)
    chunks := keep (fun id _ => !doomed.contains id) w.chunks })

def purgeDeletedNodes (backend : Backend) (olderThan : Time) : Answer ℕ × World :=
  match backend with
  | .memory => (.ok 0, w)
  | .postgres =>
    let remaining := keep (fun id entry =>
      !(decide (entry.2 < olderThan)
        && (values w.versions).all (fun v => v.nodeId != id)
        && (values w.nodes).all (fun n => n.parentId != some id)
        && (values w.deletedNodes).all (fun e => e.1.parentId != some id))) w.deletedNodes
    (.ok ((values w.deletedNodes).length - (values remaining).length),
      { w with deletedNodes := remaining })

def purgeExpiredSessions (olderThan : Time) : Answer ℕ × World :=
  let remaining := keep (fun _ entry => decide (olderThan ≤ entry.1.expiresAt)) w.sessions
  (.ok ((values w.sessions).length - (values remaining).length), { w with sessions := remaining })

end World

end Dcfs
