import Dcfs.Library.Machine
import Dcfs.Library.Program
import Dcfs.Metadata.Records

namespace Dcfs

open Effects Machine Tables

inductive Backend
  | memory | postgres
  deriving DecidableEq

abbrev Answer (α : Type) := Except RepositoryError α

def foreignKeyViolation : RepositoryError := .database "violates foreign key constraint"

namespace World

variable (w : World)

def getNode (id : Uuid) : Answer NodeRecord :=
  match w.nodes.lookup id with
  | some node => .ok node
  | none => .error .notFound

def getRoot (backend : Backend) : Answer NodeRecord :=
  -- `ROOT_SELECT` takes any live row without a parent.
  match backend with
  | .memory => w.getNode w.rootId
  | .postgres =>
    match (values w.nodes).find? (fun n => n.parentId.isNone) with
    | some node => .ok node
    | none => .error .notFound

def childrenOf (parentId : Uuid) : List NodeRecord :=
  (values w.nodes).filter (fun n => n.parentId == some parentId)

def listed (backend : Backend) (parentId : Uuid) : List NodeRecord :=
  match backend with
  | .memory => w.childrenOf parentId
  | .postgres => (w.childrenOf parentId).insertionSort (fun a b => ¬ b.name < a.name)

def listChildren (backend : Backend) (parentId : Uuid) (limit offset : ℕ) : Answer (List NodeRecord) :=
  .ok (((w.listed backend parentId).drop offset).take limit)

def namedChild (parentId : Uuid) (name : Bytes) : Option NodeRecord :=
  (w.childrenOf parentId).find? (fun n => n.name == name)

def findChild (parentId : Uuid) (name : Bytes) : Answer NodeRecord :=
  match w.namedChild parentId name with
  | some node => .ok node
  | none => .error .notFound

def hasRow (id : Uuid) : Bool := (w.nodes.lookup id).isSome || (w.deletedNodes.lookup id).isSome

def newNode (id parentId : Uuid) (name : Bytes) (kind : NodeKind) (mode uid gid size : ℤ)
    (linkTarget : Option Bytes) : NodeRecord where
  id := id
  parentId := some parentId
  name := name
  kind := kind
  mode := mode
  uid := uid
  gid := gid
  size := size
  atime := w.now
  mtime := w.now
  ctime := w.now
  currentVersionId := none
  generation := 0
  linkTarget := linkTarget

def insertNode (node : NodeRecord) : Answer NodeRecord × World :=
  (.ok node, { w.tick with nodes := w.nodes.insert node.id node })

def insertNodeRow (parentId : Uuid) (node : NodeRecord) : Answer NodeRecord × World :=
  -- `INSERT INTO nodes`, with the primary key, the live-name index and the parent's foreign key.
  if w.hasRow node.id || (w.namedChild parentId node.name).isSome then (.error .alreadyExists, w)
  else if !w.hasRow parentId then (.error foreignKeyViolation, w)
  else w.insertNode node

def createNode (backend : Backend) (id parentId : Uuid) (name : Bytes) (kind : NodeKind)
    (mode uid gid : ℤ) : Answer NodeRecord × World :=
  let node := w.newNode id parentId name kind mode uid gid 0 none
  match backend with
  | .memory =>
    if (w.nodes.lookup id).isSome then (.error .alreadyExists, w) else w.insertNode node
  | .postgres => w.insertNodeRow parentId node

def createSymlink (backend : Backend) (id parentId : Uuid) (name target : Bytes) (uid gid : ℤ) :
    Answer NodeRecord × World :=
  let node := w.newNode id parentId name .symlink 0o120777 uid gid (asI64 target.length) (some target)
  match backend with
  | .memory =>
    if (w.nodes.lookup id).isSome then (.error .alreadyExists, w)
    else if (w.namedChild parentId name).isSome then (.error .alreadyExists, w)
    else w.insertNode node
  | .postgres => w.insertNodeRow parentId node

def dropNode (backend : Backend) (id : Uuid) : World :=
  match backend, w.nodes.lookup id with
  | .postgres, some node =>
    { w.tick with
      nodes := w.nodes.erase id
      deletedNodes := w.deletedNodes.insert id (node, w.now) }
  | _, _ => { w with nodes := w.nodes.erase id }

def deleteNode (backend : Backend) (id : Uuid) : Answer Unit × World :=
  match w.nodes.lookup id with
  | some _ => (.ok (), w.dropNode backend id)
  | none => (.error .notFound, w)

def moveNode (id newParentId : Uuid) (newName : Bytes) : World :=
  { w.tick with
    nodes := modify id (fun n => { n with parentId := some newParentId, name := newName, ctime := w.now })
      w.nodes }

def renameNode (backend : Backend) (id newParentId : Uuid) (newName : Bytes) : Answer Unit × World :=
  let victim := (w.childrenOf newParentId).find? (fun n => n.id != id && n.name == newName)
  let blocked : Bool := match victim with
    | some v => v.kind == .directory && !(w.childrenOf v.id).isEmpty
    | none => false
  let cleared := match victim with
    | some v => w.dropNode backend v.id
    | none => w
  match backend with
  | .memory =>
    if (w.nodes.lookup id).isNone then (.error .notFound, w)
    else if blocked then (.error .directoryNotEmpty, w)
    else (.ok (), cleared.moveNode id newParentId newName)
  | .postgres =>
    if blocked then (.error .directoryNotEmpty, w)
    else if (w.nodes.lookup id).isNone then (.error .notFound, w)
    else if !w.hasRow newParentId then (.error foreignKeyViolation, w)
    else (.ok (), cleared.moveNode id newParentId newName)

def publishNode (backend : Backend) (id newParentId : Uuid) (newName : Bytes) : Answer Unit × World :=
  if (w.nodes.lookup id).isNone then (.error .notFound, w)
  else if (w.childrenOf newParentId).any (fun n => n.id != id && n.name == newName) then
    (.error .alreadyExists, w)
  else if backend == .postgres && !w.hasRow newParentId then (.error foreignKeyViolation, w)
  else (.ok (), w.moveNode id newParentId newName)

def updateNodeAttr (id : Uuid) (mode uid gid size : Option ℤ) (mtime atime : Option Time) :
    Answer NodeRecord × World :=
  match w.nodes.lookup id with
  | none => (.error .notFound, w)
  | some node =>
    let updated := { node with
      mode := mode.getD node.mode
      uid := uid.getD node.uid
      gid := gid.getD node.gid
      size := size.getD node.size
      mtime := mtime.getD node.mtime
      atime := atime.getD node.atime
      ctime := w.now }
    (.ok updated, { w.tick with nodes := w.nodes.insert id updated })

end World

structure Database where
  world : World
  returned : List (Answer NodeRecord)

inductive Statement
  | selectRoot
  | newUuid
  | insertRoot (id : Uuid)
  | done (result : Answer NodeRecord)

abbrev Statement.Reply : Statement → Type
  | .selectRoot => Option NodeRecord
  | .newUuid => Uuid
  | .insertRoot _ => Unit
  | .done _ => Unit

abbrev Sql : Interface := ⟨Statement, Statement.Reply⟩

def ensureRoot : Program Sql (Answer NodeRecord) := do
  match ← Program.ask (I := Sql) .selectRoot with
  | some row => pure (.ok row)
  | none =>
    let id ← Program.ask (I := Sql) .newUuid
    Program.ask (I := Sql) (.insertRoot id)
    match ← Program.ask (I := Sql) .selectRoot with
    | some row => pure (.ok row)
    | none => pure (.error .notFound)

def starter : Program Sql Unit := do
  let result ← ensureRoot
  Program.ask (I := Sql) (.done result)

namespace World

def roots (w : World) : List NodeRecord := (values w.nodes).filter (fun n => n.parentId.isNone)

def insertRoot (w : World) (id : Uuid) : World :=
  -- `INSERT … ON CONFLICT DO NOTHING`. The index on live names does not take two `NULL` parents for equal, so only
  -- the primary key can conflict.
  if w.hasRow id then w else { w.tick with nodes := w.nodes.insert id (rootNode id w.now) }

end World

def execute (arrange : List NodeRecord → List NodeRecord) : (s : Statement) → Database → s.Reply × Database
  -- `LIMIT 1` takes the first row in the order the rows happen to come in.
  | .selectRoot, d => ((arrange d.world.roots).head?, d)
  | .newUuid, d => (d.world.nextUuid, { d with world := d.world.nextId })
  | .insertRoot id, d => ((), { d with world := d.world.insertRoot id })
  | .done result, d => ((), { d with returned := result :: d.returned })

def emptyDatabase (now : Time) : Database where
  world := { World.fresh now with nodes := ∅, nextUuid := 0 }
  returned := []

end Dcfs
