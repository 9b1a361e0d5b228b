import Dcfs.Server.Request

namespace Dcfs

open Effects

inductive FsError
  | notFound | exists | forbidden | generalFailure
  deriving DecidableEq

def toFsError : RepositoryError → FsError
  | .notFound => .notFound
  | .alreadyExists => .exists
  | .directoryNotEmpty => .forbidden
  | _ => .generalFailure

/-- A path as `dav-server` hands it over. How it finds the last name and the parent is not modelled. -/
structure DavPath where
  asBytes : Bytes
  fileNameBytes : Bytes
  parent : Bytes

structure OpenOptions where
  truncate : Bool
  create : Bool
  createNew : Bool

namespace Dav

abbrev Op (α : Type) := ExceptT FsError (Program Api) α

variable {α : Type}

def ask (c : Call) : Op c.Reply := ExceptT.lift (Program.ask (I := Api) c)

def repo : Answer α → Op α
  | .ok a => pure a
  | .error e => throw (toFsError e)

def attempt (op : Op α) : Op (Except FsError α) := ExceptT.lift op.run

def walk (node : NodeRecord) : List Bytes → Op NodeRecord
  | [] => pure node
  | segment :: rest =>
    if segment.isEmpty then walk node rest
    else do
      let child ← repo (← ask (.query (.findChild node.id segment)))
      walk child rest

def resolve (path : Bytes) : Op NodeRecord := do
  let root ← repo (← ask (.query .getRoot))
  walk root (path.splitOn 0x2f)

def resolveParent (path : DavPath) : Op (NodeRecord × Bytes) :=
  let name := path.fileNameBytes
  if name.isEmpty then throw .forbidden
  else do
    let parent ← resolve path.parent
    pure (parent, name)

def make (path : DavPath) (kind : NodeKind) (mode : ℤ) : Op NodeRecord := do
  let (parent, name) ← resolveParent path
  let id ← ask .newUuid
  repo (← ask (.createNode id parent.id name kind mode 0 0))

def openFound (node : NodeRecord) (options : OpenOptions) : Op NodeRecord :=
  if options.createNew then throw .exists
  else if node.kind = .directory then throw .forbidden
  else if options.truncate then do
    let _ ← repo (← ask (.updateNodeAttr node.id none none none (some 0) none none))
    pure node
  else pure node

def openFile (path : DavPath) (options : OpenOptions) : Op NodeRecord := do
  match ← attempt (resolve path.asBytes) with
  | .ok node => openFound node options
  | .error .notFound =>
    if options.create || options.createNew then make path .file 0o100644 else throw .notFound
  | .error e => throw e

def createDir (path : DavPath) : Op Unit := do
  match ← attempt (resolve path.asBytes) with
  | .ok _ => throw .exists
  | .error _ =>
    let _ ← make path .directory 0o40755

def removeFile (path : DavPath) : Op Unit := do
  let node ← resolve path.asBytes
  if node.kind = .directory then throw .forbidden
  else repo (← ask (.deleteNode node.id))

def removeDir (path : DavPath) : Op Unit := do
  let node ← resolve path.asBytes
  if node.kind ≠ .directory then throw .forbidden
  else repo (← ask (.deleteNode node.id))

def rename (source target : DavPath) : Op Unit := do
  let node ← resolve source.asBytes
  let (parent, name) ← resolveParent target
  repo (← ask (.renameNode node.id parent.id name))

end Dav

end Dcfs
