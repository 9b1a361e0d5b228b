import Dcfs.Server.Request

namespace Dcfs

open Effects Machine Request

inductive NodeNameError
  | containsNul | containsSlash | empty
  deriving DecidableEq

def NodeNameError.text : NodeNameError → String
  | .containsNul => "filename contains NUL byte"
  | .containsSlash => "filename contains slash"
  | .empty => "filename is empty"

def toName (bytes : Bytes) : Except NodeNameError Bytes :=
  -- `NodeName::new`.
  if bytes.isEmpty then .error .empty
  else if bytes.contains 0x00 then .error .containsNul
  else if bytes.contains 0x2f then .error .containsSlash
  else .ok bytes

theorem toName_eq {name checked : Bytes} (h : toName name = .ok checked) : checked = name := by
  unfold toName at h
  split_ifs at h
  exact (Except.ok.inj h).symm

def checkName (bytes : Bytes) : Request Bytes :=
  match toName bytes with
  | .ok name => pure name
  | .error e => throw (.badRequest ("invalid name: " ++ e.text))

structure CreateNodeRequest where
  parentId : Uuid
  name : Bytes
  kind : NodeKind
  mode : ℕ
  uid : ℕ
  gid : ℕ
  linkTarget : Option Bytes
  idempotencyKey : Uuid

structure PatchNodeRequest where
  mode : Option ℕ
  uid : Option ℕ
  gid : Option ℕ
  size : Option ℕ
  mtime : Option Time
  atime : Option Time

def NodeKind.text : NodeKind → String
  | .directory => "directory"
  | .file => "file"
  | .symlink => "symlink"

def getNode (id : Uuid) : Request NodeRecord := do repo (← ask (.query (.getNode id)))

structure ListChildrenResponse where
  children : List NodeRecord
  hasMore : Bool

def listChildren (parentId : Uuid) (limit offset : Option ℕ) : Request ListChildrenResponse := do
  let limit := limit.getD 100
  let children ← repo (← ask (.query (.listChildren parentId limit (offset.getD 0))))
  pure { children := children, hasMore := children.length == limit }

def createNode (req : CreateNodeRequest) : Request NodeRecord := do
  let name ← checkName req.name
  match req.kind, req.linkTarget with
  | .symlink, none => throw (.badRequest "a symlink needs link_target")
  | .symlink, some target =>
    if target.isEmpty then throw (.badRequest "a symlink target cannot be empty")
    repo (← ask (.createSymlink req.idempotencyKey req.parentId name target (asI32 req.uid)
      (asI32 req.gid)))
  | _, some _ => throw (.badRequest "link_target is only valid when kind is Symlink")
  | kind, none =>
    repo (← ask (.createNode req.idempotencyKey req.parentId name kind (asI32 req.mode)
      (asI32 req.uid) (asI32 req.gid)))

def deleteNode (id : Uuid) : Request Unit := do
  let node ← repo (← ask (.query (.getNode id)))
  if node.kind = .directory then
    let children ← repo (← ask (.query (.listChildren id 1 0)))
    if !children.isEmpty then throw .ofDirectoryNotEmpty
    if node.parentId.isNone then throw (.badRequest "cannot delete the root directory")
  repo (← ask (.deleteNode id))

def patchNode (id : Uuid) (req : PatchNodeRequest) : Request NodeRecord := do
  repo (← ask (.updateNodeAttr id (req.mode.map (fun m => asI32 m)) (req.uid.map (fun u => asI32 u))
    (req.gid.map (fun g => asI32 g)) (req.size.map (fun s => asI64 s)) req.mtime req.atime))

def renameNode (id newParentId : Uuid) (newName : Bytes) : Request NodeRecord := do
  let name ← checkName newName
  let source ← repo (← ask (.query (.getNode id)))
  let children ← repo (← ask (.query (.listChildren newParentId 1000 0)))
  match children.find? (fun c => c.name == name) with
  | some target =>
    if target.id ≠ id ∧ target.kind ≠ source.kind then
      throw (.badRequest ("cannot rename a " ++ source.kind.text ++ " onto a " ++ target.kind.text))
  | none => pure ()
  repo (← ask (.renameNode id newParentId name))
  repo (← ask (.query (.getNode id)))

def publishNode (id newParentId : Uuid) (newName : Bytes) : Request NodeRecord := do
  let name ← checkName newName
  repo (← ask (.publishNode id newParentId name))
  repo (← ask (.query (.getNode id)))

def descend (node : NodeRecord) : List Bytes → Request NodeRecord
  | [] => pure node
  | segment :: rest =>
    if segment.isEmpty then descend node rest
    else do
      let children ← repo (← ask (.query (.listChildren node.id 1000 0)))
      match children.find? (fun c => c.name == segment) with
      | some child => descend child rest
      | none => throw (.ofNotFound "path not found")

def resolvePath (path : Bytes) : Request NodeRecord :=
  -- The path is the bytes of a string; slashes at its start are dropped.
  let path := path.dropWhile (· == 0x2f)
  if path.isEmpty then do repo (← ask (.query .getRoot))
  else do
    let root ← repo (← ask (.query .getRoot))
    descend root (path.splitOn 0x2f)

def davTruncate (node : NodeRecord) : Request NodeRecord := do
  -- `DcfsFs::open` with `truncate`, once the path has been resolved to the node.
  repo (← ask (.updateNodeAttr node.id none none none (some 0) none none))

end Dcfs
