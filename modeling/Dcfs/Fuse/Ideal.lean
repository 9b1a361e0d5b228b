import Dcfs.Fuse.BlockCache
import Dcfs.Fuse.Session
import Dcfs.Library.Sparse

/-!
A server that one mount has to itself: a table of names and the bytes of each file. Versions, times and
whether an answer may be cached are left open.
-/

namespace Dcfs.Fuse

open Effects Tables Sparse Fs

structure Entry where
  parentId : Option Uuid
  name : Bytes
  kind : NodeKind
  mode : ℕ
  uid : ℕ
  gid : ℕ
  linkTarget : Option Bytes

structure Ideal where
  nodes : Table Uuid Entry
  contents : Uuid → Bytes
  nextUuid : Uuid
  cache : BlockCache

def NodeResponse.entry (node : NodeResponse) : Entry :=
  ⟨node.parentId, node.name, node.kind, node.mode, node.uid, node.gid, node.linkTarget⟩

def Entry.patched (entry : Entry) (req : PatchNodeRequest) : Entry :=
  { entry with mode := req.mode.getD entry.mode, uid := req.uid.getD entry.uid, gid := req.gid.getD entry.gid }

def Entry.moved (entry : Entry) (newParentId : Uuid) (newName : Bytes) : Entry :=
  { entry with parentId := some newParentId, name := newName }

def resize : Option ℕ → Bytes → Bytes
  | some n, bytes => bytes.take n ++ List.replicate (n - bytes.length) 0
  | none, bytes => bytes

namespace Ideal

variable (s : Ideal)

def childIds (parentId : Uuid) : List Uuid :=
  (s.nodes.entries.filter fun e => e.2.parentId == some parentId).map Sigma.fst

def child (parentId : Uuid) (name : Bytes) : Option Uuid :=
  (s.nodes.entries.find? fun e => e.2.parentId == some parentId && e.2.name == name).map Sigma.fst

def put (nodeId : Uuid) (bytes : Bytes) : Ideal := { s with contents := Function.update s.contents nodeId bytes }

def created (req : CreateNodeRequest) : Ideal :=
  { s with
    nodes := s.nodes.insert req.idempotencyKey
      ⟨some req.parentId, req.name, req.kind, req.mode, req.uid, req.gid, req.linkTarget⟩
    contents := Function.update s.contents req.idempotencyKey [] }

def patched (nodeId : Uuid) (entry : Entry) (req : PatchNodeRequest) : Ideal :=
  { s with
    nodes := s.nodes.insert nodeId (entry.patched req)
    contents := Function.update s.contents nodeId (resize req.size (s.contents nodeId)) }

def vacated (nodeId newParentId : Uuid) (newName : Bytes) : Table Uuid Entry :=
  match s.child newParentId newName with
  | some replaced => if replaced = nodeId then s.nodes else s.nodes.erase replaced
  | none => s.nodes

def renamed (nodeId : Uuid) (entry : Entry) (newParentId : Uuid) (newName : Bytes) : Ideal :=
  { s with
    nodes := (s.vacated nodeId newParentId newName).insert nodeId (entry.moved newParentId newName) }

def slice (nodeId : Uuid) (offset size : ℕ) : Bytes := ((s.contents nodeId).drop offset).take size

def Has (nodeId : Uuid) : Prop := ∃ entry, s.nodes.lookup nodeId = some entry

def Describes (node : NodeResponse) : Prop :=
  s.nodes.lookup node.id = some node.entry ∧ node.size = (s.contents node.id).length

def Accepts : ClientCall → Prop
  | .getNode nodeId => s.Has nodeId
  | .findChild parentId _ => s.Has parentId
  | .listChildren parentId _ _ => s.Has parentId
  | .createNode req =>
    s.Has req.parentId ∧ s.child req.parentId req.name = none ∧ s.nodes.lookup req.idempotencyKey = none
  | .patchNode nodeId _ => s.Has nodeId
  | .renameNode nodeId newParentId newName => s.Has nodeId ∧ s.Has newParentId
    ∧ ∀ replaced, s.child newParentId newName = some replaced → replaced ≠ nodeId → s.childIds replaced = []
  | .deleteNode nodeId => s.Has nodeId ∧ s.childIds nodeId = []
  | .readFile nodeId _ _ => s.Has nodeId
  | .readFileCacheable nodeId _ _ => s.Has nodeId
  | .writeFile nodeId _ _ => ∃ entry, s.nodes.lookup nodeId = some entry ∧ entry.kind = .file
  | .syncFile nodeId => s.Has nodeId
  | _ => True

def Answers : (c : ClientCall) → c.Reply → Ideal → Prop
  | .getNode nodeId, .ok node, t => node.id = nodeId ∧ s.Describes node ∧ t = s
  | .findChild parentId name, .ok node, t => s.child parentId name = some node.id ∧ s.Describes node ∧ t = s
  | .findChild parentId name, .error e, t => s.child parentId name = none ∧ e = .notFound ∧ t = s
  | .listChildren parentId limit offset, .ok nodes, t =>
    nodes.map NodeResponse.id = ((s.childIds parentId).drop offset).take limit ∧ (∀ node ∈ nodes, s.Describes node)
      ∧ t = s
  | .createNode req, .ok node, t => node.id = req.idempotencyKey ∧ t.Describes node ∧ t = s.created req
  | .patchNode nodeId req, .ok node, t => node.id = nodeId ∧ t.Describes node
    ∧ ∃ entry, s.nodes.lookup nodeId = some entry ∧ t = s.patched nodeId entry req
  | .renameNode nodeId newParentId newName, .ok _, t =>
    ∃ entry, s.nodes.lookup nodeId = some entry ∧ t = s.renamed nodeId entry newParentId newName
  | .deleteNode nodeId, .ok _, t => t = { s with nodes := s.nodes.erase nodeId }
  | .readFile nodeId offset size, .ok bytes, t => bytes = s.slice nodeId offset size ∧ t = s
  | .readFileCacheable nodeId offset size, .ok answer, t => answer.1 = s.slice nodeId offset size ∧ t = s
  | .writeFile nodeId offset data, .ok _, t => t = s.put nodeId (overlay (s.contents nodeId) offset data)
  | .syncFile _, .ok _, t => t = s
  | .newUuid, r, t => r = s.nextUuid ∧ t = { s with nextUuid := s.nextUuid + 1 }
  | .beginRun _ _ _, _, t => t = s
  | .extendRun _ _, _, t => t = s
  | .finishRun _, _, t => t = s
  | .loadBlock key, r, t => r = (s.cache.load key).1 ∧ t = { s with cache := (s.cache.load key).2 }
  | .storeBlock key data, _, t => t = { s with cache := s.cache.store key data } ∨ t = s
  | .invalidateBlocks nodeId, _, t => t = { s with cache := s.cache.invalidate nodeId }
  | _, _, _ => False

theorem put_self (nodeId : Uuid) (bytes : Bytes) : (s.put nodeId bytes).contents nodeId = bytes :=
  Function.update_self ..

theorem put_of_ne {nodeId other : Uuid} (h : other ≠ nodeId) (bytes : Bytes) :
    (s.put nodeId bytes).contents other = s.contents other := Function.update_of_ne h ..

variable {s} {s₀ : Ideal} (h : s.nodes = s₀.nodes)

include h

theorem has_congr {nodeId : Uuid} : s.Has nodeId ↔ s₀.Has nodeId := by rw [Has, Has, h]

theorem child_congr (parentId : Uuid) (name : Bytes) : s.child parentId name = s₀.child parentId name := by
  rw [child, child, h]

theorem childIds_congr (parentId : Uuid) : s.childIds parentId = s₀.childIds parentId := by rw [childIds, childIds, h]

end Ideal

def ideal : Rules Client Ideal where
  admits c s := s.Accepts c
  outcome c s r t := s.Accepts c ∧ s.Answers c r t

namespace Direct

def write (ino offset : ℕ) (data : Bytes) : Fs ℕ := do
  let nodeId ← idFor ino
  let _ ← served (← ask (.writeFile nodeId offset data))
  pure data.length

def report (nodeId : Uuid) : Fs NodeResponse := do served (← ask (.getNode nodeId))

def read (ino offset size : ℕ) : Fs Bytes := do
  let nodeId ← idFor ino
  let node ← report nodeId
  let expected := expectedBytes size node.size offset
  if expected = 0 then pure [] else readExactly nodeId offset expected node.size

def setattr (ino : ℕ) (req : PatchNodeRequest) : Fs Attr := do
  let id ← idFor ino
  let node ← served (← ask (.patchNode id req))
  attrOf node

def remove (parentIno : ℕ) (name : Bytes) : Fs Unit := do
  let target ← findName parentIno name
  let id ← idFor target.ino
  served (← ask (.deleteNode id))
  change (·.unbind target.ino id)

def forgetReplaced (ino : ℕ) : Fs Unit := do
  match (← look).byIno.lookup ino with
  | some id => change (·.unbind ino id)
  | none => pure ()

def replacing (ino : ℕ) : Served Attr → Fs Unit
  | .ok replaced => if replaced.ino ≠ ino then forgetReplaced replaced.ino else pure ()
  | .error _ => pure ()

def rename (parentIno : ℕ) (name : Bytes) (newParentIno : ℕ) (newName : Bytes) : Fs Unit := do
  let target ← findName parentIno name
  let id ← idFor target.ino
  let newParentId ← idFor newParentIno
  let found ← Routine.attempt (findName newParentIno newName)
  replacing target.ino found
  match toName newName with
  | .error _ => Routine.fail .invalidName
  | .ok newName => do
    let _ ← served (← ask (.renameNode id newParentId newName))
    pure ()

end Direct

def Op.direct : Op → Fs Result
  | .write ino offset data => do pure (.count (← Direct.write ino offset data))
  | .read ino offset size => do pure (.bytes (← Direct.read ino offset size))
  | .getattr ino => do pure (.attr (← stat ino))
  | .lookup parentIno name => do pure (.attr (← findName parentIno name))
  | .readdir ino => do pure (.entries (← readdirRest ino))
  | .setattr ino req => do pure (.attr (← Direct.setattr ino req))
  | .flush _ => pure .done
  | .fsync ino => do
    sync ino
    pure .done
  | .create parentIno name kind mode uid gid => do
    pure (.attr (← Fuse.create parentIno name kind mode uid gid))
  | .remove parentIno name => do
    Direct.remove parentIno name
    pure .done
  | .rename parentIno name newParentIno newName => do
    Direct.rename parentIno name newParentIno newName
    pure .done

end Dcfs.Fuse
