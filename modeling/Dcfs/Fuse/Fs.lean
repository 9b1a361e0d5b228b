import Dcfs.Fuse.Client

/-! The filesystem of one mount: inodes, buffered writes and the calls they lead to. -/

namespace Dcfs.Fuse

open Effects Tables

def rootIno : ℕ := 1
def page : ℕ := 1000
def writeBufferBytes : ℕ := 4 * 1024 * 1024
def blockSize : ℕ := 1024 * 1024

def blocksOf (offset size : ℕ) : List ℕ :=
  if size = 0 then []
  else List.range' (offset / blockSize) ((offset + size - 1) / blockSize - offset / blockSize + 1)

/--
How the mount was made. `drained` is the order in which the pending runs are taken out of their hash
map, `answered` the one in which parallel fetches come back.
-/
structure Setup where
  chunkSize : ℕ
  chunkSize_pos : 0 < chunkSize
  hasLog : Bool
  hasCache : Bool
  drained : List ℕ → List ℕ
  drained_perm : ∀ inos, (drained inos).Perm inos
  answered : List ℕ → List ℕ
  answered_perm : ∀ slots, (answered slots).Perm slots

structure PendingWrite where
  offset : ℕ
  data : Bytes
  logPath : Option Path
  deriving DecidableEq

structure Mount where
  byIno : Table ℕ Uuid
  byId : Table Uuid ℕ
  seen : Table ℕ (Option Uuid × ℕ)
  highWater : Table ℕ ℕ
  next : ℕ
  pending : Table ℕ PendingWrite

def Mount.fresh (rootId : Uuid) : Mount where
  -- `mount_with`, once the root is known.
  byIno := AList.insert rootIno rootId ∅
  byId := AList.insert rootId rootIno ∅
  seen := ∅
  highWater := ∅
  next := rootIno + 1
  pending := ∅

structure Attr where
  ino : ℕ
  size : ℕ
  kind : NodeKind
  mode : ℕ
  uid : ℕ
  gid : ℕ
  atime : Time
  mtime : Time
  ctime : Time
  deriving DecidableEq

structure DirEntry where
  ino : ℕ
  kind : NodeKind
  name : Bytes
  deriving DecidableEq

namespace Mount

variable (m : Mount)

def bind (ino : ℕ) (id : Uuid) : Mount :=
  { m with byIno := m.byIno.insert ino id, byId := m.byId.insert id ino }

def inoFor (id : Uuid) : ℕ × Mount :=
  match m.byId.lookup id with
  | some ino => (ino, m)
  | none => (m.next, { m.bind m.next id with next := m.next + 1 })

def remember (ino : ℕ) (node : NodeResponse) : Mount :=
  { m with seen := m.seen.insert ino (node.currentVersionId, node.size) }

def attrOf (node : NodeResponse) : Attr × Mount :=
  let (ino, m) := m.inoFor node.id
  let m := m.remember ino node
  ({ ino := ino
     size := max node.size ((m.highWater.lookup ino).getD 0)
     kind := node.kind
     mode := node.mode
     uid := node.uid
     gid := node.gid
     atime := node.atime
     mtime := node.mtime
     ctime := node.ctime }, m)

def reach (ino stop : ℕ) : Mount :=
  { m with highWater := m.highWater.insert ino (max ((m.highWater.lookup ino).getD 0) stop) }

def setPending (ino : ℕ) (run : PendingWrite) : Mount := { m with pending := m.pending.insert ino run }

def dropPending (ino : ℕ) : Mount := { m with pending := m.pending.erase ino }

def truncated (ino size : ℕ) : Mount := { m with highWater := m.highWater.insert ino size }

def unbind (ino : ℕ) (id : Uuid) : Mount :=
  { m with
    byIno := m.byIno.erase ino
    byId := m.byId.erase id
    seen := m.seen.erase ino
    highWater := m.highWater.erase ino }

end Mount

abbrev Fs (α : Type) := Routine Client Mount ClientError α

namespace Fs

variable {α : Type}

def ask (c : ClientCall) : Fs c.Reply := Routine.ask (I := Client) c

def served : Served α → Fs α
  | .ok a => pure a
  | .error e => Routine.fail e

def look : Fs Mount := Routine.update fun m => (m, m)

def change (f : Mount → Mount) : Fs Unit := Routine.update fun m => ((), f m)

end Fs

open Fs

def idFor (ino : ℕ) : Fs Uuid := do
  match (← look).byIno.lookup ino with
  | some id => pure id
  | none => Routine.fail .notFound

def attrOf (node : NodeResponse) : Fs Attr := Routine.update fun m => m.attrOf node

def inoFor (id : Uuid) : Fs ℕ := Routine.update fun m => m.inoFor id

section

variable (setup : Setup)

def invalidate (nodeId : Uuid) : Fs Unit :=
  if setup.hasCache then ask (.invalidateBlocks nodeId) else pure ()

def finish (run : PendingWrite) : Fs Unit :=
  match setup.hasLog, run.logPath with
  | true, some path => ask (.finishRun path)
  | _, _ => pure ()

def send (nodeId : Uuid) (run : PendingWrite) : Fs Unit := do
  let _ ← served (← ask (.writeFile nodeId run.offset run.data))
  finish setup run

def beginRecord (nodeId : Uuid) (offset : ℕ) (data : Bytes) : Fs (Option Path) :=
  if setup.hasLog then ask (.beginRun nodeId offset data) else pure none

def startRun (nodeId : Uuid) (offset : ℕ) (data : Bytes) : Fs PendingWrite := do
  let logPath ← beginRecord setup nodeId offset data
  pure { offset := offset, data := data, logPath := logPath }

def sendDrained (ino : ℕ) (run : PendingWrite) : Fs Unit := do
  let nodeId ← idFor ino
  send setup nodeId run
  invalidate setup nodeId

def flush (ino : ℕ) : Fs Unit := do
  match (← look).pending.lookup ino with
  | some run => do
    change (·.dropPending ino)
    sendDrained setup ino run
  | none => pure ()

def sendAll : List (ℕ × PendingWrite) → Fs Unit
  | [] => pure ()
  | (ino, run) :: rest => do
    sendDrained setup ino run
    sendAll rest

def Mount.drain (m : Mount) : List (ℕ × PendingWrite) :=
  (setup.drained (m.pending.entries.map Sigma.fst)).filterMap fun ino =>
    (m.pending.lookup ino).map fun run => (ino, run)

def flushAll : Fs Unit := do
  let drained := (← look).drain setup
  change fun m => { m with pending := ∅ }
  sendAll setup drained

def stat (ino : ℕ) : Fs Attr := do
  let node ← served (← ask (.getNode (← idFor ino)))
  attrOf node

def getattr (ino : ℕ) : Fs Attr := do
  flush setup ino
  stat ino

def findName (parentIno : ℕ) (name : Bytes) : Fs Attr := do
  let parentId ← idFor parentIno
  let child ← served (← ask (.findChild parentId name))
  attrOf child

def lookup (parentIno : ℕ) (name : Bytes) : Fs Attr := do
  flushAll setup
  findName parentIno name

def childrenFrom (parentId : Uuid) : ℕ → ℕ → Fs (List NodeResponse)
  -- The pages of a listing. The offset is a `u32`, which bounds their number.
  | 0, _ => Routine.fail (.io "offset out of range")
  | pages + 1, offset => do
    let children ← served (← ask (.listChildren parentId page offset))
    if children.length < page then return children
    let rest ← childrenFrom parentId pages (offset + page)
    return children ++ rest

def childrenOf (parentId : Uuid) : Fs (List NodeResponse) := childrenFrom parentId (2 ^ 32 / page + 1) 0

def entriesOf : List NodeResponse → Fs (List DirEntry)
  | [] => pure []
  | child :: rest => do
    let ino ← inoFor child.id
    let entries ← entriesOf rest
    pure ({ ino := ino, kind := child.kind, name := child.name } :: entries)

def parentInoOf (ino : ℕ) : Option Uuid → Fs ℕ
  | some parentId => inoFor parentId
  | none => pure ino

def readdirRest (ino : ℕ) : Fs (List DirEntry) := do
  let id ← idFor ino
  let node ← served (← ask (.getNode id))
  if node.kind ≠ .directory then Routine.fail (.invalidRequest "not a directory")
  else do
    let parentIno ← parentInoOf ino node.parentId
    let entries ← entriesOf (← childrenOf id)
    pure ({ ino := ino, kind := .directory, name := [0x2e] }
      :: { ino := parentIno, kind := .directory, name := [0x2e, 0x2e] } :: entries)

def readdir (ino : ℕ) : Fs (List DirEntry) := do
  flushAll setup
  readdirRest ino

end

end Dcfs.Fuse
