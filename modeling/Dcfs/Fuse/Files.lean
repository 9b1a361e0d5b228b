import Dcfs.Fuse.Fs

namespace Dcfs.Fuse

open Effects Fs Tables

section

variable (setup : Setup)

-- `size.min(file_size.saturating_sub(offset))`.
def expectedBytes (size fileSize offset : ℕ) : ℕ := min size (fileSize - offset)

def shortReadError (offset expected got fileSize : ℕ) : ClientError :=
  .io ("short read at offset " ++ toString offset ++ ": expected " ++ toString expected
    ++ " bytes before EOF at " ++ toString fileSize ++ ", got " ++ toString got)

def readExactly (nodeId : Uuid) (offset expected fileSize : ℕ) : Fs Bytes := do
  let out ← served (← ask (.readFile nodeId offset expected))
  if out.length < expected then Routine.fail (shortReadError offset expected out.length fileSize)
  else pure out

def loadBlocks (nodeId versionId : Uuid) : List ℕ → Fs (List (ℕ × Option Bytes))
  | [] => pure []
  | index :: rest => do
    let block ← ask (.loadBlock ⟨nodeId, versionId, index⟩)
    let blocks ← loadBlocks nodeId versionId rest
    pure ((index, block) :: blocks)

def fetchBlocks (nodeId : Uuid) : List ℕ → Fs (List (ℕ × Served (Bytes × Bool)))
  -- Every fetch is made, whatever the others are answered.
  | [] => pure []
  | index :: rest => do
    let answer ← ask (.readFileCacheable nodeId (index * blockSize) blockSize)
    let answers ← fetchBlocks nodeId rest
    pure ((index, answer) :: answers)

def keepBlock (key : Key) (fetched : Bytes × Bool) : Fs Unit :=
  if fetched.2 then ask (.storeBlock key fetched.1) else pure ()

def keepBlocks (nodeId versionId : Uuid) : List (ℕ × Served (Bytes × Bool)) → Fs (List (ℕ × Bytes))
  -- The first failure ends the read.
  | [] => pure []
  | (index, answer) :: rest => do
    let fetched ← served answer
    keepBlock ⟨nodeId, versionId, index⟩ fetched
    let blocks ← keepBlocks nodeId versionId rest
    pure ((index, fetched.1) :: blocks)

def blockWindow (offset size index : ℕ) (block : Bytes) : Bytes :=
  let blockStart := index * blockSize
  let start := min (offset - blockStart) block.length
  let stop := min (offset + size - blockStart) block.length
  (block.take stop).drop start

def blockAt (loaded : List (ℕ × Option Bytes)) (fetched : List (ℕ × Bytes)) (index : ℕ) : Bytes :=
  match (loaded.lookup index).join with
  | some block => block
  | none => (fetched.lookup index).getD []

def readBlocks (nodeId versionId : Uuid) (offset size : ℕ) : Fs Bytes := do
  -- `BlockCache::read`.
  if size = 0 then return []
  let first := offset / blockSize
  let last := (offset + size - 1) / blockSize
  let indices := List.range' first (last - first + 1)
  let loaded ← loadBlocks nodeId versionId indices
  let misses := indices.filter fun index => (loaded.lookup index).join.isNone
  let answers ← fetchBlocks nodeId (setup.answered misses)
  let fetched ← keepBlocks nodeId versionId answers
  return indices.flatMap fun index => blockWindow offset size index (blockAt loaded fetched index)

def readMeta (ino : ℕ) (nodeId : Uuid) : Fs (Option Uuid × ℕ) := do
  let m ← look
  match m.highWater.lookup ino, m.seen.lookup ino with
  | none, some remembered => pure remembered
  | _, _ => do
    let node ← served (← ask (.getNode nodeId))
    change (·.remember ino node)
    pure (node.currentVersionId, node.size)

def readRest (ino offset size : ℕ) : Fs Bytes := do
  let nodeId ← idFor ino
  let (versionId, fileSize) ← readMeta ino nodeId
  let expected := expectedBytes size fileSize offset
  if expected = 0 then return []
  match setup.hasCache, versionId with
  | true, some versionId => do
    let out ← readBlocks setup nodeId versionId offset expected
    if out.length < expected then do
      invalidate setup nodeId
      readExactly nodeId offset expected fileSize
    else pure out
  | _, _ => readExactly nodeId offset expected fileSize

def read (ino offset size : ℕ) : Fs Bytes := do
  flush setup ino
  readRest setup ino offset size

def extend (run : PendingWrite) (data : Bytes) : Fs Unit :=
  match setup.hasLog, run.logPath with
  | true, some path => do
    let _ ← ask (.extendRun path data)
    pure ()
  | _, _ => pure ()

def buffer (ino : ℕ) (nodeId : Uuid) (offset : ℕ) (data : Bytes) : Fs PendingWrite := do
  match (← look).pending.lookup ino with
  | some run =>
    if run.offset + run.data.length = offset then do
      extend setup run data
      let run := { run with data := run.data ++ data }
      change (·.setPending ino run)
      pure run
    else do
      change (·.dropPending ino)
      send setup nodeId run
      let run ← startRun setup nodeId offset data
      change (·.setPending ino run)
      pure run
  | none => do
    let run ← startRun setup nodeId offset data
    change (·.setPending ino run)
    pure run

def isDue (run : PendingWrite) : Bool :=
  (run.offset + run.data.length) % setup.chunkSize == 0
    || decide (max setup.chunkSize writeBufferBytes * 2 ≤ run.data.length)

def sendDue (ino : ℕ) (nodeId : Uuid) (run : PendingWrite) : Fs Unit :=
  if isDue setup run then do
    change (·.dropPending ino)
    send setup nodeId run
  else pure ()

def write (ino offset : ℕ) (data : Bytes) : Fs ℕ := do
  let nodeId ← idFor ino
  change (·.reach ino (offset + data.length))
  let run ← buffer setup ino nodeId offset data
  sendDue setup ino nodeId run
  invalidate setup nodeId
  pure data.length

def truncate (ino : ℕ) : Option ℕ → Fs Unit
  | some size => change (·.truncated ino size)
  | none => pure ()

def patch (ino : ℕ) (req : PatchNodeRequest) : Fs Attr := do
  truncate ino req.size
  let id ← idFor ino
  invalidate setup id
  let node ← served (← ask (.patchNode id req))
  attrOf node

def setattr (ino : ℕ) (req : PatchNodeRequest) : Fs Attr := do
  flush setup ino
  patch setup ino req

def sync (ino : ℕ) : Fs Unit := do served (← ask (.syncFile (← idFor ino)))

def fsync (ino : ℕ) : Fs Unit := do
  flush setup ino
  sync ino

def create (parentIno : ℕ) (name : Bytes) (kind : NodeKind) (mode uid gid : ℕ) : Fs Attr := do
  let parentId ← idFor parentIno
  match toName name with
  | .error _ => Routine.fail .invalidName
  | .ok name => do
    let key ← ask .newUuid
    let node ← served (← ask (.createNode ⟨parentId, name, kind, mode, uid, gid, none, key⟩))
    attrOf node

def symlink (parentIno : ℕ) (name target : Bytes) (uid gid : ℕ) : Fs Attr := do
  let parentId ← idFor parentIno
  match toName name with
  | .error _ => Routine.fail .invalidName
  | .ok name =>
    if target.isEmpty then Routine.fail (.invalidRequest "empty symlink target")
    else do
      let key ← ask .newUuid
      let node ← served (← ask (.createNode ⟨parentId, name, .symlink, 0o120777, uid, gid, some target, key⟩))
      attrOf node

def readlink (ino : ℕ) : Fs Bytes := do
  let node ← served (← ask (.getNode (← idFor ino)))
  match node.linkTarget with
  | some target => pure target
  | none => Routine.fail (.invalidRequest "not a symlink")

def discard (ino : ℕ) : Fs Unit := do
  match (← look).pending.lookup ino with
  | some run => do
    change (·.dropPending ino)
    finish setup run
  | none => pure ()

def remove (parentIno : ℕ) (name : Bytes) : Fs Unit := do
  let target ← lookup setup parentIno name
  discard setup target.ino
  let id ← idFor target.ino
  served (← ask (.deleteNode id))
  invalidate setup id
  change (·.unbind target.ino id)

def forgetReplaced (ino : ℕ) : Fs Unit := do
  discard setup ino
  match (← look).byIno.lookup ino with
  | some id => do
    invalidate setup id
    change (·.unbind ino id)
  | none => pure ()

def replacing (ino : ℕ) : Served Attr → Fs Unit
  | .ok replaced => if replaced.ino ≠ ino then forgetReplaced setup replaced.ino else pure ()
  | .error _ => pure ()

def rename (parentIno : ℕ) (name : Bytes) (newParentIno : ℕ) (newName : Bytes) : Fs Unit := do
  let target ← lookup setup parentIno name
  let id ← idFor target.ino
  let newParentId ← idFor newParentIno
  let found ← Routine.attempt (lookup setup newParentIno newName)
  replacing setup target.ino found
  match toName newName with
  | .error _ => Routine.fail .invalidName
  | .ok newName => do
    let _ ← served (← ask (.renameNode id newParentId newName))
    pure ()

def replay : List PendingRun → Fs ℕ
  | [] => pure 0
  | run :: rest => do
    let answer ← ask (.writeFile run.nodeId run.offset run.data)
    let replayed ← replay rest
    match answer with
    | .ok _ => pure (replayed + 1)
    | .error _ => pure replayed

def logged {α : Type} : Except String α → Fs α
  | .ok a => pure a
  | .error e => Routine.fail (.io e)

def recover : Fs ℕ := do
  if !setup.hasLog then return 0
  let runs ← logged (← ask .takePending)
  if runs.isEmpty then return 0
  let replayed ← replay runs
  logged (← ask .resetLog)
  return replayed

end

end Dcfs.Fuse
