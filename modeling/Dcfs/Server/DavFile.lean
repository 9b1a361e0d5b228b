import Dcfs.Library.Routine
import Dcfs.Server.Data
import Dcfs.Server.Dav

namespace Dcfs

open Effects Machine

inductive SeekFrom
  | start (target : UInt64)
  | current (offset : ℤ)
  | fromEnd (offset : ℤ)

-- `u64::saturating_add_signed`.
def saturatingAddSigned (n : ℕ) (offset : ℤ) : ℕ := (max 0 (min (n + offset) (2 ^ 64 - 1))).toNat

namespace Dav

structure Meta where
  len : ℕ
  isDir : Bool
  modified : Time
  deriving DecidableEq

def Meta.ofNode (node : NodeRecord) : Meta where
  len := node.length
  isDir := node.kind == .directory
  modified := max node.mtime 0

structure File where
  nodeId : Uuid
  pos : ℕ
  deriving DecidableEq

abbrev FileOp (α : Type) := Routine Api File (Fault FsError) α

variable {α : Type}

-- Whatever the byte API reports is a general failure here.
def data (request : ReadRequest α) : FileOp α := fun file =>
  request.run.bind fun result => .done (result.mapError (Fault.map fun _ => .generalFailure), file)

def getNode (id : Uuid) : FileOp NodeRecord := fun file =>
  (ask (.query (.getNode id)) >>= repo).run.bind fun result => .done (result.mapError .error, file)

def self : FileOp File := Routine.update fun file => (file, file)

def moveTo (pos : ℕ) : FileOp Unit := Routine.update fun file => ((), { file with pos := pos })

namespace File

variable (cfg : Config)

def metadata : FileOp Meta := do
  let file ← self
  let node ← getNode file.nodeId
  pure (.ofNode node)

def writeBytes (buf : Bytes) : FileOp Unit := do
  let file ← self
  let written ← data (Dcfs.writeBytes cfg file.nodeId file.pos buf)
  moveTo (addU64 file.pos written)

def writeBuf (buf : List Bytes) : FileOp Unit := writeBytes cfg buf.flatten

def readBytes (count : ℕ) : FileOp Bytes := do
  let file ← self
  let (bytes, _) ← data (Dcfs.readBytes cfg file.nodeId (some file.pos) (some count))
  moveTo (addU64 file.pos bytes.length)
  pure bytes

def seek (target : SeekFrom) : FileOp ℕ := do
  let file ← self
  let pos ← match target with
    | .start target => pure target.toNat
    | .current offset => pure (saturatingAddSigned file.pos offset)
    | .fromEnd offset => do
      let node ← getNode file.nodeId
      pure (saturatingAddSigned node.length offset)
  moveTo pos
  pure pos

def flush : FileOp Unit := do
  let file ← self
  data (commitNode cfg file.nodeId)

end File

def openedFile (path : DavPath) (options : OpenOptions) : Op File := do
  let node ← openFile path options
  pure { nodeId := node.id, pos := 0 }

end Dav

end Dcfs
