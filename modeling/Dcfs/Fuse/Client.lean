import Dcfs.Library.Routine
import Dcfs.Server.Nodes

/-!
What a mount calls: the server, and on its own disk the log of unsent writes and the cache of blocks.
Each call is atomic.
-/

namespace Dcfs.Fuse

open Effects

structure NodeResponse where
  id : Uuid
  parentId : Option Uuid
  name : Bytes
  kind : NodeKind
  mode : ℕ
  uid : ℕ
  gid : ℕ
  size : ℕ
  atime : Time
  mtime : Time
  ctime : Time
  currentVersionId : Option Uuid
  generation : ℕ
  linkTarget : Option Bytes
  deriving DecidableEq

inductive ClientError
  | notFound | alreadyExists | invalidName
  | conflict (detail : String)
  | directoryNotEmpty | unauthorized | backendUnavailable
  | invalidRequest (detail : String)
  | http (detail : String)
  | io (detail : String)
  deriving DecidableEq

structure Key where
  nodeId : Uuid
  versionId : Uuid
  index : ℕ
  deriving DecidableEq

abbrev Path := ℕ

structure PendingRun where
  nodeId : Uuid
  offset : ℕ
  data : Bytes
  deriving DecidableEq

inductive ClientCall
  | getNode (nodeId : Uuid)
  | findChild (parentId : Uuid) (name : Bytes)
  | listChildren (parentId : Uuid) (limit offset : ℕ)
  | createNode (req : CreateNodeRequest)
  | patchNode (nodeId : Uuid) (req : PatchNodeRequest)
  | renameNode (nodeId newParentId : Uuid) (newName : Bytes)
  | deleteNode (nodeId : Uuid)
  | readFile (nodeId : Uuid) (offset size : ℕ)
  | readFileCacheable (nodeId : Uuid) (offset size : ℕ)
  | writeFile (nodeId : Uuid) (offset : ℕ) (data : Bytes)
  | syncFile (nodeId : Uuid)
  | newUuid
  | beginRun (nodeId : Uuid) (offset : ℕ) (data : Bytes)
  | extendRun (path : Path) (data : Bytes)
  | finishRun (path : Path)
  | takePending
  | resetLog
  | loadBlock (key : Key)
  | storeBlock (key : Key) (bytes : Bytes)
  | invalidateBlocks (nodeId : Uuid)

abbrev Served (α : Type) := Except ClientError α

abbrev ClientCall.Reply : ClientCall → Type
  | .getNode _ => Served NodeResponse
  | .findChild _ _ => Served NodeResponse
  | .listChildren _ _ _ => Served (List NodeResponse)
  | .createNode _ => Served NodeResponse
  | .patchNode _ _ => Served NodeResponse
  | .renameNode _ _ _ => Served NodeResponse
  | .deleteNode _ => Served Unit
  | .readFile _ _ _ => Served Bytes
  | .readFileCacheable _ _ _ => Served (Bytes × Bool)
  | .writeFile _ _ _ => Served ℕ
  | .syncFile _ => Served Unit
  | .newUuid => Uuid
  | .beginRun _ _ _ => Option Path
  | .extendRun _ _ => Bool
  | .finishRun _ => Unit
  | .takePending => Except String (List PendingRun)
  | .resetLog => Except String Unit
  | .loadBlock _ => Option Bytes
  | .storeBlock _ _ => Unit
  | .invalidateBlocks _ => Unit

abbrev Client : Interface := ⟨ClientCall, ClientCall.Reply⟩

end Dcfs.Fuse
