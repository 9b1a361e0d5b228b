import Dcfs.Library.Pool
import Dcfs.State.Reachable

/-! Requests and sweeps at work on one server at the same time, call by call. -/

namespace Dcfs

open Effects Tables World

inductive Traffic
  | readBytes (nodeId : Uuid) (offset size : Option ℕ)
  | writeBytes (nodeId : Uuid) (offset : ℕ) (body : Bytes)
  | commitNode (nodeId : Uuid)
  | stageVersion (nodeId : Uuid)
  | uploadChunk (versionId : Uuid) (req : UploadChunkRequest) (body : Bytes)
  | commitVersion (versionId : Uuid) (req : CommitVersionRequest)
  | collectOnce (retention : ℕ)

namespace Traffic

def program (cfg : Config) : Traffic → Program Api Unit
  | .readBytes nodeId offset size => (Dcfs.readBytes cfg nodeId offset size).run >>= fun _ => pure ()
  | .writeBytes nodeId offset body => (Dcfs.writeBytes cfg nodeId offset body).run >>= fun _ => pure ()
  | .commitNode nodeId => (Dcfs.commitNode cfg nodeId).run >>= fun _ => pure ()
  | .stageVersion nodeId => (Dcfs.stageVersion cfg nodeId).run >>= fun _ => pure ()
  | .uploadChunk versionId req body => (Dcfs.uploadChunk cfg versionId req body).run >>= fun _ => pure ()
  | .commitVersion versionId req => (Dcfs.commitVersion versionId req).run >>= fun _ => pure ()
  | .collectOnce retention => (Dcfs.collectOnce retention).run >>= fun _ => pure ()

def isWrite : Traffic → Bool
  | .writeBytes _ _ _ => true
  | _ => false

def isUpload : Traffic → Bool
  | .uploadChunk _ _ _ => true
  | _ => false

def isSweep : Traffic → Bool
  | .collectOnce _ => true
  | _ => false

end Traffic

/--
What a request remembers: the objects its sweep still has to collect, the node of each version it
has met, and the versions it has found open and goes on to attach chunks to.
-/
structure Memo where
  request : Traffic
  picked : List Uuid
  owners : List (Uuid × Uuid)
  writing : List Uuid
  closing : Bool

namespace Memo

def start (request : Traffic) : Memo := ⟨request, [], [], [], false⟩

def meet (m : Memo) (versionId nodeId : Uuid) : Memo := { m with owners := (versionId, nodeId) :: m.owners }

def mark (m : Memo) (versionId : Uuid) (found : Bool) : Memo :=
  if found then { m with writing := versionId :: m.writing } else m

def note : (c : Call) → c.Reply → Memo → Memo
  | .query (.collectableObjects _ _), .ok ids, m => { m with picked := ids }
  | .query (.getVersion versionId), .ok version, m =>
    (m.meet versionId version.nodeId).mark versionId (m.request.isUpload && version.state == .staging)
  | .query (.findOpenStagingVersion nodeId), .ok version, m =>
    (m.meet version.id nodeId).mark version.id (m.request.isWrite && !m.closing)
  | .createStagingVersion nodeId _ _, .ok version, m =>
    (m.meet version.id nodeId).mark version.id m.request.isWrite
  | .attachChunk _, _, m => if m.request.isUpload then { m with writing := [] } else m
  | .touchStagingVersion _ _, _, m => { m with writing := [], closing := true }
  | .delete objectId, .error (.retained _), m => { m with picked := m.picked.erase objectId }
  | .delete objectId, .error (.backend _), m => { m with picked := m.picked.erase objectId }
  | .delete objectId, .error (.alreadyExists _), m => { m with picked := m.picked.erase objectId }
  | .forgetObject objectId, _, m => { m with picked := m.picked.erase objectId }
  | _, _, m => m

def Admits : Call → Memo → Prop
  | .commitVersion guard _ _, m => (guard.versionId, guard.nodeId) ∈ m.owners ∧ m.writing = []
  | .attachChunk row, m => row.versionId ∈ m.writing
  | .copyChunkRange _ toVersion _ _, m => toVersion ∈ m.writing
  | .query (.collectableObjects _ _), m => m.request.isSweep = true
  | .delete objectId, m => objectId ∈ m.picked
  | .forgetObject objectId, m => objectId ∈ m.picked
  | .purgeEmptyDeadVersions _, m => m.request.isSweep = true
  | .createNode _ _ _ _ _ _ _, _ => False
  | .createSymlink _ _ _ _ _ _, _ => False
  | .deleteNode _, _ => False
  | .renameNode _ _ _, _ => False
  | .publishNode _ _ _, _ => False
  | _, _ => True

end Memo

def ready : Call → World → Bool
  | .lockNode nodeId, w => !w.nodeLocks.contains nodeId
  | _, _ => true

def server (cfg : Config) (faults : Faults) : Service Api World Memo where
  handle := handle cfg faults
  ready := ready
  note := Memo.note

abbrev Traffics := Pool Api World Memo

end Dcfs
