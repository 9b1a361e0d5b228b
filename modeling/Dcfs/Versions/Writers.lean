import Dcfs.Library.Fallible
import Dcfs.Library.Optimistic
import Dcfs.Library.Pool
import Dcfs.Server.Nodes
import Dcfs.Versions.Nodes

/-! Clients that stage, upload and commit versions of one node through the versions API. -/

namespace Dcfs

open Effects Machine Tables Optimistic

inductive Sending
  | upload (req : UploadChunkRequest) (body : Bytes)
  | commit (totalSize : ℕ) (plaintextHash : String)

section

variable (cfg : Config)

def Sending.program (versionId : Uuid) (generation : ℕ) (observed : Option Uuid) : Sending → Program Api Unit
  | .upload req body => do
    let _ ← (uploadChunk cfg versionId req body).run
  | .commit totalSize plaintextHash => do
    let _ ← (commitVersion versionId
      { totalSize := totalSize
        plaintextHash := plaintextHash
        expectedGeneration := generation
        expectedCurrentVersion := observed }).run

def sendAll (versionId : Uuid) (generation : ℕ) (observed : Option Uuid) : List Sending → Program Api Unit
  | [] => pure ()
  | sending :: rest => do
    sending.program cfg versionId generation observed
    sendAll versionId generation observed rest

/-- A client observes the current version, stages its own, and uploads and commits as it likes. -/
def writer (n : Uuid) (sendings : List Sending) : Program Api Unit := do
  match ← (getNode n).run with
  | .error _ => pure ()
  | .ok node =>
    match ← (stageVersion cfg n).run with
    | .error _ => pure ()
    | .ok staged => sendAll cfg staged.versionId staged.generation node.currentVersionId sendings

end

inductive Slip
  | started
  | observed (current : Option Uuid)
  | read (current : Option Uuid) (generation : ℤ)
  | holding (ticket : Ticket Uuid) (owner : Option Uuid)

namespace Slip

def note : (c : Call) → c.Reply → Slip → Slip
  | .query (.getNode _), .ok node, .started => .observed node.currentVersionId
  | .query (.getNode _), .ok node, .observed current => .read current node.generation
  | .createStagingVersion _ _ _, .ok version, .read current generation =>
    .holding ⟨version.id, generation, current⟩ none
  | .query (.getVersion _), .ok version, .holding ticket _ => .holding ticket (some version.nodeId)
  | _, _, slip => slip

def Admits (n : Uuid) : Call → Slip → Prop
  | .query (.getNode m), _ => m = n
  | .query (.getVersion v), .holding ticket _ => v = ticket.version
  | .query (.getVersion _), _ => False
  | .query _, _ => True
  | .createStagingVersion m _ _, .read _ _ => m = n
  | .commitVersion guard _ _, .holding ticket (some owner) =>
    guard = ⟨owner, ticket.version, asI64 (addU64 (asU64 ticket.read) 1), ticket.observed⟩
  | .newUuid, _ => True
  | .put _ _ _, _ => True
  | .attachChunk _, _ => True
  | _, _ => False

end Slip

structure Recorded where
  world : World
  history : List (Event Uuid)

def eventOf (n : Uuid) : (c : Call) → c.Reply → Option (Event Uuid)
  | .createStagingVersion m _ _, .ok version => if m = n then some (.staged version.id) else none
  | .commitVersion guard _ _, .ok _ =>
    if guard.nodeId = n then some (.committed guard.versionId guard.expectedCurrentVersion) else none
  | _, _ => none

def recorder (cfg : Config) (faults : Faults) (n : Uuid) : Service Api Recorded Slip where
  handle c s :=
    let answered := perform cfg faults s.world c
    (answered.1, ⟨answered.2, (eventOf n c answered.1).toList ++ s.history⟩)
  ready _ _ := true
  note := Slip.note

abbrev Writers := Pool Api Recorded Slip

/-- Clients come, any of them has its next call answered, and one may send again before it is answered. -/
inductive Writing (cfg : Config) (n : Uuid) (start : World) : Writers → Prop
  | start : Writing cfg n start ⟨⟨start, []⟩, []⟩
  | client {p : Writers} (sendings : List Sending) : Writing cfg n start p →
      Writing cfg n start (p.spawn (writer cfg n sendings) .started)
  | again {p : Writers} {thread : Thread Api Slip} {ticket : Ticket Uuid} {owner : Option Uuid}
      (sendings : List Sending) : Writing cfg n start p → thread ∈ p.threads →
      thread.notes = .holding ticket owner →
      Writing cfg n start (p.spawn (sendAll cfg ticket.version (addU64 (asU64 ticket.read) 1) ticket.observed
        sendings) (.holding ticket none))
  | step {p q : Writers} (faults : Faults) (i : ℕ) : Writing cfg n start p →
      p.advance (recorder cfg faults n) i = some q → Writing cfg n start q

end Dcfs
