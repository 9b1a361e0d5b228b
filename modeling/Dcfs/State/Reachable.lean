import Dcfs.File.Requests
import Dcfs.File.Upload
import Dcfs.State.Sweep

namespace Dcfs

open Effects Machine Tables World Exec

variable {cfg : Config} {faults : Faults} {w : World}

inductive Operation
  | createNode (req : CreateNodeRequest)
  | deleteNode (id : Uuid)
  | patchNode (id : Uuid) (req : PatchNodeRequest)
  | davTruncate (node : NodeRecord)
  | renameNode (id newParentId : Uuid) (newName : Bytes)
  | publishNode (id newParentId : Uuid) (newName : Bytes)
  | writeBytes (nodeId : Uuid) (offset : ℕ) (body : Bytes)
  | commitNode (nodeId : Uuid)
  | stageVersion (nodeId : Uuid)
  | uploadChunk (versionId : Uuid) (req : UploadChunkRequest) (body : Bytes)
  | commitVersion (versionId : Uuid) (req : CommitVersionRequest)
  | collectOnce (retention : ℕ)
  | wait (time : ℕ)

namespace World

def pass (w : World) (time : ℕ) : World := { w with now := w.now + time }

def after (cfg : Config) (faults : Faults) (w : World) : Operation → World
  | .createNode req => (exec cfg faults (Dcfs.createNode req) w).2
  | .deleteNode id => (exec cfg faults (Dcfs.deleteNode id) w).2
  | .patchNode id req => (exec cfg faults (Dcfs.patchNode id req) w).2
  | .davTruncate node => (exec cfg faults (Dcfs.davTruncate node) w).2
  | .renameNode id newParentId newName => (exec cfg faults (Dcfs.renameNode id newParentId newName) w).2
  | .publishNode id newParentId newName => (exec cfg faults (Dcfs.publishNode id newParentId newName) w).2
  | .writeBytes nodeId offset body => (exec cfg faults (Dcfs.writeBytes cfg nodeId offset body) w).2
  | .commitNode nodeId => (exec cfg faults (Dcfs.commitNode cfg nodeId) w).2
  | .stageVersion nodeId => (exec cfg faults (Dcfs.stageVersion cfg nodeId) w).2
  | .uploadChunk versionId req body => (exec cfg faults (Dcfs.uploadChunk cfg versionId req body) w).2
  | .commitVersion versionId req => (exec cfg faults (Dcfs.commitVersion versionId req) w).2
  | .collectOnce retention => (exec cfg faults (Dcfs.collectOnce retention) w).2
  | .wait time => w.pass time

end World

/-- Requests and sweeps run one at a time from a fresh namespace; object deletions may fail. -/
inductive Reachable (cfg : Config) : World → Prop
  | fresh (now : Time) : Reachable cfg (World.fresh now)
  | step {w : World} (faults : Faults) (op : Operation) : Reachable cfg w → Reachable cfg (w.after cfg faults op)

theorem Sound.relocked (hw : Sound cfg w) (locks : List Uuid) : Sound cfg { w with nodeLocks := locks } :=
  ⟨hw.consistent.relocked locks, hw.sweeping⟩

theorem withNodeLock_keeps {α : Type} {body : Request α} (h : Keeps cfg faults (Sound cfg) body) (n : Uuid) :
    Keeps cfg faults (Sound cfg) (Request.withNodeLock n body) := by
  intro w hw
  rw [exec_withNodeLock]
  exact (h _ (hw.relocked _)).relocked _

theorem writeBytes_keeps (n : Uuid) (offset : ℕ) (body : Bytes) :
    Keeps cfg faults (Sound cfg) (writeBytes cfg n offset body) := by
  unfold writeBytes
  split_ifs
  · exact .ok 0
  · exact withNodeLock_keeps (writeLocked_keeps faults offset body) n

theorem commitNode_keeps (n : Uuid) : Keeps cfg faults (Sound cfg) (commitNode cfg n) :=
  (Keeps.query _).bind fun _ => (Keeps.repo _).bind fun _ =>
    (withNodeLock_keeps (commitWorkingVersion_keeps faults) n).bind fun _ => .ok ()

theorem stageVersion_keeps (n : Uuid) : Keeps cfg faults (Sound cfg) (stageVersion cfg n) := by
  intro w hw
  cases hnode : w.nodes.lookup n with
  | none =>
    rw [exec_stageVersion_missing faults hnode]
    exact hw
  | some node =>
    rw [exec_stageVersion faults hw.consistent hnode]
    exact ⟨staged_consistent hw.consistent hnode, hw.sweeping⟩

theorem uploadChunk_keeps (v : Uuid) (req : UploadChunkRequest) (body : Bytes) :
    Keeps cfg faults (Sound cfg) (uploadChunk cfg v req body) := by
  intro w hw
  obtain ⟨ht, hgrown, -⟩ := uploadChunk_grown faults hw.consistent v req body rfl
  exact ⟨ht, hgrown.sweeping.trans hw.sweeping⟩

theorem commitVersion_keeps (v : Uuid) (req : CommitVersionRequest) :
    Keeps cfg faults (Sound cfg) (commitVersion v req) := by
  intro w hw
  rcases exec_commitVersion faults hw.consistent v req with ⟨e, hexec⟩ | ⟨version, node, response, h, hexec⟩
  · rw [hexec]
    exact hw
  · rw [hexec]
    exact ⟨hw.consistent.switch (inI64_asI64 _) _ h.lookup_node h.lookup_version rfl, hw.sweeping⟩

theorem collectOnce_keeps (retention : ℕ) : Keeps cfg faults (Sound cfg) (collectOnce retention) := by
  intro w hw
  obtain ⟨report, mid, taken, hexec, hswept, -⟩ := exec_collectOnce cfg faults hw.sweeping retention
  rw [hexec]
  have hmid := tidied_consistent (w.now - retention) (hswept.consistent hw.consistent)
  exact ⟨hmid.of_nodes rfl rfl rfl rfl le_rfl hmid.node (fun h hc => ⟨_, h, hc⟩), rfl⟩

theorem pass_consistent (hw : Consistent cfg w) (time : ℕ) : Consistent cfg (w.pass time) :=
  hw.of_nodes rfl rfl rfl rfl (le_add_of_nonneg_right (Int.natCast_nonneg time)) hw.node
    (fun h hc => ⟨_, h, hc⟩)

theorem after_sound (hw : Sound cfg w) (op : Operation) : Sound cfg (w.after cfg faults op) := by
  cases op with
  | createNode req => exact createNode_keeps cfg faults req w hw
  | deleteNode id => exact deleteNode_keeps cfg faults id w hw
  | patchNode id req => exact patchNode_keeps cfg faults id req w hw
  | davTruncate node => exact davTruncate_keeps cfg faults node w hw
  | renameNode id parent name => exact renameNode_keeps cfg faults id parent name w hw
  | publishNode id parent name => exact publishNode_keeps cfg faults id parent name w hw
  | writeBytes n offset body => exact writeBytes_keeps n offset body w hw
  | commitNode n => exact commitNode_keeps n w hw
  | stageVersion n => exact stageVersion_keeps n w hw
  | uploadChunk v req body => exact uploadChunk_keeps v req body w hw
  | commitVersion v req => exact commitVersion_keeps v req w hw
  | collectOnce retention => exact collectOnce_keeps retention w hw
  | wait time => exact ⟨pass_consistent hw.consistent time, hw.sweeping⟩

theorem fresh_sound (now : Time) : Sound cfg (World.fresh now) := by
  have hnone : ∀ {id : Uuid} {node : NodeRecord}, (World.fresh now).nodes.lookup id = some node →
      id = 0 ∧ node = rootNode 0 now := by
    intro id node h
    exact World.lookup_fresh h
  refine ⟨⟨?_, ?_, ?_, ?_, ?_, ?_, ?_, ?_⟩, rfl⟩
  · rintro id version ⟨⟩
  · rintro id version id' version' ⟨⟩
  · rintro id version ⟨⟩
  · rintro id rows ⟨⟩
  · rintro v v' row row' ⟨⟩
  · rintro id stored ⟨⟩
  · intro id node h
    obtain ⟨rfl, rfl⟩ := hnone h
    exact ⟨rfl, inI64_zero⟩
  · intro id node current h hc
    obtain ⟨rfl, rfl⟩ := hnone h
    cases hc

theorem Reachable.sound (h : Reachable cfg w) : Sound cfg w := by
  induction h with
  | fresh now => exact fresh_sound now
  | step faults op _ ih => exact after_sound ih op

end Dcfs
