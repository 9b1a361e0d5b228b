import Dcfs.Names.Calls
import Dcfs.Server.Exec

namespace Dcfs

open Effects Tables

namespace World

variable (w : World)

def createSession (backend : Backend) (id : Uuid) (tokenHash label : String) (expiresAt : Time) :
    Answer SessionRecord × World :=
  let record : SessionRecord := ⟨id, label, w.now, expiresAt⟩
  let inserted : World := { w.tick with sessions := w.sessions.insert tokenHash (record, false) }
  match backend with
  | .memory => (.ok record, inserted)
  | .postgres =>
    if (w.sessions.lookup tokenHash).isSome || (values w.sessions).any (fun entry => entry.1.id == id) then
      (.error .alreadyExists, w)
    else (.ok record, inserted)

def findSession (tokenHash : String) : Answer SessionRecord :=
  match w.sessions.lookup tokenHash with
  | none => .error .notFound
  | some (record, revoked) =>
    if revoked || decide (record.expiresAt ≤ w.now) then .error .notFound else .ok record

def revokeSession (id : Uuid) : Answer Bool × World :=
  match w.sessions.entries.find? (fun entry => entry.2.1.id == id && !entry.2.2) with
  | some entry => (.ok true, { w with sessions := modify entry.1 (fun row => (row.1, true)) w.sessions })
  | none => (.ok false, w)

end World

namespace Sessions

structure Wanes (w u : World) : Prop where
  rows : ∀ key row, u.sessions.lookup key = some row →
    ∃ old, w.sessions.lookup key = some old ∧ old.1 = row.1 ∧ (old.2 = true → row.2 = true)
  now : w.now ≤ u.now
  nextUuid : w.nextUuid ≤ u.nextUuid

namespace Wanes

variable {w t u : World}

theorem of_same (hsessions : u.sessions = w.sessions) (hnow : w.now ≤ u.now)
    (hnext : w.nextUuid ≤ u.nextUuid) : Wanes w u where
  rows key row h := by
    rw [hsessions] at h
    exact ⟨row, h, rfl, id⟩
  now := hnow
  nextUuid := hnext

theorem refl (w : World) : Wanes w w := of_same rfl le_rfl le_rfl

theorem trans (h : Wanes w t) (h' : Wanes t u) : Wanes w u where
  rows key row hrow := by
    obtain ⟨mid, hmid, hsame, hrevoked⟩ := h'.rows key row hrow
    obtain ⟨old, hold, hsame', hrevoked'⟩ := h.rows key mid hmid
    exact ⟨old, hold, hsame'.trans hsame, fun hr => hrevoked (hrevoked' hr)⟩
  now := h.now.trans h'.now
  nextUuid := h.nextUuid.trans h'.nextUuid

theorem pass (w : World) (time : ℕ) : Wanes w { w with now := w.now + time } := by
  refine of_same rfl ?_ le_rfl
  simp

theorem tick (w : World) : Wanes w w.tick := pass w 1

theorem nextId (w : World) : Wanes w w.nextId := of_same rfl le_rfl (Nat.le_succ _)

end Wanes

variable {w : World}

theorem insertNode_wanes (node : NodeRecord) : Wanes w (w.insertNode node).2 :=
  (Wanes.tick w).trans (.of_same rfl le_rfl le_rfl)

theorem dropNode_wanes (backend : Backend) (id : Uuid) : Wanes w (w.dropNode backend id) := by
  unfold World.dropNode
  split
  · exact (Wanes.tick w).trans (.of_same rfl le_rfl le_rfl)
  · exact .of_same rfl le_rfl le_rfl

theorem moveNode_wanes (id newParentId : Uuid) (newName : Bytes) : Wanes w (w.moveNode id newParentId newName) :=
  (Wanes.tick w).trans (.of_same rfl le_rfl le_rfl)

theorem named_wanes (backend : Backend) (call : NameCall) : Wanes w (w.named backend call) := by
  have heffect := named_effect w backend call
  generalize w.named backend call = u at heffect ⊢
  cases heffect with
  | refused => apply Wanes.refl
  | created => apply insertNode_wanes
  | linked => apply insertNode_wanes
  | deleted => apply dropNode_wanes
  | renamed => apply moveNode_wanes
  | replaced => exact (dropNode_wanes _ _).trans (moveNode_wanes _ _ _)
  | published => apply moveNode_wanes

theorem purgeExpiredSessions_wanes (olderThan : Time) : Wanes w (w.purgeExpiredSessions olderThan).2 where
  rows key row h := by
    simp only [World.purgeExpiredSessions, lookup_keep, Option.filter_eq_some_iff] at h
    exact ⟨row, h.1, rfl, id⟩
  now := le_rfl
  nextUuid := le_rfl

theorem createStagingVersion_wanes (backend : Backend) (nodeId : Uuid) (base : Option Uuid) (chunkSize : ℤ) :
    Wanes w (w.createStagingVersion backend nodeId base chunkSize).2 := by
  unfold World.createStagingVersion
  split
  · apply Wanes.refl
  · split_ifs
    · apply Wanes.refl
    · exact (Wanes.tick w).trans (.of_same rfl le_rfl (Nat.le_succ _))

theorem updateNodeAttr_wanes (id : Uuid) (mode uid gid size : Option ℤ) (mtime atime : Option Time) :
    Wanes w (w.updateNodeAttr id mode uid gid size mtime atime).2 := by
  unfold World.updateNodeAttr
  split
  · apply Wanes.refl
  · exact (Wanes.tick w).trans (.of_same rfl le_rfl le_rfl)

theorem attachChunk_wanes (backend : Backend) (row : FileChunkRecord) : Wanes w (w.attachChunk backend row).2 := by
  unfold World.attachChunk
  cases backend with
  | memory =>
    dsimp only
    split_ifs
    · exact .of_same rfl le_rfl le_rfl
    · apply Wanes.refl
  | postgres =>
    dsimp only
    split_ifs
    · exact .of_same rfl le_rfl le_rfl
    · apply Wanes.refl

theorem copyChunkRange_wanes (backend : Backend) (fromVersion toVersion : Uuid) (first last : ℤ) :
    Wanes w (w.copyChunkRange backend fromVersion toVersion first last).2 := by
  simp only [World.copyChunkRange]
  split_ifs
  · apply Wanes.refl
  · apply Wanes.refl
  · apply Wanes.refl
  · exact .of_same rfl le_rfl le_rfl

theorem commitVersion_wanes (backend : Backend) (guard : CommitGuard) (totalSize : ℤ) (plaintextHash : String) :
    Wanes w (w.commitVersion backend guard totalSize plaintextHash).2 := by
  unfold World.commitVersion
  split
  · apply Wanes.refl
  · split_ifs
    · apply Wanes.refl
    · split
      · apply Wanes.refl
      · split_ifs
        · apply Wanes.refl
        · exact (Wanes.tick w).trans (.of_same rfl le_rfl le_rfl)

theorem delete_wanes (faults : Faults) (objectId : Uuid) : Wanes w (w.delete faults objectId).2 := by
  unfold World.delete
  split
  · apply Wanes.tick
  · split
    · apply Wanes.tick
    · exact (Wanes.tick w).trans (.of_same rfl le_rfl le_rfl)

theorem put_wanes (keepsLocators : Bool) (objectId : Uuid) (data : Bytes) (file : Uuid) :
    Wanes w (w.put keepsLocators objectId data file).2 := by
  unfold World.put
  split
  · apply Wanes.refl
  · exact (Wanes.tick w).trans (.of_same rfl le_rfl le_rfl)

variable (cfg : Config) (faults : Faults)

theorem perform_wanes (c : Call) : Wanes w (perform cfg faults w c).2 := by
  cases c with
  | query q => apply Wanes.refl
  | createNode id parentId name kind mode uid gid =>
    exact named_wanes cfg.backend (.createNode id parentId name kind mode uid gid)
  | createSymlink id parentId name target uid gid =>
    exact named_wanes cfg.backend (.createSymlink id parentId name target uid gid)
  | deleteNode id => exact named_wanes cfg.backend (.deleteNode id)
  | renameNode id newParentId newName =>
    exact named_wanes cfg.backend (.renameNode id newParentId newName)
  | publishNode id newParentId newName =>
    exact named_wanes cfg.backend (.publishNode id newParentId newName)
  | updateNodeAttr id mode uid gid size mtime atime => apply updateNodeAttr_wanes
  | createStagingVersion nodeId base chunkSize => apply createStagingVersion_wanes
  | touchStagingVersion versionId size => exact (Wanes.tick w).trans (.of_same rfl le_rfl le_rfl)
  | attachChunk row => apply attachChunk_wanes
  | copyChunkRange fromVersion toVersion first last => apply copyChunkRange_wanes
  | commitVersion guard totalSize plaintextHash => apply commitVersion_wanes
  | reconcileNodeSizes => exact .of_same rfl le_rfl le_rfl
  | forgetObject objectId => exact .of_same rfl le_rfl le_rfl
  | purgeEmptyDeadVersions olderThan => exact .of_same rfl le_rfl le_rfl
  | purgeDeletedNodes olderThan =>
    simp only [perform, World.purgeDeletedNodes]
    split
    · apply Wanes.refl
    · exact .of_same rfl le_rfl le_rfl
  | purgeExpiredSessions olderThan => apply purgeExpiredSessions_wanes
  | newUuid => apply Wanes.nextId
  | put objectId data file => apply put_wanes
  | delete objectId => apply delete_wanes
  | utcNow => apply Wanes.tick
  | lockNode nodeId => exact .of_same rfl le_rfl le_rfl
  | unlockNode nodeId => exact .of_same rfl le_rfl le_rfl
  | tryLockGc =>
    simp only [perform]
    split
    · apply Wanes.refl
    · exact .of_same rfl le_rfl le_rfl
  | unlockGc => exact .of_same rfl le_rfl le_rfl

theorem run_wanes {α : Type} (p : Program Api α) (w : World) :
    Wanes w (Program.run (handle cfg faults) p w).2 := by
  induction p generalizing w with
  | done a => apply Wanes.refl
  | call c next ih => exact (perform_wanes cfg faults c).trans (ih _ _)

end Sessions

end Dcfs
