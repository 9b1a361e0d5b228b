import Dcfs.Pool.Promise

namespace Dcfs

open Effects Tables World

def World.currentOf (w : World) (n : Uuid) : Option Uuid := (w.nodes.lookup n).bind NodeRecord.currentVersionId

structure Quiet (w t : World) : Prop where
  versions : t.versions = w.versions
  chunks : t.chunks = w.chunks
  current : ∀ n, t.currentOf n = w.currentOf n
  nextUuid : w.nextUuid ≤ t.nextUuid
  objects : ∀ o stored, w.objects.lookup o = some stored → t.objects.lookup o = some stored

inductive Effect (cfg : Config) (w : World) : Call → World → Prop
  | quiet {c : Call} {t : World} (h : Quiet w t) : Effect cfg w c t
  | staged {n : Uuid} {base : Option Uuid} {chunkSize : ℤ} {node : NodeRecord}
      (hnode : w.nodes.lookup n = some node) :
      Effect cfg w (.createStagingVersion n base chunkSize)
        (w.addVersion n node (w.newVersion n base chunkSize))
  | touched (v : Uuid) (size : ℤ) :
      Effect cfg w (.touchStagingVersion v size) (w.touchStagingVersion v size).2
  | attached (row : FileChunkRecord) :
      Effect cfg w (.attachChunk row) (w.setRows row.versionId
        (Keyed.upsert FileChunkRecord.chunkIndex row (w.rowsOf row.versionId)))
  | copied (source v : Uuid) (first last : ℤ) :
      Effect cfg w (.copyChunkRange source v first last)
        (w.setRows v (carry ((w.rowsBetween source first last).map (forVersion v)) (w.rowsOf v)))
  | committed {guard : CommitGuard} {total : ℤ} {hash : String} {node : NodeRecord}
      {version : FileVersionRecord} (hnode : w.nodes.lookup guard.nodeId = some node)
      (hguard : node.generation = guard.expectedGeneration
        ∧ node.currentVersionId = guard.expectedCurrentVersion)
      (hversion : w.versions.lookup guard.versionId = some version)
      (hstate : cfg.backend = .postgres → version.state = .staging) :
      Effect cfg w (.commitVersion guard total hash)
        (w.switchTo cfg.backend guard.nodeId guard.versionId node (w.committed version total hash))
  | forgotten (o : Uuid) : Effect cfg w (.forgetObject o) (w.forgetObject cfg.backend o).2
  | purged (cutoff : Time) : Effect cfg w (.purgeEmptyDeadVersions cutoff) (purged cfg w cutoff)
  | dropped (o : Uuid) : Effect cfg w (.delete o) (w.dropObject o)

variable {cfg : Config} {faults : Faults} {w t : World}

theorem Quiet.of_nodes (hv : t.versions = w.versions) (hc : t.chunks = w.chunks)
    (ho : t.objects = w.objects) (hn : t.nextUuid = w.nextUuid)
    (h : ∀ n, t.currentOf n = w.currentOf n) : Quiet w t :=
  ⟨hv, hc, h, hn.ge, fun _ _ hs => ho ▸ hs⟩

theorem Quiet.refl (w : World) : Quiet w w := .of_nodes rfl rfl rfl rfl fun _ => rfl

theorem quiet_updateNodeAttr (id : Uuid) (mode uid gid size : Option ℤ) (mtime atime : Option Time) :
    Quiet w (w.updateNodeAttr id mode uid gid size mtime atime).2 := by
  unfold World.updateNodeAttr
  split
  · exact .refl w
  · rename_i node hnode
    refine .of_nodes rfl rfl rfl rfl fun n => ?_
    simp only [World.currentOf, lookup_insert]
    split_ifs with hn
    · rw [hn, hnode]
      rfl
    · rfl

theorem quiet_reconcile : Quiet w w.reconcileNodeSizes.2 := by
  refine .of_nodes rfl rfl rfl rfl fun n => ?_
  change ((resized w).nodes.lookup n).bind _ = _
  rw [lookup_resized, World.currentOf]
  cases w.nodes.lookup n with
  | none => rfl
  | some node =>
    obtain ⟨size, hsize⟩ := reconciled_eq (w := w) node
    rw [Option.map_some, hsize]
    rfl

theorem quiet_put (keeps : Bool) (o : Uuid) (data : Bytes) (file : Uuid) :
    Quiet w (w.put keeps o data file).2 := by
  unfold World.put
  split
  · exact .refl w
  · rename_i hnone
    refine ⟨rfl, rfl, fun _ => rfl, le_rfl, fun o' stored hs => ?_⟩
    simp only [World.keepObject, lookup_insert]
    rw [if_neg]
    · exact hs
    · rintro rfl
      rw [hnone] at hs
      cases hs

def Call.onNamespace : Call → Bool
  | .createNode _ _ _ _ _ _ _ => true
  | .createSymlink _ _ _ _ _ _ => true
  | .deleteNode _ => true
  | .renameNode _ _ _ => true
  | .publishNode _ _ _ => true
  | _ => false

variable (cfg faults w) in
theorem call_effect : ∀ {c : Call}, c.onNamespace = false → Effect cfg w c (perform cfg faults w c).2
  | .query _, _ => .quiet (.refl w)
  | .updateNodeAttr _ _ _ _ _ _ _, _ => .quiet (quiet_updateNodeAttr _ _ _ _ _ _ _)
  | .createStagingVersion n base chunkSize, _ => by
    simp only [perform, World.createStagingVersion]
    split
    · exact .quiet (.refl w)
    · split_ifs
      · exact .quiet (.refl w)
      · exact .staged ‹_›
  | .touchStagingVersion v size, _ => .touched v size
  | .attachChunk row, _ => by
    simp only [perform, World.attachChunk]
    split <;> split_ifs
    · exact .attached row
    · exact .quiet (.refl w)
    · exact .attached row
    · exact .quiet (.refl w)
  | .copyChunkRange source v first last, _ => by
    simp only [perform, World.copyChunkRange]
    split_ifs
    · exact .quiet (.refl w)
    · exact .quiet (.refl w)
    · exact .quiet (.refl w)
    · exact .copied source v first last
  | .commitVersion guard total hash, _ => by
    simp only [perform, World.commitVersion]
    split
    · exact .quiet (.refl w)
    · split_ifs with hguard
      · exact .quiet (.refl w)
      · split
        · exact .quiet (.refl w)
        · split_ifs with hstate
          · exact .quiet (.refl w)
          · rw [not_or, not_not, not_not] at hguard
            exact .committed ‹_› hguard ‹_› fun hb => by_contra fun hs => hstate ⟨hb, hs⟩
  | .reconcileNodeSizes, _ => .quiet quiet_reconcile
  | .forgetObject o, _ => .forgotten o
  | .purgeEmptyDeadVersions cutoff, _ => .purged cutoff
  | .purgeDeletedNodes cutoff, _ => by
    simp only [perform, World.purgeDeletedNodes]
    split
    · exact .quiet (.refl w)
    · exact .quiet (.of_nodes rfl rfl rfl rfl fun _ => rfl)
  | .purgeExpiredSessions _, _ => .quiet (.of_nodes rfl rfl rfl rfl fun _ => rfl)
  | .newUuid, _ => .quiet ⟨rfl, rfl, fun _ => rfl, Nat.le_succ _, fun _ _ h => h⟩
  | .put _ _ _, _ => .quiet (quiet_put _ _ _ _)
  | .delete o, _ => by
    simp only [perform, World.delete]
    split
    · exact .quiet (.of_nodes rfl rfl rfl rfl fun _ => rfl)
    · split
      · exact .quiet (.of_nodes rfl rfl rfl rfl fun _ => rfl)
      · exact .dropped o
  | .utcNow, _ => .quiet (.of_nodes rfl rfl rfl rfl fun _ => rfl)
  | .lockNode _, _ => .quiet (.of_nodes rfl rfl rfl rfl fun _ => rfl)
  | .unlockNode _, _ => .quiet (.of_nodes rfl rfl rfl rfl fun _ => rfl)
  | .tryLockGc, _ => by
    simp only [perform]
    split <;> exact .quiet (.of_nodes rfl rfl rfl rfl fun _ => rfl)
  | .unlockGc, _ => .quiet (.of_nodes rfl rfl rfl rfl fun _ => rfl)

theorem Memo.Admits.off_namespace {m : Memo} {c : Call} (h : Memo.Admits c m) : c.onNamespace = false := by
  cases c with
  | createNode id parentId name kind mode uid gid => exact h.elim
  | createSymlink id parentId name target uid gid => exact h.elim
  | deleteNode id => exact h.elim
  | renameNode id newParentId newName => exact h.elim
  | publishNode id newParentId newName => exact h.elim
  | _ => rfl

variable (cfg faults w) in
theorem perform_effect {m : Memo} {c : Call} (h : Memo.Admits c m) : Effect cfg w c (perform cfg faults w c).2 :=
  call_effect cfg faults w h.off_namespace

theorem currentOf_addVersion {n : Uuid} {node : NodeRecord} (hnode : w.nodes.lookup n = some node)
    (version : FileVersionRecord) (m : Uuid) : (w.addVersion n node version).currentOf m = w.currentOf m := by
  simp only [World.currentOf, World.addVersion, lookup_insert]
  split_ifs with hm
  · rw [hm, hnode]
    rfl
  · rfl

theorem currentOf_switchTo (b : Backend) (n v : Uuid) (node : NodeRecord) (version : FileVersionRecord)
    (m : Uuid) : (w.switchTo b n v node version).currentOf m = if m = n then some v else w.currentOf m := by
  simp only [World.currentOf, World.switchTo, lookup_insert]
  split_ifs <;> rfl

theorem Effect.currentOf {c : Call} (h : Effect cfg w c t) (n : Uuid) : t.currentOf n = w.currentOf n
    ∨ ∃ guard total hash, c = .commitVersion guard total hash ∧ n = guard.nodeId
      ∧ t.currentOf n = some guard.versionId := by
  cases h with
  | quiet h => exact .inl (h.current n)
  | staged hnode => exact .inl (currentOf_addVersion hnode _ n)
  | committed hnode hguard hversion hstate =>
    rename_i guard total hash node version
    rw [currentOf_switchTo]
    split_ifs with hn
    · exact .inr ⟨guard, total, hash, rfl, hn, rfl⟩
    · exact .inl rfl
  | _ => exact .inl rfl

theorem currentOf_eq_some {n c : Uuid} : w.currentOf n = some c ↔
    ∃ node, w.nodes.lookup n = some node ∧ node.currentVersionId = some c := by
  rw [World.currentOf, Option.bind_eq_some_iff]

theorem Effect.version_origin {c : Call} (h : Effect cfg w c t) {v : Uuid} {version : FileVersionRecord}
    (hv : t.versions.lookup v = some version) :
    (∃ old, w.versions.lookup v = some old ∧ version.nodeId = old.nodeId ∧ version.id = old.id)
      ∨ v = w.nextUuid ∧ version.id = w.nextUuid ∧ w.nextUuid < t.nextUuid := by
  cases h with
  | quiet h => exact .inl ⟨version, h.versions ▸ hv, rfl, rfl⟩
  | staged hnode =>
    rw [lookup_addVersion] at hv
    split_ifs at hv with hid
    · cases hv
      exact .inr ⟨hid, rfl, Nat.lt_succ_self _⟩
    · exact .inl ⟨version, hv, rfl, rfl⟩
  | touched v' size =>
    simp only [World.touchStagingVersion, lookup_modify] at hv
    split_ifs at hv with hid
    · obtain ⟨old, hold, rfl⟩ := Option.map_eq_some_iff.mp hv
      refine .inl ⟨old, hold, ?_⟩
      split_ifs <;> exact ⟨rfl, rfl⟩
    · exact .inl ⟨version, hv, rfl, rfl⟩
  | committed hnode hguard hversion hstate =>
    rw [lookup_switch] at hv
    split_ifs at hv with h1 h2
    · cases hv
      rw [h1]
      exact .inl ⟨_, hversion, rfl, rfl⟩
    · obtain ⟨old, hold, rfl⟩ := Option.map_eq_some_iff.mp hv
      refine .inl ⟨old, hold, ?_⟩
      unfold supersededBy
      split_ifs <;> exact ⟨rfl, rfl⟩
    · exact .inl ⟨version, hv, rfl, rfl⟩
  | purged cutoff =>
    rw [Dcfs.purged, World.purgeEmptyDeadVersions, lookup_mapValues, lookup_keep] at hv
    obtain ⟨old, hold, rfl⟩ := Option.map_eq_some_iff.mp hv
    obtain ⟨base, hbase⟩ := unlinked_eq cfg.backend (w.doomedVersions cfg.backend cutoff) old
    rw [hbase]
    exact .inl ⟨old, (Option.filter_eq_some_iff.mp hold).1, rfl, rfl⟩
  | _ => exact .inl ⟨version, hv, rfl, rfl⟩

theorem Effect.nextUuid_le {c : Call} (h : Effect cfg w c t) : w.nextUuid ≤ t.nextUuid := by
  cases h with
  | quiet h => exact h.nextUuid
  | staged hnode => exact Nat.le_succ _
  | _ => exact le_rfl

end Dcfs
