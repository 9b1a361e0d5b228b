import Dcfs.Versions.Current

namespace Dcfs

open Tables World

variable {cfg : Config} {faults : Faults} {w u : World}

def NodeFit (w : World) (node : NodeRecord) : Prop :=
  0 ≤ node.generation ∧ ∀ v, node.currentVersionId = some v → v < w.nextUuid

def Fit (w : World) : Prop := ∀ i node, w.nodes.lookup i = some node → NodeFit w node

theorem NodeFit.of_same {old node : NodeRecord} (h : NodeFit w old) (hgeneration : node.generation = old.generation)
    (hcurrent : node.currentVersionId = old.currentVersionId) : NodeFit w node := by
  rw [NodeFit, hgeneration, hcurrent]
  exact h

theorem NodeFit.mono {node : NodeRecord} (h : NodeFit w node) (hnext : w.nextUuid ≤ u.nextUuid) : NodeFit u node :=
  ⟨h.1, fun v hv => (h.2 v hv).trans_le hnext⟩

theorem Fit.of_written (hw : Fit w) (hnext : w.nextUuid ≤ u.nextUuid)
    (h : ∀ i node, u.nodes.lookup i = some node → w.nodes.lookup i = some node ∨ NodeFit u node) : Fit u := by
  intro i node hnode
  rcases h i node hnode with hold | hfit
  · exact (hw i node hold).mono hnext
  · exact hfit

theorem Fit.of_nodes (hw : Fit w) (hnext : w.nextUuid ≤ u.nextUuid) (hnodes : u.nodes = w.nodes) : Fit u :=
  hw.of_written hnext fun _ _ hnode => .inl (hnodes ▸ hnode)

theorem Fit.insert (hw : Fit w) {i : Uuid} {written : NodeRecord} (hnext : w.nextUuid ≤ u.nextUuid)
    (hnodes : u.nodes = w.nodes.insert i written) (hfit : NodeFit u written) : Fit u := by
  refine hw.of_written hnext fun j node hnode => ?_
  rw [hnodes, lookup_insert] at hnode
  split_ifs at hnode with hj
  · cases hnode
    exact .inr hfit
  · exact .inl hnode

theorem Fit.mapNodes (hw : Fit w) {f : Uuid → NodeRecord → NodeRecord} (hnext : w.nextUuid ≤ u.nextUuid)
    (hnodes : ∀ i, u.nodes.lookup i = (w.nodes.lookup i).map (f i))
    (hf : ∀ i node, (f i node).generation = node.generation ∧ (f i node).currentVersionId = node.currentVersionId) :
    Fit u := by
  intro i node hnode
  rw [hnodes] at hnode
  obtain ⟨old, hold, rfl⟩ := Option.map_eq_some_iff.mp hnode
  exact ((hw i old hold).of_same (hf i old).1 (hf i old).2).mono hnext

theorem Fit.drop {backend : Backend} (hw : Fit w) (id : Uuid) : Fit (w.dropNode backend id) :=
  hw.of_written (dropNode_versions w backend id).2.ge fun _ _ hnode => .inl (lookup_dropNode.mp hnode).2

theorem Fit.move (hw : Fit w) (id newParentId : Uuid) (newName : Bytes) :
    Fit (w.moveNode id newParentId newName) := by
  refine hw.mapNodes (f := fun i node => if i = id then { node with
    parentId := some newParentId, name := newName, ctime := w.now } else node) le_rfl (fun i => ?_) fun i node => ?_
  · rw [World.moveNode, lookup_modify]
    split_ifs
    · rfl
    · rw [Option.map_id']
  · split_ifs <;> exact ⟨rfl, rfl⟩

theorem NameEffect.fit {backend : Backend} {call : NameCall} (h : NameEffect w backend call u) (hw : Fit w) :
    Fit u := by
  cases h with
  | refused => exact hw
  | created _ _ => exact hw.insert le_rfl rfl ⟨le_rfl, nofun⟩
  | linked _ _ _ => exact hw.insert le_rfl rfl ⟨le_rfl, nofun⟩
  | deleted _ => exact hw.drop _
  | renamed _ _ => exact hw.move _ _ _
  | replaced _ _ _ _ _ => exact (hw.drop _).move _ _ _
  | published _ _ => exact hw.move _ _ _

theorem perform_fit (hw : Fit w) (hnumbered : Numbered w) (c : Call) : Fit (perform cfg faults w c).2 := by
  have hquiet : ∀ {u : World}, u.nextUuid = w.nextUuid → u.nodes = w.nodes → Fit u :=
    fun hnext hnodes => hw.of_nodes hnext.ge hnodes
  cases c with
  | createNode id parentId name kind mode uid gid =>
    exact (named_effect w cfg.backend (.createNode id parentId name kind mode uid gid)).fit hw
  | createSymlink id parentId name target uid gid =>
    exact (named_effect w cfg.backend (.createSymlink id parentId name target uid gid)).fit hw
  | deleteNode id => exact (named_effect w cfg.backend (.deleteNode id)).fit hw
  | renameNode id newParentId newName =>
    exact (named_effect w cfg.backend (.renameNode id newParentId newName)).fit hw
  | publishNode id newParentId newName =>
    exact (named_effect w cfg.backend (.publishNode id newParentId newName)).fit hw
  | updateNodeAttr id mode uid gid size mtime atime =>
    simp only [perform, World.updateNodeAttr]
    cases hnode : w.nodes.lookup id with
    | none => exact hw
    | some node => exact hw.insert le_rfl rfl ((hw id node hnode).of_same rfl rfl)
  | createStagingVersion n base chunkSize =>
    simp only [perform, World.createStagingVersion]
    cases hnode : w.nodes.lookup n with
    | none => exact hw
    | some node =>
      dsimp only
      split_ifs
      · exact hw
      · have hfit := hw n node hnode
        exact hw.insert (Nat.le_succ _) rfl
          ⟨Int.le_add_one hfit.1, fun v hv => (hfit.2 v hv).trans (Nat.lt_succ_self _)⟩
  | commitVersion guard total hash =>
    simp only [perform, World.commitVersion]
    cases hnode : w.nodes.lookup guard.nodeId with
    | none => exact hw
    | some node =>
      dsimp only
      split_ifs
      · exact hw
      · cases hversion : w.versions.lookup guard.versionId with
        | none => exact hw
        | some version =>
          dsimp only
          split_ifs
          · exact hw
          · refine hw.insert le_rfl rfl ⟨(hw _ node hnode).1, ?_⟩
            rintro v ⟨⟩
            exact hnumbered _ version hversion
  | reconcileNodeSizes =>
    refine hw.mapNodes (f := fun _ => w.reconciled) le_rfl (fun i => ?_) fun i node => ?_
    · exact lookup_mapValues _ _ _
    · obtain ⟨size, hsize⟩ := reconciled_eq (w := w) node
      rw [hsize]
      exact ⟨rfl, rfl⟩
  | newUuid => exact hw.of_nodes (Nat.le_succ _) rfl
  | attachChunk row =>
    simp only [perform, World.attachChunk]
    split <;> split_ifs <;> exact hquiet rfl rfl
  | copyChunkRange source target first last =>
    simp only [perform, World.copyChunkRange]
    split_ifs <;> exact hquiet rfl rfl
  | forgetObject o =>
    simp only [perform, World.forgetObject]
    split <;> exact hquiet rfl rfl
  | purgeDeletedNodes cutoff =>
    simp only [perform, World.purgeDeletedNodes]
    split <;> exact hquiet rfl rfl
  | put o data file =>
    simp only [perform, World.put]
    split <;> exact hquiet rfl rfl
  | delete o =>
    simp only [perform, World.delete]
    split
    · exact hquiet rfl rfl
    · split <;> exact hquiet rfl rfl
  | tryLockGc =>
    simp only [perform]
    split <;> exact hquiet rfl rfl
  | _ => exact hquiet rfl rfl

theorem CallRun.fit (h : CallRun cfg w) : Numbered w ∧ Fit w := by
  induction h with
  | fresh now =>
    refine ⟨fun v version hversion => (by cases hversion), fun i node hnode => ?_⟩
    rw [(World.lookup_fresh hnode).2]
    exact ⟨le_rfl, fun v hv => by cases hv⟩
  | step faults c _ _ ih => exact ⟨perform_numbered ih.1 c, perform_fit ih.2 ih.1 c⟩

end Dcfs
