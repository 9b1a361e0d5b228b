import Dcfs.Server.Sample
import Dcfs.Versions.Refines

namespace Dcfs

open Tables World

/-- Calls in any order and with any arguments; a commit names the version's own node. -/
inductive CallRun (cfg : Config) : World → Prop
  | fresh (now : Time) : CallRun cfg (World.fresh now)
  | step {w : World} (faults : Faults) (c : Call) : CallRun cfg w → c.OwnNode w →
      CallRun cfg (perform cfg faults w c).2

variable {cfg : Config} {faults : Faults} {w u : World} {c : Call}

theorem Numbered.of_keys (hw : Numbered w) (hnext : w.nextUuid ≤ u.nextUuid)
    (hkeys : ∀ v version, u.versions.lookup v = some version → ∃ old, w.versions.lookup v = some old) :
    Numbered u := by
  intro v version hv
  obtain ⟨old, hold⟩ := hkeys v version hv
  exact (hw v old hold).trans_le hnext

theorem Numbered.of_versions (hw : Numbered w) (hversions : u.versions = w.versions)
    (hnext : w.nextUuid ≤ u.nextUuid) : Numbered u :=
  hw.of_keys hnext fun _ version hv => ⟨version, hversions ▸ hv⟩

theorem dropNode_versions (w : World) (backend : Backend) (id : Uuid) :
    (w.dropNode backend id).versions = w.versions ∧ (w.dropNode backend id).nextUuid = w.nextUuid := by
  unfold World.dropNode
  split <;> exact ⟨rfl, rfl⟩

theorem NameEffect.numbered {backend : Backend} {call : NameCall} (h : NameEffect w backend call u) (hw : Numbered w) :
    Numbered u := by
  cases h with
  | deleted _ =>
    obtain ⟨hversions, hnext⟩ := dropNode_versions w backend _
    exact hw.of_versions hversions hnext.ge
  | replaced _ _ _ _ _ =>
    obtain ⟨hversions, hnext⟩ := dropNode_versions w backend _
    exact hw.of_versions hversions hnext.ge
  | _ => exact hw.of_versions rfl le_rfl

theorem perform_numbered (hw : Numbered w) (c : Call) : Numbered (perform cfg faults w c).2 := by
  by_cases hname : c.onNamespace = true
  · cases c with
    | createNode id parentId name kind mode uid gid =>
      exact (named_effect w cfg.backend (.createNode id parentId name kind mode uid gid)).numbered hw
    | createSymlink id parentId name target uid gid =>
      exact (named_effect w cfg.backend (.createSymlink id parentId name target uid gid)).numbered hw
    | deleteNode id => exact (named_effect w cfg.backend (.deleteNode id)).numbered hw
    | renameNode id newParentId newName =>
      exact (named_effect w cfg.backend (.renameNode id newParentId newName)).numbered hw
    | publishNode id newParentId newName =>
      exact (named_effect w cfg.backend (.publishNode id newParentId newName)).numbered hw
    | _ => cases hname
  · have heffect := call_effect cfg faults w (Bool.not_eq_true _ ▸ hname)
    intro v version hv
    rcases heffect.version_origin hv with ⟨old, hold, -⟩ | ⟨rfl, -, hnext⟩
    · exact (hw v old hold).trans_le heffect.nextUuid_le
    · exact hnext

theorem book_reconcile (w : World) : w.reconcileNodeSizes.2.book = w.book := by
  refine book_congr (fun n => ?_) (fun n => ?_) fun _ => rfl
  · rw [World.reconcileNodeSizes, lookup_mapValues, Option.map_map]
    congr 1
    funext node
    obtain ⟨size, hsize⟩ := reconciled_eq (w := w) node
    rw [Function.comp_apply, hsize]
  · rw [World.reconcileNodeSizes, lookup_mapValues, Option.isSome_map]

theorem perform_refines (hpg : cfg.backend = .postgres) (hnumbered : Numbered w) (hw : w.book.Ok)
    (hown : c.OwnNode w) : w.book.Step (perform cfg faults w c).2.book := by
  have hsame : ∀ {u : World}, u.book = w.book → w.book.Step u.book := fun h => h ▸ .same
  unfold perform
  rw [hpg]
  cases c with
  | createNode id parentId name kind mode uid gid =>
    exact named_refines w (.createNode id parentId name kind mode uid gid)
  | createSymlink id parentId name target uid gid =>
    exact named_refines w (.createSymlink id parentId name target uid gid)
  | deleteNode id => exact named_refines w (.deleteNode id)
  | renameNode id newParentId newName => exact named_refines w (.renameNode id newParentId newName)
  | publishNode id newParentId newName => exact named_refines w (.publishNode id newParentId newName)
  | updateNodeAttr id mode uid gid size mtime atime =>
    exact hsame (book_updateNodeAttr w id mode uid gid size mtime atime)
  | createStagingVersion nodeId base chunkSize => exact staging_refines hnumbered nodeId base chunkSize
  | touchStagingVersion v size => exact hsame (touch_refines w v size)
  | commitVersion guard total hash => exact commit_refines hown
  | purgeEmptyDeadVersions cutoff => exact purge_refines w cutoff
  | purgeDeletedNodes cutoff => exact purgeNodes_refines hw cutoff
  | reconcileNodeSizes => exact hsame (book_reconcile w)
  | attachChunk row =>
    simp only [World.attachChunk]
    split_ifs
    · exact .same
    · exact .same
  | copyChunkRange source target first last =>
    simp only [World.copyChunkRange]
    split_ifs <;> exact .same
  | put o data file =>
    simp only [World.put]
    split <;> exact .same
  | delete o =>
    simp only [World.delete]
    split
    · exact .same
    · split <;> exact .same
  | _ => exact .same

theorem fresh_ok (now : Time) : (World.fresh now).book.Ok := by
  have hcurrent : ∀ {n v}, (World.fresh now).book.current n ≠ some (some v) := by
    intro n v h
    obtain ⟨node, hnode, hv⟩ := Option.map_eq_some_iff.mp h
    rw [(World.lookup_fresh hnode).2] at hv
    cases hv
  refine ⟨fun {n c} h => ?_, fun h => (by cases h), fun h => absurd h hcurrent, fun _ h => by cases h⟩
  obtain ⟨node, hnode, -⟩ := Option.map_eq_some_iff.mp h
  exact Bool.or_eq_true_iff.mpr (.inl (Option.isSome_of_mem hnode))

theorem CallRun.ok (hpg : cfg.backend = .postgres) (h : CallRun cfg w) : Numbered w ∧ w.book.Ok := by
  induction h with
  | fresh now => exact ⟨nofun, fresh_ok now⟩
  | step faults c _ hown ih =>
    exact ⟨perform_numbered ih.1 c, (perform_refines hpg ih.1 ih.2 hown).ok ih.2⟩

theorem current_is_only_committed (hpg : cfg.backend = .postgres) (h : CallRun cfg w) :
    (∀ id node v, w.nodes.lookup id = some node → node.currentVersionId = some v →
      ∃ version, w.versions.lookup v = some version ∧ version.nodeId = id ∧ version.state = .committed
        ∧ ∀ v' other, w.versions.lookup v' = some other → other.nodeId = id → other.state = .committed → v' = v)
      ∧ ∀ faults c, c.OwnNode w → ∀ v old new, w.versions.lookup v = some old →
        (perform cfg faults w c).2.versions.lookup v = some new →
        new.state = old.state ∨ old.state.canTransitionTo new.state = true := by
  obtain ⟨hnumbered, hok⟩ := h.ok hpg
  refine ⟨fun id node v hnode hcurrent => ?_, fun faults c hown v old new hold hnew => ?_⟩
  · have hbook : w.book.current id = some (some v) := by rw [book_current, hnode, Option.map_some, hcurrent]
    obtain ⟨version, hversion, heq⟩ := Option.map_eq_some_iff.mp (hok.current hbook)
    obtain ⟨hnodeId, hstate⟩ := Prod.mk.inj heq
    refine ⟨version, hversion, hnodeId, hstate, fun v' other hother hnode' hstate' => ?_⟩
    have hother' : w.book.versions v' = some (id, .committed) := by
      rw [book_versions, hother, Option.map_some, hnode', hstate']
    exact (Option.some.inj (hok.only hbook hother')).symm
  · have hbefore : w.book.versions v = some (old.nodeId, old.state) := by rw [book_versions, hold, Option.map_some]
    have hafter : (perform cfg faults w c).2.book.versions v = some (new.nodeId, new.state) := by
      rw [book_versions, hnew, Option.map_some]
    exact ((perform_refines hpg hnumbered hok hown).transition hbefore hafter).2

def committedTwice : World :=
  let call (w : World) (c : Call) : World := (perform (sample .postgres) noFaults w c).2
  let made := call (World.fresh 0) (.createNode 5 0 [97] .file 0 0 0)
  let first := call (call made (.createStagingVersion 5 none 4)) (.commitVersion ⟨5, 1, 1, none⟩ 0 "")
  call (call first (.createStagingVersion 5 (some 1) 4)) (.commitVersion ⟨5, 2, 2, some 1⟩ 0 "")

theorem committedTwice_current : ∃ node, committedTwice.nodes.lookup 5 = some node
    ∧ node.currentVersionId = some 2 ∧ ∃ version, committedTwice.versions.lookup 2 = some version
      ∧ version.nodeId = 5 ∧ version.state = .committed
      ∧ ∀ v' other, committedTwice.versions.lookup v' = some other → other.nodeId = 5 → other.state = .committed →
        v' = 2 := by
  have hrun : CallRun (sample .postgres) committedTwice := by
    unfold committedTwice
    refine .step noFaults _ (.step noFaults _ (.step noFaults _ (.step noFaults _ (.step noFaults _ (.fresh 0)
      ?_) ?_) ?_) ?_) ?_
    · trivial
    · trivial
    · rintro version ⟨⟩
      rfl
    · trivial
    · rintro version ⟨⟩
      rfl
  exact ⟨_, rfl, rfl, (current_is_only_committed rfl hrun).1 5 _ 2 rfl rfl⟩

end Dcfs
