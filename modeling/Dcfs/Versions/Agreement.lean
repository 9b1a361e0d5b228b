import Dcfs.Server.Sample
import Dcfs.Versions.InStep

namespace Dcfs.Backends

open Tables World

variable {m p : World} {α : Type}

theorem Agree.deadObjects (h : Agree m p) (olderThan : Time) : p.deadObjects olderThan = m.deadObjects olderThan := by
  have hlive : p.isLive olderThan = m.isLive olderThan := by
    funext version
    simp only [World.isLive, h.isCurrent]
  have hobjects : p.objectsIn = m.objectsIn := by
    funext versions
    simp only [World.objectsIn, h.rows]
  simp only [World.deadObjects, World.deadVersions, World.liveVersions, hlive, hobjects, h.versions]

theorem collectableObjects_same (h : Agree m p) (here there : Config) {olderThan : Time} {limit : ℤ}
    (hfew : (m.deadObjects olderThan).length ≤ limit) (hloose : p.unreferencedObjects olderThan = []) :
    ∃ ids ids', m.collectableObjects .memory here.arrange olderThan limit = .ok ids
      ∧ p.collectableObjects .postgres there.arrange olderThan limit = .ok ids' ∧ ids'.Perm ids := by
  have hhere := here.arrange_perm (m.deadObjects olderThan)
  have hthere := there.arrange_perm (m.deadObjects olderThan)
  have hall : p.collectable .postgres olderThan = m.deadObjects olderThan := by
    simp only [World.collectable, hloose, h.deadObjects, List.append_nil]
  have hlimit : ¬ limit < 0 := by omega
  refine ⟨_, _, rfl, if_neg hlimit, ?_⟩
  rw [List.take_of_length_le, List.take_of_length_le, hall]
  · exact hthere.trans hhere.symm
  · rw [World.collectable, hhere.length_eq]
    omega
  · rw [hall, hthere.length_eq]
    omega

theorem rowsOf_forgetObject (w : World) (backend : Backend) (objectId id : Uuid) :
    (w.forgetObject backend objectId).2.rowsOf id = (w.rowsOf id).filter (fun c => c.objectId != objectId) := by
  simp only [World.rowsOf, World.forgetObject, lookup_mapValues]
  cases w.chunks.lookup id <;> rfl

theorem forgetObject_alike (h : Agree m p) (objectId : Uuid) :
    Alike (m.forgetObject .memory objectId) (p.forgetObject .postgres objectId) := by
  have hperm : p.referencedObjects.Perm m.referencedObjects := by
    simp only [World.referencedObjects, List.flatMap_def, ← List.map_flatten]
    exact (flatten_perm h.rows).map _
  refine ⟨congrArg Except.ok (hperm.count_eq objectId), ?_⟩
  refine ⟨h.now, h.nextUuid, h.nodes, h.deleted, h.versions, fun id => ?_, fun {id} hid => ?_⟩
  · rw [rowsOf_forgetObject, rowsOf_forgetObject, h.rows]
  · rw [World.forgetObject, lookup_mapValues, Option.isSome_map]
    exact h.entries hid

theorem Agree.isNamed (h : Agree m p) {version : FileVersionRecord}
    (howner : ∀ id node, m.nodes.lookup id = some node → node.currentVersionId = some version.id →
      version.nodeId = id) :
    p.isNamed .postgres version = m.isNamed .memory version := by
  rw [Bool.eq_iff_iff]
  simp only [World.isNamed, List.any_eq_true, beq_iff_eq]
  constructor
  · rintro ⟨node, hnode, hcurrent⟩
    obtain ⟨id, hid⟩ := mem_values.mp hnode
    rcases h.node id with ⟨-, hp⟩ | ⟨a, mtime, ctime, hm, hp⟩
    · cases hp.symm.trans hid
    · cases hp.symm.trans hid
      rw [World.isCurrent, howner id a hm hcurrent, hm]
      exact beq_iff_eq.mpr hcurrent
  · intro hcurrent
    rw [← h.isCurrent, World.isCurrent] at hcurrent
    cases hp : p.nodes.lookup version.nodeId with
    | none =>
      rw [hp] at hcurrent
      cases hcurrent
    | some node =>
      rw [hp] at hcurrent
      exact ⟨node, mem_values.mpr ⟨_, hp⟩, beq_iff_eq.mp hcurrent⟩

theorem Agree.doomedVersions (h : Agree m p) {olderThan : Time}
    (howner : ∀ id node version, m.nodes.lookup id = some node → version ∈ values m.versions →
      node.currentVersionId = some version.id → version.nodeId = id) :
    p.doomedVersions .postgres olderThan = m.doomedVersions .memory olderThan := by
  rw [World.doomedVersions, h.versions, World.doomedVersions]
  refine congrArg _ (List.filter_congr fun version hversion => ?_)
  have hnamed := h.isNamed fun id node hnode => howner id node version hnode hversion
  rw [World.isDoomed, World.isDoomed, hnamed, h.rows]

theorem unlinked_keep {versions : Table Uuid FileVersionRecord} {doomed : List Uuid}
    (hbase : ∀ id version base, versions.lookup id = some version → id ∉ doomed →
      version.baseVersionId = some base → base ∉ doomed) (backend : Backend) :
    mapValues (fun _ version => unlinked backend doomed version)
      (keep (fun id _ => !doomed.contains id) versions) = keep (fun id _ => !doomed.contains id) versions := by
  refine mapValues_eq_self fun id version hversion => ?_
  cases backend with
  | memory => rfl
  | postgres =>
    rw [lookup_keep, Option.filter_eq_some_iff] at hversion
    obtain ⟨hlookup, hid⟩ := hversion
    refine if_neg ?_
    rw [Option.any_eq_true]
    rintro ⟨base, heq, hdoomed⟩
    exact hbase id version base hlookup (by simpa using hid) heq (by simpa using hdoomed)

theorem lookup_keep_not (t : Table Uuid α) (doomed : List Uuid) (id : Uuid) :
    (keep (fun id _ => !doomed.contains id) t).lookup id = if id ∈ doomed then none else t.lookup id := by
  rw [lookup_keep]
  split_ifs with hid
  · cases t.lookup id <;> simp [hid]
  · cases t.lookup id <;> simp [hid]

theorem purgeEmptyDeadVersions_alike (h : Agree m p) {olderThan : Time}
    (howner : ∀ id node version, m.nodes.lookup id = some node → version ∈ values m.versions →
      node.currentVersionId = some version.id → version.nodeId = id)
    (hbase : ∀ id version base, m.versions.lookup id = some version → id ∉ m.doomedVersions .memory olderThan →
      version.baseVersionId = some base → base ∉ m.doomedVersions .memory olderThan) :
    Alike (m.purgeEmptyDeadVersions .memory olderThan) (p.purgeEmptyDeadVersions .postgres olderThan) := by
  have hdoomed : p.doomedVersions .postgres olderThan = m.doomedVersions .memory olderThan :=
    h.doomedVersions howner
  unfold World.purgeEmptyDeadVersions
  rw [hdoomed, h.versions]
  simp only [unlinked_keep hbase]
  refine ⟨rfl, h.now, h.nextUuid, h.nodes, h.deleted, rfl, fun id => ?_, fun {id} hid => ?_⟩
  · have hrows := h.rows id
    simp only [World.rowsOf, lookup_keep_not] at hrows ⊢
    split_ifs
    · rfl
    · exact hrows
  · simp only [lookup_keep_not] at hid ⊢
    split_ifs at hid ⊢
    · cases hid
    · exact h.entries hid

def onVersions : Call → Bool
  | .createStagingVersion _ _ _ => true
  | .query (.findOpenStagingVersion _) => true
  | .touchStagingVersion _ _ => true
  | .attachChunk _ => true
  | .copyChunkRange _ _ _ _ => true
  | .query (.getChunkRange _ _ _) => true
  | .commitVersion _ _ _ => true
  | .reconcileNodeSizes => true
  | .query (.collectableObjects _ _) => true
  | .forgetObject _ => true
  | .purgeEmptyDeadVersions _ => true
  | _ => false

def Same : (c : Call) → c.Reply → c.Reply → Prop
  | .query (.collectableObjects _ _), .ok ids, .ok ids' => ids'.Perm ids
  | _, r, r' => r' = r

structure Begun (m p : World) : Prop where
  now : p.now = m.now
  nextUuid : p.nextUuid = m.nextUuid
  nodes : ∀ id, p.nodes.lookup id = m.nodes.lookup id
  deleted : m.deletedNodes = ∅
  versions : m.versions = ∅ ∧ p.versions = ∅
  chunks : m.chunks = ∅ ∧ p.chunks = ∅
  current : ∀ node ∈ values m.nodes, node.currentVersionId = none

/-- A `TEXT` column holds no U+0000. -/
abbrev Storable (text : String) : Prop := Char.ofNat 0 ∉ text.toList

/-- What the two repositories treat alike, by the state before the call. -/
def Common (m p : World) : Call → Prop
  | .createStagingVersion nodeId base _ =>
    m.nodes.lookup nodeId = none ∨ ∀ id ∈ base, (m.versions.lookup id).isSome
  | .attachChunk row => (m.versions.lookup row.versionId).isSome ∧ Storable row.plaintextHash
  | .query (.getChunkRange versionId _ _) => (m.versions.lookup versionId).isSome
  | .copyChunkRange fromVersion toVersion first last =>
    last < first ∨ m.rowsBetween fromVersion first last = [] ∨ (m.versions.lookup toVersion).isSome
  | .commitVersion guard _ plaintextHash => ∀ node, m.nodes.lookup guard.nodeId = some node →
      node.generation = guard.expectedGeneration → node.currentVersionId = guard.expectedCurrentVersion →
      Storable plaintextHash
        ∧ ∀ version, m.versions.lookup guard.versionId = some version → version.state = .staging
  | .reconcileNodeSizes => ∀ entry ∈ values p.deletedNodes, (p.reconciled entry.1).size = entry.1.size
  | .query (.collectableObjects olderThan limit) =>
    (m.deadObjects olderThan).length ≤ limit ∧ p.unreferencedObjects olderThan = []
  | .purgeEmptyDeadVersions olderThan =>
    (∀ id node version, m.nodes.lookup id = some node → version ∈ values m.versions →
      node.currentVersionId = some version.id → version.nodeId = id)
    ∧ ∀ id version base, m.versions.lookup id = some version → id ∉ m.doomedVersions .memory olderThan →
      version.baseVersionId = some base → base ∉ m.doomedVersions .memory olderThan
  | _ => True

inductive Both (here there : Config) (allows : World → World → Call → Prop) : World → World → Prop
  | start {m p : World} : Begun m p → Both here there allows m p
  | step {m p : World} {c : Call} : Both here there allows m p → onVersions c = true → allows m p c →
      Both here there allows (perform here noFaults m c).2 (perform there noFaults p c).2

variable {m p : World} {here there : Config}

theorem Begun.agree (h : Begun m p) : Agree m p where
  now := h.now
  nextUuid := h.nextUuid
  nodes id := congrArg _ (h.nodes id)
  deleted := h.deleted
  versions := h.versions.2.trans h.versions.1.symm
  rows id := by rw [World.rowsOf, h.chunks.2, World.rowsOf, h.chunks.1]
  entries {id} hid := by
    rw [h.versions.1] at hid
    cases hid

theorem Agree.step (hhere : here.backend = .memory) (hthere : there.backend = .postgres) (h : Agree m p)
    {c : Call} (hc : onVersions c = true) (hcommon : Common m p c) :
    Same c (perform here noFaults m c).1 (perform there noFaults p c).1
      ∧ Agree (perform here noFaults m c).2 (perform there noFaults p c).2 := by
  cases c with
  | query q =>
    refine ⟨?_, h⟩
    cases q with
    | findOpenStagingVersion nodeId => exact findOpenStagingVersion_same h
    | getChunkRange versionId first last =>
      simp only [perform, answer, hhere, hthere]
      exact getChunkRange_same h hcommon
    | collectableObjects olderThan limit =>
      obtain ⟨ids, ids', hids, hids', hperm⟩ := collectableObjects_same h here there hcommon.1 hcommon.2
      simp only [perform, answer, hhere, hthere, hids, hids']
      exact hperm
    | _ => cases hc
  | createStagingVersion nodeId base chunkSize =>
    simp only [perform, hhere, hthere]
    exact createStagingVersion_alike h hcommon
  | touchStagingVersion versionId size => exact touchStagingVersion_alike h versionId size
  | attachChunk row =>
    simp only [perform, hhere, hthere]
    exact attachChunk_alike h hcommon.1
  | copyChunkRange fromVersion toVersion first last =>
    simp only [perform, hhere, hthere]
    exact copyChunkRange_alike h hcommon
  | commitVersion guard totalSize plaintextHash =>
    simp only [perform, hhere, hthere]
    refine commitVersion_alike h fun node version hnode hgeneration hcurrent => ?_
    exact (hcommon node hnode hgeneration hcurrent).2 version
  | reconcileNodeSizes => exact reconcileNodeSizes_alike h hcommon
  | forgetObject objectId =>
    simp only [perform, hhere, hthere]
    exact forgetObject_alike h objectId
  | purgeEmptyDeadVersions olderThan =>
    simp only [perform, hhere, hthere]
    exact purgeEmptyDeadVersions_alike h hcommon.1 hcommon.2
  | _ => cases hc

theorem Both.agree (hhere : here.backend = .memory) (hthere : there.backend = .postgres)
    (h : Both here there Common m p) : Agree m p := by
  induction h with
  | start hbegun => exact hbegun.agree
  | step _ hc hcommon ih => exact (ih.step hhere hthere hc hcommon).2

theorem repositories_agree (hhere : here.backend = .memory) (hthere : there.backend = .postgres)
    (h : Both here there Common m p) {c : Call} (hc : onVersions c = true) (hcommon : Common m p c) :
    Same c (perform here noFaults m c).1 (perform there noFaults p c).1 :=
  ((h.agree hhere hthere).step hhere hthere hc hcommon).1

theorem fresh_begun (now : Time) : Begun (World.fresh now) (World.fresh now) where
  now := rfl
  nextUuid := rfl
  nodes _ := rfl
  deleted := rfl
  versions := ⟨rfl, rfl⟩
  chunks := ⟨rfl, rfl⟩
  current node hnode := by
    cases List.mem_singleton.mp hnode
    rfl

def history : List Call :=
  [.createStagingVersion 0 none 4, .attachChunk ⟨1, 0, 0, 4, "first", 50⟩, .commitVersion ⟨0, 1, 1, none⟩ 4 "first",
    .createStagingVersion 0 none 4, .copyChunkRange 1 2 0 9, .attachChunk ⟨2, 0, 0, 4, "second", 51⟩,
    .commitVersion ⟨0, 2, 2, some 1⟩ 4 "second", .createStagingVersion 0 (some 2) 4, .reconcileNodeSizes]

def performed (cfg : Config) (calls : List Call) : World :=
  calls.foldl (fun w c => (perform cfg noFaults w c).2) (World.fresh 0)

theorem history_both : Both (sample .memory) (sample .postgres) Common
    (performed (sample .memory) history) (performed (sample .postgres) history) := by
  have hfirst : Both (sample .memory) (sample .postgres) Common _ _ :=
    .step (c := .createStagingVersion 0 none 4) (.start (fresh_begun 0)) rfl (.inr nofun)
  have hattached := hfirst.step (c := .attachChunk ⟨1, 0, 0, 4, "first", 50⟩) rfl ⟨rfl, by decide⟩
  have hcommitted := hattached.step (c := .commitVersion ⟨0, 1, 1, none⟩ 4 "first") rfl fun _ _ _ _ =>
    ⟨by decide, fun version hversion => by cases hversion; rfl⟩
  have hsecond := hcommitted.step (c := .createStagingVersion 0 none 4) rfl (.inr nofun)
  have hcopied := hsecond.step (c := .copyChunkRange 1 2 0 9) rfl (.inr (.inr rfl))
  have hreplaced := hcopied.step (c := .attachChunk ⟨2, 0, 0, 4, "second", 51⟩) rfl ⟨rfl, by decide⟩
  have hcurrent := hreplaced.step (c := .commitVersion ⟨0, 2, 2, some 1⟩ 4 "second") rfl fun _ _ _ _ =>
    ⟨by decide, fun version hversion => by cases hversion; rfl⟩
  have hthird := hcurrent.step (c := .createStagingVersion 0 (some 2) 4) rfl (.inr fun id hid => by cases hid; rfl)
  exact hthird.step (c := .reconcileNodeSizes) rfl fun entry hentry => by cases hentry

theorem agree_on_history :
    Same (.query (.collectableObjects 4 9))
      (perform (sample .memory) noFaults (performed (sample .memory) history) (.query (.collectableObjects 4 9))).1
      (perform (sample .postgres) noFaults (performed (sample .postgres) history) (.query (.collectableObjects 4 9))).1
    ∧ Same (.purgeEmptyDeadVersions 4)
      (perform (sample .memory) noFaults (performed (sample .memory) (history ++ [.forgetObject 50]))
        (.purgeEmptyDeadVersions 4)).1
      (perform (sample .postgres) noFaults (performed (sample .postgres) (history ++ [.forgetObject 50]))
        (.purgeEmptyDeadVersions 4)).1 := by
  have hforgotten := history_both.step (c := .forgetObject 50) rfl trivial
  let m := performed (sample .memory) (history ++ [.forgetObject 50])
  have hnodes : ∀ entry ∈ m.nodes.entries, entry.1 = 0 := by decide
  have howned : ∀ version ∈ values m.versions, version.nodeId = 0 := by decide
  have hbases : ∀ entry ∈ m.versions.entries, ∀ base ∈ entry.2.baseVersionId,
      base ∉ m.doomedVersions .memory 4 := by decide
  refine ⟨repositories_agree rfl rfl history_both rfl ⟨by decide, rfl⟩,
    repositories_agree rfl rfl hforgotten rfl ⟨?_, ?_⟩⟩
  · intro id node version hnode hversion _
    exact (howned version hversion).trans (hnodes _ (lookup_eq_some_iff.mp hnode)).symm
  · intro id version base hversion _ hbase
    exact hbases _ (lookup_eq_some_iff.mp hversion) base hbase

theorem repositories_differ :
    (∃ m p, Both (sample .memory) (sample .postgres) (fun _ _ _ => True) m p
      ∧ ¬ Same (.query (.getChunkRange 1 0 9))
        (perform (sample .memory) noFaults m (.query (.getChunkRange 1 0 9))).1
        (perform (sample .postgres) noFaults p (.query (.getChunkRange 1 0 9))).1)
    ∧ ∃ m p, Both (sample .memory) (sample .postgres) (fun _ _ _ => True) m p
      ∧ ¬ Same (.commitVersion ⟨0, 1, 1, some 1⟩ 0 "")
        (perform (sample .memory) noFaults m (.commitVersion ⟨0, 1, 1, some 1⟩ 0 "")).1
        (perform (sample .postgres) noFaults p (.commitVersion ⟨0, 1, 1, some 1⟩ 0 "")).1 := by
  -- Only the memory repository knows that a version is unknown, and only the database that one is committed.
  have hcommitted : Both (sample .memory) (sample .postgres) (fun _ _ _ => True) _ _ :=
    .step (c := .commitVersion ⟨0, 1, 1, none⟩ 0 "")
      (.step (c := .createStagingVersion 0 none 4) (.start (fresh_begun 0)) rfl trivial) rfl trivial
  refine ⟨⟨_, _, .start (fresh_begun 0), nofun⟩, _, _, hcommitted, ?_⟩
  intro h
  cases h

end Dcfs.Backends
