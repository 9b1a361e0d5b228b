import Dcfs.Versions.Backends

namespace Dcfs.Backends

open Tables World

variable {m p : World}

section rows

theorem attachChunk_alike (h : Agree m p) {row : FileChunkRecord}
    (hknown : (m.versions.lookup row.versionId).isSome) :
    Alike (m.attachChunk .memory row) (p.attachChunk .postgres row) := by
  have hp : (p.versions.lookup row.versionId).isSome := h.versions ▸ hknown
  unfold World.attachChunk
  simp only [h.entries hknown, hp, ↓reduceIte, h.rows]
  exact ⟨rfl, h.setRows _ _⟩

theorem getChunkRange_same (h : Agree m p) {versionId : Uuid} {first last : ℤ}
    (hknown : (m.versions.lookup versionId).isSome) :
    p.getChunkRange .postgres versionId first last = m.getChunkRange .memory versionId first last := by
  simp only [World.getChunkRange, h.entries hknown, ↓reduceIte, h.rowsBetween]

theorem Agree.setRows_self (h : Agree m p) (versionId : Uuid) :
    Agree (m.setRows versionId (m.rowsOf versionId)) p where
  now := h.now
  nextUuid := h.nextUuid
  nodes := h.nodes
  deleted := h.deleted
  versions := h.versions
  rows id := by
    rw [h.rows, World.rowsOf, World.rowsOf, World.setRows, lookup_insert]
    split_ifs with heq
    · rw [heq]
      rfl
    · rfl
  entries {id} hid := by
    simp only [World.setRows, lookup_insert]
    split_ifs
    · rfl
    · exact h.entries hid

theorem copyChunkRange_alike (h : Agree m p) {fromVersion toVersion : Uuid} {first last : ℤ}
    (hknown : last < first ∨ m.rowsBetween fromVersion first last = [] ∨ (m.versions.lookup toVersion).isSome) :
    Alike (m.copyChunkRange .memory fromVersion toVersion first last)
      (p.copyChunkRange .postgres fromVersion toVersion first last) := by
  unfold World.copyChunkRange
  by_cases hrange : last < first
  · simp only [if_pos hrange]
    exact ⟨rfl, h⟩
  simp only [if_neg hrange, h.rowsBetween, h.rows, h.versions]
  cases hto : m.versions.lookup toVersion with
  | some version => exact ⟨rfl, h.setRows _ _⟩
  | none =>
    have hnone : m.rowsBetween fromVersion first last = [] := by
      rcases hknown with hlt | hnone | hsome
      · exact absurd hlt hrange
      · exact hnone
      · rw [hto] at hsome
        cases hsome
    rw [hnone]
    exact ⟨(congrArg Except.ok (Nat.sub_self _)).symm, h.setRows_self _⟩

end rows

section commits

variable {guard : CommitGuard} {totalSize : ℤ} {plaintextHash : String}

theorem isSome_supersede (old : Option Uuid) (versions : Table Uuid FileVersionRecord) (id : Uuid) :
    ((supersede old versions).lookup id).isSome = (versions.lookup id).isSome := by
  cases old with
  | none => rfl
  | some current =>
    rw [supersede, lookup_modify]
    split_ifs
    · exact Option.isSome_map
    · rfl

theorem switchTo_agrees (h : Agree m p) (a : NodeRecord) (mtime ctime : Time) (version : FileVersionRecord)
    (hknown : (m.versions.lookup guard.versionId).isSome) :
    Agree (m.switchTo .memory guard.nodeId guard.versionId a version)
      (p.switchTo .postgres guard.nodeId guard.versionId { a with mtime := mtime, ctime := ctime } version) where
  now := congrArg (· + 1) h.now
  nextUuid := h.nextUuid
  nodes id := by
    refine h.insert_node ?_ guard.nodeId id
    rfl
  deleted := h.deleted
  versions := by
    simp only [World.switchTo, h.versions]
  rows := h.rows
  entries {id} hid := by
    refine h.entries ?_
    simp only [World.switchTo, lookup_insert] at hid
    split_ifs at hid with heq
    · rw [heq]
      exact hknown
    · rwa [isSome_supersede] at hid

theorem commitVersion_alike (h : Agree m p)
    (hstaging : ∀ node version, m.nodes.lookup guard.nodeId = some node →
      node.generation = guard.expectedGeneration → node.currentVersionId = guard.expectedCurrentVersion →
      m.versions.lookup guard.versionId = some version → version.state = .staging) :
    Alike (m.commitVersion .memory guard totalSize plaintextHash)
      (p.commitVersion .postgres guard totalSize plaintextHash) := by
  unfold World.commitVersion
  rcases h.node guard.nodeId with ⟨hm, hp⟩ | ⟨a, mtime, ctime, hm, hp⟩
  · rw [hm, hp]
    exact ⟨rfl, h⟩
  rw [hm, hp]
  dsimp only
  split_ifs with hconflict
  · exact ⟨rfl, h⟩
  obtain ⟨hgeneration, hcurrent⟩ := not_or.mp hconflict
  rw [h.versions]
  cases hv : m.versions.lookup guard.versionId with
  | none => exact ⟨rfl, h⟩
  | some version =>
    have hstate := hstaging a version hm (not_not.mp hgeneration) (not_not.mp hcurrent) hv
    have hcommitted : p.committed version totalSize plaintextHash = m.committed version totalSize plaintextHash := by
      simp only [World.committed, h.now]
    simp only [hstate, ne_eq, not_true_eq_false, and_false, ↓reduceIte, hcommitted]
    refine ⟨rfl, switchTo_agrees h a mtime ctime _ ?_⟩
    rw [hv]
    rfl

theorem Agree.reconciled (h : Agree m p) : p.reconciled = m.reconciled := by
  have hsize : p.committedSize = m.committedSize := by
    funext node
    rw [World.committedSize, h.versions]
    rfl
  have hstaging : p.stagingOf = m.stagingOf := by
    funext id
    rw [World.stagingOf, h.versions]
    rfl
  funext node
  rw [World.reconciled, hsize, hstaging]
  rfl

theorem untimed_reconciled (w : World) (node : NodeRecord) :
    untimed (w.reconciled node) = w.reconciled (untimed node) := by
  unfold World.reconciled
  split_ifs <;> first | rfl | contradiction

def misjudged (w : World) (node : NodeRecord) : Bool := (w.reconciled node).size != node.size

theorem misjudged_untimed (w : World) : misjudged w ∘ untimed = misjudged w := by
  funext node
  rw [Function.comp_apply, misjudged, ← untimed_reconciled]
  rfl

theorem Agree.nodes_perm (h : Agree m p) : ((values p.nodes).map untimed).Perm ((values m.nodes).map untimed) := by
  rw [← values_mapValues, ← values_mapValues]
  refine values_perm fun id => ?_
  rw [lookup_mapValues, lookup_mapValues]
  exact h.nodes id

theorem reconcileNodeSizes_alike (h : Agree m p)
    (hdeleted : ∀ entry ∈ values p.deletedNodes, (p.reconciled entry.1).size = entry.1.size) :
    Alike m.reconcileNodeSizes p.reconcileNodeSizes := by
  have hnone : ((values p.deletedNodes).map Prod.fst).countP (misjudged p) = 0 := by
    rw [List.countP_map, List.countP_eq_zero]
    intro entry hentry
    simp [misjudged, hdeleted entry hentry]
  have hlive : (values p.nodes).countP (misjudged p) = (values m.nodes).countP (misjudged m) := by
    have hsame : misjudged p = misjudged m := by
      funext node
      simp only [misjudged, h.reconciled]
    rw [hsame, ← misjudged_untimed, ← List.countP_map, ← List.countP_map]
    exact h.nodes_perm.countP_eq _
  refine ⟨congrArg Except.ok ?_, ?_⟩
  · change (values p.nodes ++ (values p.deletedNodes).map Prod.fst).countP (misjudged p)
      = (values m.nodes ++ (values m.deletedNodes).map Prod.fst).countP (misjudged m)
    rw [List.countP_append, hnone, hlive, h.deleted]
    exact congrArg (List.countP (misjudged m)) (List.append_nil _).symm
  · refine ⟨h.now, h.nextUuid, fun id => ?_, ?_, h.versions, h.rows, h.entries⟩
    · simp only [World.reconcileNodeSizes, lookup_mapValues, Option.map_map, h.reconciled]
      have hcomp : untimed ∘ m.reconciled = m.reconciled ∘ untimed := funext (untimed_reconciled m)
      rw [hcomp, ← Option.map_map, ← Option.map_map, h.nodes]
    · simp only [World.reconcileNodeSizes, h.deleted]
      rfl

end commits

end Dcfs.Backends
