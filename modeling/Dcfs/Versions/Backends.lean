import Dcfs.Server.Api

/-! The memory repository and the database, operated in step: what both of them hold. -/

namespace Dcfs.Backends

open Tables World

variable {m p : World}

def untimed (node : NodeRecord) : NodeRecord := { node with mtime := 0, ctime := 0 }

structure Agree (m p : World) : Prop where
  now : p.now = m.now
  nextUuid : p.nextUuid = m.nextUuid
  nodes : ∀ id, (p.nodes.lookup id).map untimed = (m.nodes.lookup id).map untimed
  deleted : m.deletedNodes = ∅
  versions : p.versions = m.versions
  rows : ∀ id, p.rowsOf id = m.rowsOf id
  entries : ∀ {id}, (m.versions.lookup id).isSome → (m.chunks.lookup id).isSome

def Alike {α : Type} (r r' : Answer α × World) : Prop := r'.1 = r.1 ∧ Agree r.2 r'.2

namespace Agree

theorem node (h : Agree m p) (id : Uuid) : (m.nodes.lookup id = none ∧ p.nodes.lookup id = none)
    ∨ ∃ a mtime ctime, m.nodes.lookup id = some a
      ∧ p.nodes.lookup id = some { a with mtime := mtime, ctime := ctime } := by
  have hid := h.nodes id
  cases hm : m.nodes.lookup id with
  | none =>
    rw [hm] at hid
    exact .inl ⟨rfl, Option.map_eq_none_iff.mp hid⟩
  | some a =>
    rw [hm] at hid
    obtain ⟨b, hb, heq⟩ := Option.map_eq_some_iff.mp hid
    refine .inr ⟨a, b.mtime, b.ctime, rfl, hb.trans (congrArg some ?_)⟩
    cases a
    cases b
    cases heq
    rfl

theorem insert_node (h : Agree m p) {a b : NodeRecord} (hab : untimed b = untimed a) (nodeId id : Uuid) :
    ((p.nodes.insert nodeId b).lookup id).map untimed = ((m.nodes.insert nodeId a).lookup id).map untimed := by
  rw [lookup_insert, lookup_insert]
  split_ifs
  · exact congrArg some hab
  · exact h.nodes id

theorem isCurrent (h : Agree m p) (version : FileVersionRecord) : p.isCurrent version = m.isCurrent version := by
  unfold World.isCurrent
  rcases h.node version.nodeId with ⟨hm, hp⟩ | ⟨a, mtime, ctime, hm, hp⟩
  · rw [hm, hp]
  · rw [hm, hp]

theorem rowsBetween (h : Agree m p) (versionId : Uuid) (first last : ℤ) :
    p.rowsBetween versionId first last = m.rowsBetween versionId first last := by
  rw [World.rowsBetween, h.rows]
  rfl

theorem setRows (h : Agree m p) (versionId : Uuid) (rows : List FileChunkRecord) :
    Agree (m.setRows versionId rows) (p.setRows versionId rows) where
  now := h.now
  nextUuid := h.nextUuid
  nodes := h.nodes
  deleted := h.deleted
  versions := h.versions
  rows id := by
    have hid := h.rows id
    simp only [World.rowsOf, World.setRows, lookup_insert] at hid ⊢
    split_ifs
    · rfl
    · exact hid
  entries {id} hid := by
    simp only [World.setRows, lookup_insert]
    split_ifs
    · rfl
    · exact h.entries hid

end Agree

section versions

variable {nodeId : Uuid} {base : Option Uuid} {chunkSize : ℤ}

theorem addVersion_agrees (h : Agree m p) (a : NodeRecord) (mtime ctime : Time) (version : FileVersionRecord) :
    Agree (m.addVersion nodeId a version)
      (p.addVersion nodeId { a with mtime := mtime, ctime := ctime } version) where
  now := congrArg (· + 1) h.now
  nextUuid := congrArg (· + 1) h.nextUuid
  nodes id := by
    refine h.insert_node ?_ nodeId id
    rfl
  deleted := h.deleted
  versions := by
    simp only [World.addVersion, h.versions, h.nextUuid]
  rows id := by
    have hid := h.rows id
    simp only [World.rowsOf, World.addVersion, lookup_insert, h.nextUuid] at hid ⊢
    split_ifs
    · rfl
    · exact hid
  entries {id} hid := by
    simp only [World.addVersion, lookup_insert] at hid ⊢
    split_ifs at hid ⊢
    · rfl
    · exact h.entries hid

theorem createStagingVersion_alike (h : Agree m p)
    (hbase : m.nodes.lookup nodeId = none ∨ ∀ id ∈ base, (m.versions.lookup id).isSome) :
    Alike (m.createStagingVersion .memory nodeId base chunkSize)
      (p.createStagingVersion .postgres nodeId base chunkSize) := by
  unfold World.createStagingVersion
  rcases h.node nodeId with ⟨hm, hp⟩ | ⟨a, mtime, ctime, hm, hp⟩
  · rw [hm, hp]
    exact ⟨rfl, h⟩
  · have hknown : base.any (fun id => (p.versions.lookup id).isNone) = false := by
      rw [h.versions]
      cases base with
      | none => rfl
      | some id =>
        have hid := (hbase.resolve_left (by simp [hm])) id rfl
        simpa [Option.isSome_iff_ne_none] using hid
    have hnew : p.newVersion nodeId base chunkSize = m.newVersion nodeId base chunkSize := by
      simp only [World.newVersion, h.nextUuid, h.now]
    rw [hm, hp]
    simp only [hknown, Bool.and_false, Bool.false_eq_true, ↓reduceIte, hnew]
    exact ⟨rfl, addVersion_agrees h a mtime ctime _⟩

theorem findOpenStagingVersion_same (h : Agree m p) :
    p.findOpenStagingVersion nodeId = m.findOpenStagingVersion nodeId := by
  simp only [World.findOpenStagingVersion, World.stagingOf, h.versions]

theorem touchStagingVersion_alike (h : Agree m p) (versionId : Uuid) (size : ℤ) :
    Alike (m.touchStagingVersion versionId size) (p.touchStagingVersion versionId size) := by
  refine ⟨rfl, ⟨congrArg (· + 1) h.now, h.nextUuid, h.nodes, h.deleted, ?_, h.rows, fun {id} hid => h.entries ?_⟩⟩
  · simp only [World.touchStagingVersion, h.versions, h.now]
  · simp only [World.touchStagingVersion, lookup_modify] at hid
    split_ifs at hid
    · rwa [Option.isSome_map] at hid
    · exact hid

end versions

end Dcfs.Backends
