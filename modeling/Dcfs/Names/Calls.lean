import Dcfs.Metadata.Nodes
import Mathlib.Tactic.SplitIfs
import Mathlib.Tactic.Tauto

namespace Dcfs

open Tables World

inductive NameCall
  | createNode (id parentId : Uuid) (name : Bytes) (kind : NodeKind) (mode uid gid : ℤ)
  | createSymlink (id parentId : Uuid) (name target : Bytes) (uid gid : ℤ)
  | deleteNode (id : Uuid)
  | renameNode (id newParentId : Uuid) (newName : Bytes)
  | publishNode (id newParentId : Uuid) (newName : Bytes)

namespace World

def named (w : World) (backend : Backend) : NameCall → World
  | .createNode id parentId name kind mode uid gid => (w.createNode backend id parentId name kind mode uid gid).2
  | .createSymlink id parentId name target uid gid => (w.createSymlink backend id parentId name target uid gid).2
  | .deleteNode id => (w.deleteNode backend id).2
  | .renameNode id newParentId newName => (w.renameNode backend id newParentId newName).2
  | .publishNode id newParentId newName => (w.publishNode backend id newParentId newName).2

end World

variable {w : World} {backend : Backend} {id parentId : Uuid} {name : Bytes}

theorem mem_childrenOf {node : NodeRecord} :
    node ∈ w.childrenOf parentId ↔ (∃ id, w.nodes.lookup id = some node) ∧ node.parentId = some parentId := by
  rw [World.childrenOf, List.mem_filter, mem_values, beq_iff_eq]

theorem World.mem_listed {child : NodeRecord} : child ∈ w.listed backend id ↔ child ∈ w.childrenOf id := by
  cases backend with
  | memory => exact .rfl
  | postgres => exact List.mem_insertionSort _

theorem namedChild_eq_none : w.namedChild parentId name = none ↔
    ∀ id node, w.nodes.lookup id = some node → node.parentId = some parentId → node.name ≠ name := by
  rw [World.namedChild, List.find?_eq_none]
  simp only [mem_childrenOf, beq_iff_eq]
  exact ⟨fun h id node hnode hparent => h node ⟨⟨id, hnode⟩, hparent⟩,
    fun h node ⟨⟨id, hnode⟩, hparent⟩ => h id node hnode hparent⟩

theorem lookup_dropNode {i : Uuid} {node : NodeRecord} :
    (w.dropNode backend id).nodes.lookup i = some node ↔ i ≠ id ∧ w.nodes.lookup i = some node := by
  have herased : (w.dropNode backend id).nodes = w.nodes.erase id := by
    unfold World.dropNode
    split <;> rfl
  rw [herased, lookup_erase]
  split_ifs with hi <;> simp [hi]

theorem dropNode_rootId : (w.dropNode backend id).rootId = w.rootId := by
  unfold World.dropNode
  split <;> rfl

namespace World

def Live (w : World) (id : Uuid) : Prop := (w.nodes.lookup id).isSome

instance (w : World) (id : Uuid) : Decidable (w.Live id) :=
  inferInstanceAs (Decidable ((w.nodes.lookup id).isSome = true))

end World

theorem live_of_lookup {node : NodeRecord} (h : w.nodes.lookup id = some node) : w.Live id :=
  Option.isSome_of_mem h

theorem live_of_not_isNone (h : ¬ (w.nodes.lookup id).isNone = true) : w.Live id := by
  rwa [World.Live, ← Option.not_isNone, Bool.not_eq_true', ← Bool.not_eq_true]

def NameFree (w : World) (id parentId : Uuid) (name : Bytes) : Prop :=
  ∀ child ∈ w.childrenOf parentId, child.id ≠ id → child.name ≠ name

inductive NameEffect (w : World) (backend : Backend) : NameCall → World → Prop
  | refused {call : NameCall} : NameEffect w backend call w
  | created {id parentId : Uuid} {name : Bytes} {kind : NodeKind} {mode uid gid : ℤ} :
      w.nodes.lookup id = none →
      (backend = .postgres → w.hasRow id = false ∧ w.namedChild parentId name = none) →
      NameEffect w backend (.createNode id parentId name kind mode uid gid)
        (w.insertNode (w.newNode id parentId name kind mode uid gid 0 none)).2
  | linked {id parentId : Uuid} {name target : Bytes} {uid gid : ℤ} :
      w.nodes.lookup id = none → w.namedChild parentId name = none → (backend = .postgres → w.hasRow id = false) →
      NameEffect w backend (.createSymlink id parentId name target uid gid)
        (w.insertNode (w.newNode id parentId name .symlink 0o120777 uid gid (Machine.asI64 target.length)
          (some target))).2
  | deleted {id : Uuid} : w.Live id → NameEffect w backend (.deleteNode id) (w.dropNode backend id)
  | renamed {id newParentId : Uuid} {newName : Bytes} : w.Live id → NameFree w id newParentId newName →
      NameEffect w backend (.renameNode id newParentId newName) (w.moveNode id newParentId newName)
  | replaced {id newParentId : Uuid} {newName : Bytes} {victim : NodeRecord} : w.Live id →
      victim ∈ w.childrenOf newParentId → victim.id ≠ id → victim.name = newName →
      (victim.kind = .directory → w.childrenOf victim.id = []) →
      NameEffect w backend (.renameNode id newParentId newName)
        ((w.dropNode backend victim.id).moveNode id newParentId newName)
  | published {id newParentId : Uuid} {newName : Bytes} : w.Live id → NameFree w id newParentId newName →
      NameEffect w backend (.publishNode id newParentId newName) (w.moveNode id newParentId newName)

theorem insertNodeRow_cases (w : World) (parentId : Uuid) (node : NodeRecord) :
    (w.insertNodeRow parentId node).2 = w ∨ (w.hasRow node.id = false ∧ w.namedChild parentId node.name = none
      ∧ (w.insertNodeRow parentId node).2 = (w.insertNode node).2) := by
  unfold World.insertNodeRow
  split_ifs with htaken
  · exact .inl rfl
  · exact .inl rfl
  · rw [Bool.or_eq_true, not_or, Bool.not_eq_true, Option.not_isSome_iff_eq_none] at htaken
    exact .inr ⟨htaken.1, htaken.2, rfl⟩

theorem lookup_of_hasRow (h : w.hasRow id = false) : w.nodes.lookup id = none := by
  rw [World.hasRow, Bool.or_eq_false_iff] at h
  exact Option.isSome_eq_false_iff.mp h.1 |> Option.isNone_iff_eq_none.mp

theorem renameNode_effect (w : World) (backend : Backend) (id newParentId : Uuid) (newName : Bytes) :
    NameEffect w backend (.renameNode id newParentId newName) (w.renameNode backend id newParentId newName).2 := by
  unfold World.renameNode
  cases hvictim : (w.childrenOf newParentId).find? (fun n => n.id != id && n.name == newName) with
  | none =>
    have hfree : NameFree w id newParentId newName := by
      intro child hchild hne hname
      simpa [hne, hname] using List.find?_eq_none.mp hvictim child hchild
    have hmoved : w.Live id → NameEffect w backend (.renameNode id newParentId newName)
      (w.moveNode id newParentId newName) := fun hid => .renamed hid hfree
    cases backend <;> dsimp only <;> split_ifs <;> first | exact .refused | skip
    all_goals exact hmoved (live_of_not_isNone (by assumption))
  | some victim =>
    have hfound : victim.id ≠ id ∧ victim.name = newName := by simpa using List.find?_some hvictim
    have hreplaced : w.Live id → ¬ (victim.kind == .directory && !(w.childrenOf victim.id).isEmpty) = true →
        NameEffect w backend (.renameNode id newParentId newName)
          ((w.dropNode backend victim.id).moveNode id newParentId newName) := by
      intro hid hblocked
      refine .replaced hid (List.mem_of_find?_eq_some hvictim) hfound.1 hfound.2 fun hkind => ?_
      simpa [hkind] using hblocked
    cases backend <;> dsimp only <;> split_ifs <;> first | exact .refused | skip
    all_goals exact hreplaced (live_of_not_isNone (by assumption)) (by assumption)

theorem named_effect (w : World) (backend : Backend) (call : NameCall) :
    NameEffect w backend call (w.named backend call) := by
  cases call with
  | createNode id parentId name kind mode uid gid =>
    cases backend with
    | memory =>
      simp only [World.named, World.createNode]
      split_ifs with hid
      · exact .refused
      · exact .created (Option.not_isSome_iff_eq_none.mp hid) nofun
    | postgres =>
      rcases insertNodeRow_cases w parentId (w.newNode id parentId name kind mode uid gid 0 none)
        with hsame | ⟨hid, hname, hnew⟩
      · exact (congrArg (NameEffect w _ _) hsame).mpr .refused
      · exact (congrArg (NameEffect w _ _) hnew).mpr (.created (lookup_of_hasRow hid) fun _ => ⟨hid, hname⟩)
  | createSymlink id parentId name target uid gid =>
    cases backend with
    | memory =>
      simp only [World.named, World.createSymlink]
      split_ifs with hid hname
      · exact .refused
      · exact .refused
      · exact .linked (Option.not_isSome_iff_eq_none.mp hid) (Option.not_isSome_iff_eq_none.mp hname) nofun
    | postgres =>
      rcases insertNodeRow_cases w parentId (w.newNode id parentId name .symlink 0o120777 uid gid
        (Machine.asI64 target.length) (some target)) with hsame | ⟨hid, hname, hnew⟩
      · exact (congrArg (NameEffect w _ _) hsame).mpr .refused
      · exact (congrArg (NameEffect w _ _) hnew).mpr (.linked (lookup_of_hasRow hid) hname fun _ => hid)
  | deleteNode id =>
    simp only [World.named, World.deleteNode]
    cases hnode : w.nodes.lookup id with
    | none => exact .refused
    | some node => exact .deleted (live_of_lookup hnode)
  | renameNode id newParentId newName => exact renameNode_effect w backend id newParentId newName
  | publishNode id newParentId newName =>
    simp only [World.named, World.publishNode]
    split_ifs with hid htaken
    · exact .refused
    · exact .refused
    · exact .refused
    · refine .published (live_of_not_isNone hid) fun child hchild hne hname => htaken ?_
      exact List.any_eq_true.mpr ⟨child, hchild, by simp [hne, hname]⟩

def NodeRecord.place (node : NodeRecord) : Uuid × Option Uuid × NodeKind := (node.id, node.parentId, node.kind)

structure SamePlaces (w u : World) : Prop where
  rootId : u.rootId = w.rootId
  place : ∀ i, (u.nodes.lookup i).map NodeRecord.place = (w.nodes.lookup i).map NodeRecord.place

theorem SamePlaces.symm {u : World} (h : SamePlaces w u) : SamePlaces u w :=
  ⟨h.rootId.symm, fun i => (h.place i).symm⟩

theorem SamePlaces.lookup {u : World} (h : SamePlaces w u) {i : Uuid} {node : NodeRecord}
    (hnode : u.nodes.lookup i = some node) : ∃ old, w.nodes.lookup i = some old ∧ old.id = node.id
      ∧ old.parentId = node.parentId ∧ old.kind = node.kind := by
  have hplace := h.place i
  rw [hnode] at hplace
  obtain ⟨old, hold, heq⟩ := Option.map_eq_some_iff.mp hplace.symm
  simp only [NodeRecord.place, Prod.mk.injEq] at heq
  exact ⟨old, hold, heq⟩

theorem updateNodeAttr_places (w : World) (id : Uuid) (mode uid gid size : Option ℤ) (mtime atime : Option Time) :
    SamePlaces w (w.updateNodeAttr id mode uid gid size mtime atime).2 := by
  unfold World.updateNodeAttr
  cases hnode : w.nodes.lookup id with
  | none => exact ⟨rfl, fun _ => rfl⟩
  | some node =>
    refine ⟨rfl, fun i => ?_⟩
    dsimp only
    rw [lookup_insert]
    split_ifs with hi
    · rw [hi, hnode]
      rfl
    · rfl

end Dcfs
