import Dcfs.Library.Forest
import Dcfs.Names.Unique

/-! The live nodes as a tree, and which calls on the names keep it one. -/

namespace Dcfs

open Forests Relation Tables World

namespace World

def parentOf (w : World) (id : Uuid) : Option Uuid := (w.nodes.lookup id).bind NodeRecord.parentId

abbrev Below (w : World) (a b : Uuid) : Prop := Above w.parentOf a b

end World

structure Tree (w : World) : Prop where
  rootId_eq : w.rootId = (World.fresh 0).rootId
  id_eq : ∀ {id node}, w.nodes.lookup id = some node → node.id = id
  root : ∃ node, w.nodes.lookup w.rootId = some node ∧ node.parentId = none ∧ node.kind = .directory
  rooted : ∀ {id node}, w.nodes.lookup id = some node → w.Below id w.rootId

variable {w u : World} {backend : Backend} {id parentId : Uuid} {name : Bytes}

theorem parentOf_eq_some {parent : Uuid} :
    w.parentOf id = some parent ↔ ∃ node, w.nodes.lookup id = some node ∧ node.parentId = some parent :=
  Option.bind_eq_some_iff

theorem childrenOf_eq_nil : w.childrenOf parentId = [] ↔ ∀ id, w.parentOf id ≠ some parentId := by
  rw [List.eq_nil_iff_forall_not_mem]
  constructor
  · intro h id hid
    obtain ⟨node, hnode, hparent⟩ := parentOf_eq_some.mp hid
    exact h node (mem_childrenOf.mpr ⟨⟨id, hnode⟩, hparent⟩)
  · intro h node hnode
    obtain ⟨⟨id, hid⟩, hparent⟩ := mem_childrenOf.mp hnode
    exact h id (parentOf_eq_some.mpr ⟨node, hid, hparent⟩)

namespace Tree

theorem fresh (now : Time) : Tree (World.fresh now) := by
  have hroot : ∀ {id node}, (World.fresh now).nodes.lookup id = some node → id = 0 := by
    intro id node h
    exact (World.lookup_fresh h).1
  exact ⟨rfl, (UniqueNames.fresh now).id_eq, ⟨_, rfl, rfl, rfl⟩, fun h => hroot h ▸ .refl⟩

theorem parentOf_root (h : Tree w) : w.parentOf w.rootId = none := by
  obtain ⟨node, hnode, hparent, -⟩ := h.root
  rw [World.parentOf, hnode, Option.bind_some, hparent]

theorem acyclic (h : Tree w) {node : NodeRecord} (hnode : w.nodes.lookup id = some node) :
    ¬ TransGen (Up w.parentOf) id id :=
  not_above_self h.parentOf_root (h.rooted hnode)

theorem parent_live (h : Tree w) {parent : Uuid} (hid : w.parentOf id = some parent) : w.Live parent := by
  obtain ⟨node, hnode, hparent⟩ := parentOf_eq_some.mp hid
  have hup := h.rooted hnode
  rcases hup.cases_head with rfl | ⟨next, hnext, habove⟩
  · rw [h.parentOf_root] at hid
    cases hid
  · obtain rfl : next = parent := Option.some.inj (hnext.symm.trans hid)
    rcases habove.cases_head with rfl | ⟨above, hup, -⟩
    · obtain ⟨root, hroot, -⟩ := h.root
      exact live_of_lookup hroot
    · obtain ⟨node, hnode, -⟩ := parentOf_eq_some.mp hup
      exact live_of_lookup hnode

theorem below_live (h : Tree w) (hid : w.Live id) {above : Uuid} (hbelow : w.Below id above) : w.Live above := by
  rcases hbelow.cases_tail with rfl | ⟨last, -, hlast⟩
  · exact hid
  · exact h.parent_live hlast

theorem relink (h : Tree w) (node : NodeRecord) (hrootId : u.rootId = w.rootId)
    (hnodes : ∀ i, u.nodes.lookup i = if i = id then some node else w.nodes.lookup i)
    (hid : node.id = id) (hparent : node.parentId = some parentId) (hlive : w.Live parentId)
    (hroot : id ≠ w.rootId) (hbelow : ¬ w.Below parentId id) : Tree u := by
  have hother : ∀ i, i ≠ id → u.parentOf i = w.parentOf i := by
    intro i hi
    rw [World.parentOf, hnodes, if_neg hi, World.parentOf]
  have hnew : u.parentOf id = some parentId := by
    rw [World.parentOf, hnodes, if_pos rfl, Option.bind_some, hparent]
  obtain ⟨parent, hparent⟩ := Option.isSome_iff_exists.mp hlive
  have hup : w.Below parentId w.rootId := h.rooted hparent
  refine ⟨hrootId.trans h.rootId_eq, fun {i other} hi => ?_, ?_, fun {i other} hi => ?_⟩
  · rw [hnodes] at hi
    split_ifs at hi with heq
    · cases hi
      exact hid.trans heq.symm
    · exact h.id_eq hi
  · obtain ⟨root, hlookup, hnone⟩ := h.root
    refine ⟨root, ?_, hnone⟩
    rw [hrootId, hnodes, if_neg hroot.symm, hlookup]
  · rw [hrootId]
    rw [hnodes] at hi
    split_ifs at hi with heq
    · subst heq
      exact .head hnew (hup.of_avoids hother hbelow)
    · exact (h.rooted hi).reparent hother hnew hup hbelow

theorem insert (h : Tree w) {node : NodeRecord} (hfresh : w.nodes.lookup node.id = none)
    (hparent : node.parentId = some parentId) (hlive : w.Live parentId) : Tree (w.insertNode node).2 := by
  have hdead : ¬ w.Live node.id := by
    rw [World.Live, hfresh]
    exact Bool.false_ne_true
  refine h.relink node rfl (fun i => lookup_insert _ _ _ _) rfl hparent hlive ?_ fun hbelow => ?_
  · rintro hroot
    obtain ⟨root, hlookup, -⟩ := h.root
    exact hdead (hroot ▸ live_of_lookup hlookup)
  · exact hdead (h.below_live hlive hbelow)

theorem moved (h : Tree w) (hid : w.Live id) (hlive : w.Live parentId) (hroot : id ≠ w.rootId)
    (hbelow : ¬ w.Below parentId id) : Tree (w.moveNode id parentId name) := by
  obtain ⟨node, hnode⟩ := Option.isSome_iff_exists.mp hid
  have hkept : node.id = id := h.id_eq hnode
  refine h.relink { node with parentId := some parentId, name := name, ctime := w.now } rfl (fun i => ?_)
    hkept rfl hlive hroot hbelow
  rw [World.moveNode, lookup_modify]
  split_ifs with hi
  · rw [hi, hnode]
    rfl
  · rfl

theorem dropped (h : Tree w) (hroot : id ≠ w.rootId) (hleaf : w.childrenOf id = []) :
    Tree (w.dropNode backend id) := by
  have hrootId : (w.dropNode backend id).rootId = w.rootId := dropNode_rootId
  have hother : ∀ i, i ≠ id → (w.dropNode backend id).parentOf i = w.parentOf i := by
    intro i hi
    have hlookup : (w.dropNode backend id).nodes.lookup i = w.nodes.lookup i :=
      Option.ext fun node => by rw [lookup_dropNode, and_iff_right hi]
    rw [World.parentOf, hlookup, World.parentOf]
  refine ⟨hrootId.trans h.rootId_eq, fun hi => h.id_eq (lookup_dropNode.mp hi).2, ?_, fun hi => ?_⟩
  · obtain ⟨root, hlookup, hnone⟩ := h.root
    exact ⟨root, hrootId ▸ lookup_dropNode.mpr ⟨hroot.symm, hlookup⟩, hnone⟩
  · obtain ⟨hne, hold⟩ := lookup_dropNode.mp hi
    rw [hrootId]
    exact (h.rooted hold).of_leaf hother (childrenOf_eq_nil.mp hleaf) hne

end Tree

theorem SamePlaces.parentOf (h : SamePlaces w u) : u.parentOf = w.parentOf := by
  have hparent : ∀ {w u : World}, SamePlaces w u → ∀ i p, u.parentOf i = some p → w.parentOf i = some p := by
    intro w u h i p hi
    obtain ⟨node, hnode, hp⟩ := parentOf_eq_some.mp hi
    obtain ⟨old, hold, -, hsame, -⟩ := h.lookup hnode
    exact parentOf_eq_some.mpr ⟨old, hold, hsame.trans hp⟩
  exact funext fun i => Option.ext fun p => ⟨hparent h i p, hparent h.symm i p⟩

theorem SamePlaces.tree (h : SamePlaces w u) (hw : Tree w) : Tree u := by
  refine ⟨h.rootId.trans hw.rootId_eq, fun hi => ?_, ?_, fun hi => ?_⟩
  · obtain ⟨old, hold, hid, -⟩ := h.lookup hi
    exact hid.symm.trans (hw.id_eq hold)
  · obtain ⟨root, hroot, hnone, hdirectory⟩ := hw.root
    obtain ⟨new, hnew, -, hparent, hkind⟩ := h.symm.lookup hroot
    exact ⟨new, h.rootId ▸ hnew, hparent.trans hnone, hkind.trans hdirectory⟩
  · obtain ⟨old, hold, -⟩ := h.lookup hi
    rw [World.Below, h.parentOf, h.rootId]
    exact hw.rooted hold

/-- A node may be put under the new parent: it is not the root, nor is it above its new parent. -/
structure Movable (w : World) (id newParentId : Uuid) : Prop where
  ne_root : id ≠ w.rootId
  parent_live : w.Live newParentId
  not_below : ¬ w.Below newParentId id

def NameCall.KeepsTree (w : World) : NameCall → Prop
  | .createNode _ parentId _ _ _ _ _ => w.Live parentId
  | .createSymlink _ parentId _ _ _ _ => w.Live parentId
  | .deleteNode id => id ≠ w.rootId ∧ w.childrenOf id = []
  | .renameNode id newParentId newName => Movable w id newParentId ∧ ∀ victim ∈ w.childrenOf newParentId,
      victim.id ≠ id → victim.name = newName → victim.kind ≠ .directory → w.childrenOf victim.id = []
  | .publishNode id newParentId _ => Movable w id newParentId

namespace Tree

theorem replaced (h : Tree w) {victim : NodeRecord} (hvictim : victim ∈ w.childrenOf parentId)
    (hne : victim.id ≠ id) (hleaf : w.childrenOf victim.id = []) (hid : w.Live id) (hmove : Movable w id parentId) :
    Tree ((w.dropNode backend victim.id).moveNode id parentId name) := by
  obtain ⟨⟨i, hi⟩, hparent⟩ := mem_childrenOf.mp hvictim
  obtain rfl : victim.id = i := h.id_eq hi
  have hup : w.parentOf victim.id = some parentId := parentOf_eq_some.mpr ⟨victim, hi, hparent⟩
  have hroot : victim.id ≠ w.rootId := by
    intro heq
    rw [heq, h.parentOf_root] at hup
    cases hup
  have hkept : ∀ {j}, w.Live j → j ≠ victim.id → (w.dropNode backend victim.id).Live j := by
    intro j hj hne
    obtain ⟨node, hnode⟩ := Option.isSome_iff_exists.mp hj
    exact live_of_lookup (lookup_dropNode.mpr ⟨hne, hnode⟩)
  have hself : parentId ≠ victim.id := fun heq => childrenOf_eq_nil.mp hleaf victim.id (hup.trans (heq ▸ rfl))
  refine (h.dropped hroot hleaf).moved (hkept hid hne.symm) (hkept hmove.parent_live hself) ?_ fun hbelow => ?_
  · rw [dropNode_rootId]
    exact hmove.ne_root
  · refine hmove.not_below (ReflTransGen.mono (fun a b hab => ?_) _ _ hbelow)
    obtain ⟨node, hnode, hparent⟩ := parentOf_eq_some.mp hab
    exact parentOf_eq_some.mpr ⟨node, (lookup_dropNode.mp hnode).2, hparent⟩

end Tree

theorem NameEffect.tree {call : NameCall} (h : NameEffect w backend call u) (hw : Tree w)
    (hcall : call.KeepsTree w) : Tree u := by
  cases h with
  | refused => exact hw
  | created hid _ => exact hw.insert hid rfl hcall
  | linked hid _ _ => exact hw.insert hid rfl hcall
  | deleted _ => exact hw.dropped hcall.1 hcall.2
  | renamed hid _ => exact hw.moved hid hcall.1.parent_live hcall.1.ne_root hcall.1.not_below
  | @replaced id newParentId newName victim hid hvictim hne hname hdirectory =>
    refine hw.replaced hvictim hne ?_ hid hcall.1
    by_cases hkind : victim.kind = .directory
    · exact hdirectory hkind
    · exact hcall.2 victim hvictim hne hname hkind
  | published hid _ => exact hw.moved hid hcall.parent_live hcall.ne_root hcall.not_below

end Dcfs
