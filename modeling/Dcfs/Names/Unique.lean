import Dcfs.Names.Calls

namespace Dcfs

open Tables World

inductive NameRun (backend : Backend) (allows : World → NameCall → Prop) : World → Prop
  | fresh (now : Time) : NameRun backend allows (World.fresh now)
  | step {w : World} {call : NameCall} : NameRun backend allows w → allows w call →
      NameRun backend allows (w.named backend call)

structure UniqueNames (w : World) : Prop where
  id_eq : ∀ {id node}, w.nodes.lookup id = some node → node.id = id
  unique : ∀ {i j a b}, w.nodes.lookup i = some a → w.nodes.lookup j = some b → a.parentId = b.parentId →
    a.name = b.name → i = j

variable {w u : World} {backend : Backend} {id parentId : Uuid} {name : Bytes}

namespace UniqueNames

theorem fresh (now : Time) : UniqueNames (World.fresh now) := by
  have hroot : ∀ {id node}, (World.fresh now).nodes.lookup id = some node → id = 0 ∧ node = rootNode 0 now := by
    intro id node h
    exact World.lookup_fresh h
  refine ⟨fun h => ?_, fun h h' _ _ => ?_⟩
  · obtain ⟨rfl, rfl⟩ := hroot h
    rfl
  · rw [(hroot h).1, (hroot h').1]

theorem insert (h : UniqueNames w) {node : NodeRecord}
    (hfree : ∀ id other, w.nodes.lookup id = some other → other.parentId = node.parentId → other.name ≠ node.name) :
    UniqueNames (w.insertNode node).2 := by
  have hcases : ∀ {id other}, (w.insertNode node).2.nodes.lookup id = some other →
      id = node.id ∧ other = node ∨ id ≠ node.id ∧ w.nodes.lookup id = some other := by
    intro id other hother
    rw [World.insertNode, lookup_insert] at hother
    split_ifs at hother with hid
    · exact .inl ⟨hid, (Option.some.inj hother).symm⟩
    · exact .inr ⟨hid, hother⟩
  refine ⟨fun hnode => ?_, fun hi hj hparent hname => ?_⟩
  · rcases hcases hnode with ⟨rfl, rfl⟩ | ⟨-, hold⟩
    · rfl
    · exact h.id_eq hold
  · rcases hcases hi with ⟨rfl, rfl⟩ | ⟨-, ha⟩ <;> rcases hcases hj with ⟨rfl, rfl⟩ | ⟨-, hb⟩
    · rfl
    · exact absurd hname.symm (hfree _ _ hb hparent.symm)
    · exact absurd hname (hfree _ _ ha hparent)
    · exact h.unique ha hb hparent hname

theorem dropped (h : UniqueNames w) (id : Uuid) : UniqueNames (w.dropNode backend id) where
  id_eq hnode := h.id_eq (lookup_dropNode.mp hnode).2
  unique hi hj := h.unique (lookup_dropNode.mp hi).2 (lookup_dropNode.mp hj).2

theorem moved (h : UniqueNames w) (hfree : NameFree w id parentId name) :
    UniqueNames (w.moveNode id parentId name) := by
  have hcases : ∀ {i node}, (w.moveNode id parentId name).nodes.lookup i = some node →
      (i = id ∧ node.id = id ∧ node.parentId = some parentId ∧ node.name = name)
        ∨ (i ≠ id ∧ w.nodes.lookup i = some node) := by
    intro i node hnode
    rw [World.moveNode, lookup_modify] at hnode
    split_ifs at hnode with hi
    · obtain ⟨old, hold, rfl⟩ := Option.map_eq_some_iff.mp hnode
      exact .inl ⟨hi, (h.id_eq hold).trans hi, rfl, rfl⟩
    · exact .inr ⟨hi, hnode⟩
  refine ⟨fun hnode => ?_, fun hi hj hparent hname => ?_⟩
  · rcases hcases hnode with ⟨rfl, hid, -⟩ | ⟨-, hold⟩
    · exact hid
    · exact h.id_eq hold
  · rcases hcases hi with ⟨rfl, -, hp, hn⟩ | ⟨hne, ha⟩ <;> rcases hcases hj with ⟨rfl, -, hp', hn'⟩ | ⟨hne', hb⟩
    · rfl
    · exact absurd (hname.symm.trans hn) (hfree _ (mem_childrenOf.mpr ⟨⟨_, hb⟩, hparent.symm.trans hp⟩)
        fun heq => hne' ((h.id_eq hb).symm.trans heq))
    · exact absurd (hname.trans hn') (hfree _ (mem_childrenOf.mpr ⟨⟨_, ha⟩, hparent.trans hp'⟩)
        fun heq => hne ((h.id_eq ha).symm.trans heq))
    · exact h.unique ha hb hparent hname

theorem replaced (h : UniqueNames w) {victim : NodeRecord} (hvictim : victim ∈ w.childrenOf parentId)
    (hname : victim.name = name) : UniqueNames ((w.dropNode backend victim.id).moveNode id parentId name) := by
  obtain ⟨⟨i, hi⟩, hparent⟩ := mem_childrenOf.mp hvictim
  refine (h.dropped victim.id).moved fun other hother _ hsame => ?_
  obtain ⟨⟨j, hj⟩, hp⟩ := mem_childrenOf.mp hother
  obtain ⟨hne, hold⟩ := lookup_dropNode.mp hj
  have hij : i = j := h.unique hi hold (hparent.trans hp.symm) (hname.trans hsame.symm)
  exact hne (hij.symm.trans (h.id_eq hi).symm)

end UniqueNames

/-- A node is not created under a name that a live node has: `create_node` in memory does not look. -/
def NameCall.FreeName (w : World) : NameCall → Prop
  | .createNode id parentId name _ _ _ _ => (w.nodes.lookup id).isNone → w.namedChild parentId name = none
  | _ => True

theorem NameEffect.uniqueNames {call : NameCall} (h : NameEffect w backend call u) (hw : UniqueNames w)
    (hfree : call.FreeName w) : UniqueNames u := by
  cases h with
  | refused => exact hw
  | created hid _ => exact hw.insert (namedChild_eq_none.mp (hfree (Option.isNone_iff_eq_none.mpr hid)))
  | linked _ hname _ => exact hw.insert (namedChild_eq_none.mp hname)
  | deleted _ => exact hw.dropped _
  | renamed _ hname => exact hw.moved hname
  | replaced _ hvictim _ hname _ => exact hw.replaced hvictim hname
  | published _ hname => exact hw.moved hname

theorem NameRun.uniqueNames (h : NameRun .memory NameCall.FreeName w) : UniqueNames w := by
  induction h with
  | fresh now => exact .fresh now
  | step _ hfree ih => exact (named_effect _ _ _).uniqueNames ih hfree

theorem memory_names_distinct (h : NameRun .memory NameCall.FreeName w) {i j : Uuid} {a b : NodeRecord}
    (ha : w.nodes.lookup i = some a) (hb : w.nodes.lookup j = some b) (hparent : a.parentId = b.parentId)
    (hname : a.name = b.name) : i = j := h.uniqueNames.unique ha hb hparent hname

def replacedWorld : World :=
  ((((World.fresh 0).named .memory (.createNode 1 0 [97] .file 0 0 0)).named .memory
    (.createNode 2 0 [98] .file 0 0 0)).named .memory (.renameNode 2 0 [97])).named .memory
    (.createNode 3 0 [98] .file 0 0 0)

theorem replaced_names_distinct : NameRun .memory NameCall.FreeName replacedWorld
    ∧ ¬ ∃ i j a b, replacedWorld.nodes.lookup i = some a ∧ replacedWorld.nodes.lookup j = some b
      ∧ a.parentId = b.parentId ∧ a.name = b.name ∧ i ≠ j := by
  have hrun : NameRun .memory NameCall.FreeName replacedWorld := by
    unfold replacedWorld
    refine .step (.step (.step (.step (.fresh 0) ?_) ?_) ?_) ?_
    · exact fun _ => by decide
    · exact fun _ => by decide
    · trivial
    · exact fun _ => by decide
  refine ⟨hrun, ?_⟩
  rintro ⟨i, j, a, b, ha, hb, hparent, hname, hne⟩
  exact hne (memory_names_distinct hrun ha hb hparent hname)

theorem same_name_twice : ∃ w, NameRun .memory (fun _ _ => True) w ∧ ∃ i j a b,
    w.nodes.lookup i = some a ∧ w.nodes.lookup j = some b ∧ a.parentId = b.parentId ∧ a.name = b.name
      ∧ i ≠ j := by
  -- Two nodes are created under one name, and both are live.
  let first : NameCall := .createNode 1 0 [97] .file 0 0 0
  let second : NameCall := .createNode 2 0 [97] .file 0 0 0
  refine ⟨((World.fresh 0).named .memory first).named .memory second,
    .step (.step (.fresh 0) trivial) trivial, 1, 2, ?_⟩
  exact ⟨_, _, rfl, rfl, rfl, rfl, by decide⟩

end Dcfs
