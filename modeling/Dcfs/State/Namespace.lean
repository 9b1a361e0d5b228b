import Dcfs.File.Content

namespace Dcfs

open Effects Machine Tables World Exec

variable {cfg : Config} {faults : Faults} {w u t : World}

structure Sound (cfg : Config) (w : World) : Prop where
  consistent : Consistent cfg w
  sweeping : w.sweeping = false

structure NodeStep (w u : World) : Prop where
  versions : u.versions = w.versions
  chunks : u.chunks = w.chunks
  objects : u.objects = w.objects
  nextUuid : u.nextUuid = w.nextUuid
  sweeping : u.sweeping = w.sweeping
  now : w.now ≤ u.now
  nodes : ∀ id node, u.nodes.lookup id = some node →
    (NodeOk id node ∧ node.currentVersionId = none) ∨ ∃ old, w.nodes.lookup id = some old
      ∧ (NodeOk id old → NodeOk id node) ∧ node.currentVersionId = old.currentVersionId

namespace NodeStep

theorem sound (h : NodeStep w u) (hw : Sound cfg w) : Sound cfg u where
  consistent := by
    refine hw.consistent.of_nodes h.versions h.chunks h.objects h.nextUuid h.now ?_ ?_
    · intro id node hnode
      rcases h.nodes id node hnode with ⟨hok, -⟩ | ⟨old, hold, hok, -⟩
      · exact hok
      · exact hok (hw.consistent.node hold)
    · intro id node current hnode hcur
      rcases h.nodes id node hnode with ⟨-, hnone⟩ | ⟨old, hold, -, hsame⟩
      · rw [hnone] at hcur
        cases hcur
      · exact ⟨old, hold, hsame ▸ hcur⟩
  sweeping := h.sweeping.trans hw.sweeping

theorem refl (w : World) : NodeStep w w :=
  ⟨rfl, rfl, rfl, rfl, rfl, le_rfl, fun _ node h => .inr ⟨node, h, fun hok => hok, rfl⟩⟩

theorem trans (h : NodeStep w u) (h' : NodeStep u t) : NodeStep w t where
  versions := h'.versions.trans h.versions
  chunks := h'.chunks.trans h.chunks
  objects := h'.objects.trans h.objects
  nextUuid := h'.nextUuid.trans h.nextUuid
  sweeping := h'.sweeping.trans h.sweeping
  now := h.now.trans h'.now
  nodes id node hnode := by
    rcases h'.nodes id node hnode with hnew | ⟨mid, hmid, hok, hsame⟩
    · exact .inl hnew
    · rcases h.nodes id mid hmid with ⟨hok', hnone⟩ | ⟨old, hold, hok', hsame'⟩
      · exact .inl ⟨hok hok', hsame.trans hnone⟩
      · exact .inr ⟨old, hold, fun h => hok (hok' h), hsame.trans hsame'⟩

end NodeStep

theorem nodeStep_insert {node : NodeRecord} (hsize : InI64 node.size) (hnone : node.currentVersionId = none) :
    NodeStep w (w.insertNode node).2 := by
  refine ⟨rfl, rfl, rfl, rfl, rfl, Int.le.intro 1 rfl, fun id other hother => ?_⟩
  rw [World.insertNode, lookup_insert] at hother
  split_ifs at hother with hid
  · cases hother
    exact .inl ⟨⟨hid.symm, hsize⟩, hnone⟩
  · exact .inr ⟨other, hother, fun h => h, rfl⟩

theorem nodeStep_drop (b : Backend) (id : Uuid) : NodeStep w (w.dropNode b id) := by
  have herase : ∀ m node, (w.nodes.erase id).lookup m = some node →
      (NodeOk m node ∧ node.currentVersionId = none) ∨ ∃ old, w.nodes.lookup m = some old
        ∧ (NodeOk m old → NodeOk m node) ∧ node.currentVersionId = old.currentVersionId := by
    intro m node h
    rw [lookup_erase] at h
    split_ifs at h
    exact .inr ⟨node, h, fun h => h, rfl⟩
  unfold World.dropNode
  split
  · exact ⟨rfl, rfl, rfl, rfl, rfl, Int.le.intro 1 rfl, herase⟩
  · exact ⟨rfl, rfl, rfl, rfl, rfl, le_rfl, herase⟩

theorem nodeStep_move (id parent : Uuid) (name : Bytes) : NodeStep w (w.moveNode id parent name) := by
  refine ⟨rfl, rfl, rfl, rfl, rfl, Int.le.intro 1 rfl, fun m node h => ?_⟩
  rw [World.moveNode, lookup_modify] at h
  split_ifs at h
  · obtain ⟨old, hold, rfl⟩ := Option.map_eq_some_iff.mp h
    exact .inr ⟨old, hold, fun hok => ⟨hok.id_eq, hok.size_range⟩, rfl⟩
  · exact .inr ⟨node, h, fun hok => hok, rfl⟩

theorem nodeStep_attr (id : Uuid) (mode uid gid : Option ℤ) {size : Option ℤ} (mtime atime : Option Time)
    (hsize : ∀ s, size = some s → InI64 s) :
    NodeStep w (w.updateNodeAttr id mode uid gid size mtime atime).2 := by
  unfold World.updateNodeAttr
  cases hnode : w.nodes.lookup id with
  | none => exact .refl w
  | some node =>
    refine ⟨rfl, rfl, rfl, rfl, rfl, Int.le.intro 1 rfl, fun m other h => ?_⟩
    dsimp only at h
    rw [lookup_insert] at h
    split_ifs at h with hm
    · cases h
      refine .inr ⟨node, hm ▸ hnode, fun hok => ⟨hok.id_eq, ?_⟩, rfl⟩
      cases size with
      | none => exact hok.size_range
      | some s => exact hsize s rfl
    · exact .inr ⟨other, h, fun hok => hok, rfl⟩

section calls

variable (b : Backend)

theorem nodeStep_insertRow (parent : Uuid) {node : NodeRecord} (hsize : InI64 node.size)
    (hnone : node.currentVersionId = none) : NodeStep w (w.insertNodeRow parent node).2 := by
  unfold World.insertNodeRow
  split_ifs
  · exact .refl w
  · exact .refl w
  · exact nodeStep_insert hsize hnone

theorem nodeStep_createNode (id parent : Uuid) (name : Bytes) (kind : NodeKind) (mode uid gid : ℤ) :
    NodeStep w (w.createNode b id parent name kind mode uid gid).2 := by
  cases b with
  | memory =>
    simp only [World.createNode]
    split_ifs
    · exact .refl w
    · exact nodeStep_insert inI64_zero rfl
  | postgres => exact nodeStep_insertRow parent inI64_zero rfl

theorem newNode_size (id parent : Uuid) (name : Bytes) (kind : NodeKind) (mode uid gid size : ℤ)
    (target : Option Bytes) : (w.newNode id parent name kind mode uid gid size target).size = size := rfl

theorem nodeStep_createSymlink (id parent : Uuid) (name target : Bytes) (uid gid : ℤ) :
    NodeStep w (w.createSymlink b id parent name target uid gid).2 := by
  have hsize : InI64 (w.newNode id parent name .symlink 0o120777 uid gid (asI64 target.length)
      (some target)).size := by
    rw [newNode_size]
    exact inI64_asI64 _
  cases b with
  | memory =>
    simp only [World.createSymlink]
    split_ifs
    · exact .refl w
    · exact .refl w
    · exact nodeStep_insert hsize rfl
  | postgres => exact nodeStep_insertRow parent hsize rfl

theorem nodeStep_deleteNode (id : Uuid) : NodeStep w (w.deleteNode b id).2 := by
  unfold World.deleteNode
  split
  · exact nodeStep_drop b id
  · exact .refl w

theorem nodeStep_renameNode (id parent : Uuid) (name : Bytes) :
    NodeStep w (w.renameNode b id parent name).2 := by
  have hcleared : ∀ victim : Option NodeRecord, NodeStep w (victim.elim w fun v => w.dropNode b v.id) := by
    intro victim
    cases victim with
    | none => exact .refl w
    | some v => exact nodeStep_drop b v.id
  unfold World.renameNode
  cases b <;> dsimp only <;> split_ifs <;>
    first | exact .refl w | skip
  all_goals
    generalize (w.childrenOf parent).find? (fun n => n.id != id && n.name == name) = victim
    have hmoved := (hcleared victim).trans (nodeStep_move id parent name)
    cases victim <;> exact hmoved

theorem nodeStep_publishNode (id parent : Uuid) (name : Bytes) :
    NodeStep w (w.publishNode b id parent name).2 := by
  unfold World.publishNode
  split_ifs
  · exact .refl w
  · exact .refl w
  · exact .refl w
  · exact nodeStep_move id parent name

end calls

section handlers

variable (cfg faults)

theorem keeps_node (c : Call) (h : ∀ w, NodeStep w (perform cfg faults w c).2) :
    Keeps cfg faults (Sound cfg) (Request.ask c) := Keeps.call fun w hw => (h w).sound hw

theorem checkName_keeps (name : Bytes) : Keeps cfg faults (Sound cfg) (checkName name) := by
  unfold checkName
  cases toName name with
  | ok name => exact .ok name
  | error e => exact .error _

theorem createNode_keeps (req : CreateNodeRequest) : Keeps cfg faults (Sound cfg) (createNode req) := by
  refine (checkName_keeps cfg faults _).bind fun name => ?_
  have hlink := fun target => (keeps_node cfg faults (.createSymlink req.idempotencyKey req.parentId name
    target (asI32 req.uid) (asI32 req.gid)) fun w => nodeStep_createSymlink _ _ _ _ _ _ _).bind Keeps.repo
  split
  · exact .error _
  · split_ifs
    · exact (Keeps.error _).bind fun _ => hlink _
    · exact hlink _
  · exact .error _
  · exact (keeps_node cfg faults _ fun w => nodeStep_createNode _ _ _ _ _ _ _ _).bind .repo

theorem deleteNode_keeps (id : Uuid) : Keeps cfg faults (Sound cfg) (deleteNode id) := by
  have hdelete := (keeps_node cfg faults (.deleteNode id) fun w => nodeStep_deleteNode _ id).bind Keeps.repo
  refine (Keeps.query _).bind fun _ => (Keeps.repo _).bind fun node => ?_
  dsimp only
  by_cases hroot : node.parentId.isNone = true
  · simp only [hroot, if_true]
    split
    · refine (Keeps.query _).bind fun _ => (Keeps.repo _).bind fun children => ?_
      split
      · exact (Keeps.error _).bind fun _ => (Keeps.error _).bind fun _ => hdelete
      · exact (Keeps.error _).bind fun _ => hdelete
    · exact hdelete
  · simp only [hroot]
    split
    · refine (Keeps.query _).bind fun _ => (Keeps.repo _).bind fun children => ?_
      split
      · exact (Keeps.error _).bind fun _ => hdelete
      · exact hdelete
    · exact hdelete

theorem patchNode_keeps (id : Uuid) (req : PatchNodeRequest) :
    Keeps cfg faults (Sound cfg) (patchNode id req) := by
  refine (keeps_node cfg faults _ fun w => nodeStep_attr id _ _ _ _ _ fun s hs => ?_).bind Keeps.repo
  obtain ⟨size, -, rfl⟩ := Option.map_eq_some_iff.mp hs
  exact inI64_asI64 _

theorem davTruncate_keeps (node : NodeRecord) : Keeps cfg faults (Sound cfg) (davTruncate node) := by
  refine (keeps_node cfg faults _ fun w => nodeStep_attr node.id _ _ _ _ _ fun s hs => ?_).bind Keeps.repo
  cases hs
  exact inI64_zero

theorem renameNode_keeps (id parent : Uuid) (name : Bytes) :
    Keeps cfg faults (Sound cfg) (renameNode id parent name) := by
  refine (checkName_keeps cfg faults _).bind fun name => (Keeps.query _).bind fun _ =>
    (Keeps.repo _).bind fun source => (Keeps.query _).bind fun _ => (Keeps.repo _).bind fun children => ?_
  have hrename := (keeps_node cfg faults (.renameNode id parent name) fun w =>
    nodeStep_renameNode _ id parent name).bind fun r => (Keeps.repo r).bind fun _ =>
      Keeps.bind (Keeps.query (.getNode id)) Keeps.repo
  split
  · split_ifs
    · exact (Keeps.error _).bind fun _ => hrename
    · exact hrename
  · exact hrename

theorem publishNode_keeps (id parent : Uuid) (name : Bytes) :
    Keeps cfg faults (Sound cfg) (publishNode id parent name) :=
  (checkName_keeps cfg faults _).bind fun _ => (keeps_node cfg faults _ fun _ =>
    nodeStep_publishNode _ _ _ _).bind fun r => (Keeps.repo r).bind fun _ => (Keeps.query _).bind Keeps.repo

end handlers

end Dcfs
