import Dcfs.File.Untouched
import Dcfs.Names.Calls

namespace Dcfs

open Effects Machine Tables World Exec

variable {cfg : Config} {faults : Faults} {w u : World} {n m id : Uuid} {bytes : Bytes} {α β : Type}

section calls

def Looks (cfg : Config) (faults : Faults) (p : Request α) : Prop := ∀ w, (exec cfg faults p w).2 = w

def Names (cfg : Config) (faults : Faults) (A : NameCall → Prop) (p : Request α) : Prop :=
  ∀ w, (exec cfg faults p w).2 = w ∨ ∃ call, A call ∧ (exec cfg faults p w).2 = w.named cfg.backend call

theorem Looks.query (q : Query) : Looks cfg faults (Request.ask (.query q)) := fun _ => rfl

theorem Looks.repo (a : Answer α) : Looks cfg faults (Request.repo a) := by
  intro w
  cases a with
  | ok a => rfl
  | error e => rfl

theorem Looks.bind {x : Request α} {f : α → Request β} (hx : Looks cfg faults x) (hf : ∀ a, Looks cfg faults (f a)) :
    Looks cfg faults (x >>= f) := by
  intro w
  have h := hx w
  rw [exec_bind]
  generalize exec cfg faults x w = result at h
  obtain ⟨e | a, t⟩ := result
  · exact h
  · exact (hf a t).trans h

theorem Looks.checkName (name : Bytes) : Looks cfg faults (checkName name) := by
  intro w
  unfold Dcfs.checkName
  cases toName name with
  | ok name => rfl
  | error e => rfl

variable {A : NameCall → Prop}

theorem Names.after {x : Request α} {f : α → Request β} (hx : Looks cfg faults x)
    (hf : ∀ a, Names cfg faults A (f a)) : Names cfg faults A (x >>= f) := by
  intro w
  have h := hx w
  rw [exec_bind]
  generalize exec cfg faults x w = result at h
  obtain ⟨e | a, t⟩ := result
  · exact .inl h
  · cases h
    exact hf a t

theorem Names.before {x : Request α} {f : α → Request β} (hx : Names cfg faults A x)
    (hf : ∀ a, Looks cfg faults (f a)) : Names cfg faults A (x >>= f) := by
  intro w
  have h := hx w
  rw [exec_bind]
  generalize exec cfg faults x w = result at h
  obtain ⟨e | a, t⟩ := result
  · exact h
  · rw [hf a t]
    exact h

theorem Names.error (e : AppError) : Names cfg faults A (throw e : Request α) := fun _ => .inl rfl

theorem Names.error_bind (e : AppError) (f : α → Request β) :
    Names cfg faults A ((throw e : Request α) >>= f) := fun _ => .inl rfl

end calls

def NameCall.Creates : NameCall → Prop
  | .createNode _ _ _ _ _ _ _ => True
  | .createSymlink _ _ _ _ _ _ => True
  | _ => False

theorem createNode_names (req : CreateNodeRequest) : Names cfg faults NameCall.Creates (createNode req) := by
  apply Names.after (Looks.checkName _)
  intro name
  have hlink : ∀ target, Names cfg faults NameCall.Creates (Request.ask (.createSymlink req.idempotencyKey req.parentId
      name target (asI32 req.uid) (asI32 req.gid)) >>= Request.repo) := by
    intro target
    exact .before (fun w => .inr ⟨.createSymlink _ req.parentId name target _ _, trivial, rfl⟩) Looks.repo
  split
  · exact .error _
  · split_ifs
    · exact .error _
    · exact hlink _
  · exact .error _
  · exact .before (fun w => .inr ⟨.createNode _ req.parentId name _ _ _ _, trivial, rfl⟩) Looks.repo

theorem deleteNode_names : Names cfg faults (fun call => call = .deleteNode id) (deleteNode id) := by
  have hdelete : Names cfg faults (fun call => call = .deleteNode id) (Request.ask (.deleteNode id) >>= Request.repo) :=
    .before (fun w => .inr ⟨.deleteNode id, rfl, rfl⟩) Looks.repo
  apply Names.after (.query _)
  intro found
  apply Names.after (.repo _)
  intro node
  dsimp only
  by_cases hkind : node.kind = .directory
  · rw [if_pos hkind]
    apply Names.after (.query _)
    intro listed
    apply Names.after (.repo _)
    intro children
    split_ifs
    · exact .error_bind _ _
    · exact .error_bind _ _
    · exact .error_bind _ _
    · exact hdelete
  · rw [if_neg hkind]
    exact hdelete

theorem Looks.thenGet (id : Uuid) (a : Answer Unit) :
    Looks cfg faults (Request.repo a >>= fun _ => Request.ask (.query (.getNode id)) >>= Request.repo) :=
  (Looks.repo a).bind fun _ => (Looks.query _).bind Looks.repo

theorem renameNode_names {parentId : Uuid} {name : Bytes} :
    Names cfg faults (fun call => call = .renameNode id parentId name) (renameNode id parentId name) := by
  unfold renameNode checkName
  cases hname : toName name with
  | error e => exact .error _
  | ok checked =>
    obtain rfl := toName_eq hname
    have hrename : Names cfg faults (fun call => call = .renameNode id parentId checked)
        (Request.ask (.renameNode id parentId checked) >>= fun r =>
          Request.repo r >>= fun _ => Request.ask (.query (.getNode id)) >>= Request.repo) :=
      .before (fun w => .inr ⟨.renameNode id parentId checked, rfl, rfl⟩) (Looks.thenGet id)
    dsimp only
    rw [pure_bind]
    apply Names.after (.query _)
    intro found
    apply Names.after (.repo _)
    intro source
    apply Names.after (.query _)
    intro listed
    apply Names.after (.repo _)
    intro children
    split
    · split_ifs
      · exact .error _
      · exact hrename
    · exact hrename

theorem publishNode_names {parentId : Uuid} {name : Bytes} :
    Names cfg faults (fun call => ∃ checked, call = .publishNode id parentId checked)
      (publishNode id parentId name) := by
  apply Names.after (Looks.checkName _)
  intro checked
  exact .before (fun w => .inr ⟨.publishNode id parentId checked, ⟨checked, rfl⟩, rfl⟩) (Looks.thenGet id)

def NameCall.Spares (w : World) (n : Uuid) : NameCall → Prop
  | .deleteNode id => id ≠ n
  | .renameNode id newParentId newName => ∀ node, w.nodes.lookup n = some node → node.parentId = some newParentId →
      node.name = newName → id = n
  | _ => True

theorem SameFile.refl (n : Uuid) (w : World) : SameFile n w w := fun node h => ⟨node, h, rfl, rfl, rfl⟩

theorem SameFile.trans {t : World} (h : SameFile n w u) (h' : SameFile n u t) : SameFile n w t := by
  intro node hnode
  obtain ⟨mid, hmid, hkind, hsize, hcur⟩ := h node hnode
  obtain ⟨last, hlast, hkind', hsize', hcur'⟩ := h' mid hmid
  exact ⟨last, hlast, hkind'.trans hkind, hsize'.trans hsize, hcur'.trans hcur⟩

theorem sameFile_insert {node : NodeRecord} (hfree : w.nodes.lookup node.id = none) :
    SameFile n w (w.insertNode node).2 := by
  intro old hold
  have hne : n ≠ node.id := by
    rintro rfl
    rw [hfree] at hold
    cases hold
  refine ⟨old, ?_, rfl, rfl, rfl⟩
  rw [World.insertNode, lookup_insert, if_neg hne, hold]

theorem sameFile_drop {backend : Backend} (hne : id ≠ n) : SameFile n w (w.dropNode backend id) :=
  fun node hnode => ⟨node, lookup_dropNode.mpr ⟨hne.symm, hnode⟩, rfl, rfl, rfl⟩

theorem sameFile_move (id parentId : Uuid) (name : Bytes) : SameFile n w (w.moveNode id parentId name) := by
  intro node hnode
  have hlook : (w.moveNode id parentId name).nodes.lookup n =
      if n = id then (w.nodes.lookup n).map fun node =>
        { node with parentId := some parentId, name := name, ctime := w.now }
      else w.nodes.lookup n := lookup_modify _ _ _ _
  rw [hnode] at hlook
  split_ifs at hlook
  · exact ⟨_, hlook, rfl, rfl, rfl⟩
  · exact ⟨node, hlook, rfl, rfl, rfl⟩

theorem sameFile_attr {mode uid gid size : Option ℤ} {mtime atime : Option Time} (h : id = n → size = none) :
    SameFile n w (w.updateNodeAttr id mode uid gid size mtime atime).2 := by
  intro node hnode
  unfold World.updateNodeAttr
  cases hid : w.nodes.lookup id with
  | none => exact ⟨node, hnode, rfl, rfl, rfl⟩
  | some found =>
    dsimp only
    rw [lookup_insert]
    split_ifs with heq
    · cases (heq ▸ hid).symm.trans hnode
      rw [h heq.symm]
      exact ⟨_, rfl, rfl, rfl, rfl⟩
    · exact ⟨node, hnode, rfl, rfl, rfl⟩

theorem sameFile_named (hw : Consistent cfg w) {call : NameCall} (h : call.Spares w n) (backend : Backend) :
    SameFile n w (w.named backend call) := by
  have heffect := named_effect w backend call
  generalize w.named backend call = u at heffect
  cases heffect with
  | refused => exact .refl n w
  | created hfree _ => exact sameFile_insert hfree
  | linked hfree _ _ => exact sameFile_insert hfree
  | deleted _ => exact sameFile_drop h
  | renamed _ _ => exact sameFile_move _ _ _
  | replaced _ hchild hother hname _ =>
    obtain ⟨⟨i, hi⟩, hparent⟩ := mem_childrenOf.mp hchild
    have hid := (hw.node hi).id_eq
    refine (sameFile_drop fun heq => ?_).trans (sameFile_move _ _ _)
    rw [← hid, heq] at hi
    exact hother (heq.trans (h _ hi hparent hname).symm)
  | published _ _ => exact sameFile_move _ _ _

theorem nodeStep_named (w : World) (backend : Backend) (call : NameCall) : NodeStep w (w.named backend call) := by
  cases call with
  | createNode => exact nodeStep_createNode _ _ _ _ _ _ _ _
  | createSymlink => exact nodeStep_createSymlink _ _ _ _ _ _ _
  | deleteNode => exact nodeStep_deleteNode _ _
  | renameNode => exact nodeStep_renameNode _ _ _ _
  | publishNode => exact nodeStep_publishNode _ _ _ _

theorem NodeStep.untouched (h : NodeStep w u) (hsame : SameFile n w u) : Untouched cfg n w u :=
  .of_names h.versions h.chunks h.objects hsame

theorem Names.untouched {A : NameCall → Prop} {p : Request α} (hp : Names cfg faults A p) (hw : Consistent cfg w)
    (hspares : ∀ call, A call → call.Spares w n) : Untouched cfg n w (exec cfg faults p w).2 := by
  rcases hp w with heq | ⟨call, hcall, heq⟩
  · rw [heq]
    exact (NodeStep.refl w).untouched (.refl n w)
  · rw [heq]
    exact (nodeStep_named w _ call).untouched (sameFile_named hw (hspares call hcall) _)

end Dcfs
