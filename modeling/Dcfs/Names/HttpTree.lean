import Dcfs.Names.Requests

namespace Dcfs

open Effects Tables World Exec

variable {cfg : Config} {w : World} {id parentId : Uuid} {name : Bytes} {α : Type}

theorem Tree.nextId (hw : Tree w) : Tree w.nextId := ⟨hw.rootId_eq, hw.id_eq, hw.root, hw.rooted⟩

theorem Tree.named (hw : Tree w) (call : NameCall) (hcall : call.KeepsTree w) (backend : Backend) :
    Tree (w.named backend call) := (named_effect w backend call).tree hw hcall

theorem exec_repo (a : Answer α) : (exec cfg noFaults (Request.repo a) w).2 = w := by
  cases a with
  | ok a => rfl
  | error e => rfl

theorem exec_last (c : Call) {f : c.Reply → Request α} (hf : ∀ r u, (exec cfg noFaults (f r) u).2 = u) :
    (exec cfg noFaults (Request.ask c >>= f) w).2 = (perform cfg noFaults w c).2 := by
  rw [exec_ask]
  exact hf _ _

theorem exec_thenGet (id : Uuid) (a : Answer Unit) :
    (exec cfg noFaults (Request.repo a >>= fun _ => Request.ask (.query (.getNode id)) >>= Request.repo) w).2 = w := by
  cases a with
  | error e => rfl
  | ok a => exact exec_repo _

theorem createNode_tree (hw : Tree w) {req : CreateNodeRequest} (hlive : w.Live req.parentId) :
    Tree (exec cfg noFaults (createNode req) w).2 := by
  unfold createNode checkName
  cases toName req.name with
  | error e => exact hw
  | ok name =>
    have hlink : ∀ target, Tree (exec cfg noFaults (Request.ask (.createSymlink req.idempotencyKey req.parentId
        name target (Machine.asI32 req.uid) (Machine.asI32 req.gid)) >>= Request.repo) w).2 := by
      intro target
      rw [exec_last _ fun r u => exec_repo r]
      exact hw.named (.createSymlink _ req.parentId _ _ _ _) hlive _
    have hnode : ∀ kind, Tree (exec cfg noFaults (Request.ask (.createNode req.idempotencyKey req.parentId name
        kind (Machine.asI32 req.mode) (Machine.asI32 req.uid) (Machine.asI32 req.gid)) >>= Request.repo) w).2 := by
      intro kind
      rw [exec_last _ fun r u => exec_repo r]
      exact hw.named (.createNode _ req.parentId _ _ _ _ _) hlive _
    dsimp only
    rw [pure_bind]
    split
    · exact hw
    · split_ifs
      · exact hw
      · exact hlink _
    · exact hw
    · exact hnode _

theorem childrenOf_eq_nil_of_listing {backend : Backend} {children : List NodeRecord}
    (h : w.listChildren backend id 1 0 = .ok children) (hempty : children.isEmpty = true) :
    w.childrenOf id = [] := by
  simp only [World.listChildren, List.drop_zero, Except.ok.injEq] at h
  have hnone : w.listed backend id = [] := by simp_all
  refine List.eq_nil_iff_forall_not_mem.mpr fun child hchild => ?_
  have hlisted : child ∈ w.listed backend id := World.mem_listed.mpr hchild
  rw [hnone] at hlisted
  cases hlisted

theorem deleteNode_tree (hw : Tree w)
    (hleaf : ∀ node, w.nodes.lookup id = some node → node.kind ≠ .directory → w.childrenOf id = []) :
    Tree (exec cfg noFaults (deleteNode id) w).2 := by
  unfold deleteNode
  rw [exec_ask]
  change Tree (exec cfg noFaults (Request.repo (w.getNode id) >>= _) w).2
  unfold World.getNode
  cases hnode : w.nodes.lookup id with
  | none => exact hw
  | some node =>
    have hdelete : id ≠ w.rootId → w.childrenOf id = [] →
        Tree (exec cfg noFaults (Request.ask (.deleteNode id) >>= Request.repo) w).2 := by
      intro hroot hchildren
      rw [exec_last _ fun r u => exec_repo r]
      exact hw.named (.deleteNode id) ⟨hroot, hchildren⟩ _
    obtain ⟨root, hlookup, hparent, hdirectory⟩ := hw.root
    have hroot : node.parentId ≠ none ∨ node.kind ≠ .directory → id ≠ w.rootId := by
      rintro h rfl
      cases hlookup.symm.trans hnode
      exact h.elim (fun h => h hparent) (fun h => h hdirectory)
    rw [repo_ok, pure_bind]
    by_cases hkind : node.kind = .directory
    · simp only [hkind, if_true]
      rw [exec_ask]
      change Tree (exec cfg noFaults (Request.repo (w.listChildren cfg.backend id 1 0) >>= _) w).2
      cases hlist : w.listChildren cfg.backend id 1 0 with
      | error e => exact hw
      | ok children =>
        rw [repo_ok, pure_bind]
        by_cases hempty : children.isEmpty = true
        · have hchildren := childrenOf_eq_nil_of_listing hlist hempty
          cases hup : node.parentId with
          | none =>
            simp only [hempty, Bool.not_true, Bool.false_eq_true, if_false, Option.isNone_none, if_true]
            exact hw
          | some parent =>
            simp only [hempty, Bool.not_true, Bool.false_eq_true, if_false, Option.isNone_some]
            exact hdelete (hroot (.inl (by rw [hup]; nofun))) hchildren
        · simp only [Bool.not_eq_true] at hempty
          simp only [hempty, Bool.not_false, if_true]
          exact hw
    · simp only [hkind, if_false]
      exact hdelete (hroot (.inr hkind)) (hleaf node hnode hkind)

theorem renameNode_tree (hw : Tree w) (hmove : (NameCall.renameNode id parentId name).KeepsTree w) :
    Tree (exec cfg noFaults (renameNode id parentId name) w).2 := by
  unfold renameNode checkName
  have hname : ∀ {checked}, toName name = .ok checked → checked = name := by
    intro checked h
    unfold toName at h
    split_ifs at h
    exact (Except.ok.inj h).symm
  cases hchecked : toName name with
  | error e => exact hw
  | ok checked =>
    obtain rfl := hname hchecked
    have hrename : Tree (exec cfg noFaults (Request.ask (.renameNode id parentId checked) >>= fun r =>
        Request.repo r >>= fun _ => Request.ask (.query (.getNode id)) >>= Request.repo) w).2 := by
      rw [exec_last _ fun r u => exec_thenGet id r]
      exact hw.named (.renameNode id parentId checked) hmove _
    dsimp only
    rw [pure_bind, exec_ask]
    change Tree (exec cfg noFaults (Request.repo (w.getNode id) >>= _) w).2
    cases w.getNode id with
    | error e => exact hw
    | ok source =>
      rw [repo_ok, pure_bind, exec_ask]
      change Tree (exec cfg noFaults (Request.repo (w.listChildren cfg.backend parentId 1000 0) >>= _) w).2
      cases w.listChildren cfg.backend parentId 1000 0 with
      | error e => exact hw
      | ok children =>
        rw [repo_ok, pure_bind]
        split
        · split_ifs
          · exact hw
          · exact hrename
        · exact hrename

theorem publishNode_tree (hw : Tree w) (hmove : Movable w id parentId) :
    Tree (exec cfg noFaults (publishNode id parentId name) w).2 := by
  unfold publishNode checkName
  cases toName name with
  | error e => exact hw
  | ok checked =>
    dsimp only
    rw [pure_bind, exec_last _ fun r u => exec_thenGet id r]
    exact hw.named (.publishNode id parentId checked) hmove _

end Dcfs
