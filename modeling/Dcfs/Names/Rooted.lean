import Dcfs.Names.HttpTree
import Dcfs.Server.Sample

namespace Dcfs

open Effects Tables World Exec Forests Relation

variable {cfg : Config} {w : World} {path : DavPath}

theorem make_tree (cfg : Config) (hw : Tree w) (path : DavPath) (kind : NodeKind) (mode : ℤ) :
    Tree (exec cfg noFaults (Dav.make path kind mode) w).2 := by
  unfold Dav.make
  obtain ⟨r, hr, hparent⟩ := exec_resolveParent cfg hw path
  cases r with
  | error e =>
    rw [exec_bind_error hr]
    exact hw
  | ok found =>
    obtain ⟨parent, name⟩ := found
    rw [exec_bind_ok hr, exec_davAsk, exec_davAsk, exec_davRepo]
    exact hw.nextId.named (.createNode w.nextUuid parent.id name kind mode 0 0)
      (live_of_lookup (hparent parent name rfl).1) _

theorem openFile_tree (hw : Tree w) (path : DavPath) (options : OpenOptions) :
    Tree (exec cfg noFaults (Dav.openFile path options) w).2 := by
  unfold Dav.openFile
  obtain ⟨r, hr, hlive⟩ := exec_resolve cfg hw path.asBytes
  rw [exec_attempt, hr]
  cases r with
  | error e =>
    cases e with
    | notFound =>
      dsimp only
      split_ifs
      · exact make_tree cfg hw path _ _
      · exact hw
    | «exists» => exact hw
    | forbidden => exact hw
    | generalFailure => exact hw
  | ok node =>
    dsimp only
    unfold Dav.openFound
    split_ifs
    · exact hw
    · exact hw
    · rw [exec_davAsk]
      have hkept := (updateNodeAttr_places w node.id none none none (some 0) none none).tree hw
      rcases hattr : w.updateNodeAttr node.id none none none (some 0) none none with ⟨e | updated, u⟩
      all_goals
        rw [hattr] at hkept
        simp only [perform, hattr]
        exact hkept
    · exact hw

theorem createDir_tree (hw : Tree w) (path : DavPath) : Tree (exec cfg noFaults (Dav.createDir path) w).2 := by
  unfold Dav.createDir
  obtain ⟨r, hr, -⟩ := exec_resolve cfg hw path.asBytes
  rw [exec_attempt, hr]
  cases r with
  | ok node => exact hw
  | error e =>
    dsimp only
    rw [exec_bind]
    have hmake := make_tree cfg hw path .directory 0o40755
    generalize exec cfg noFaults (Dav.make path .directory 0o40755) w = made at hmake ⊢
    obtain ⟨r | r, u⟩ := made
    · exact hmake
    · exact hmake

theorem removeFile_tree (hw : Tree w)
    (hleaf : ∀ node, Resolves cfg w path.asBytes node → node.kind ≠ .directory → w.childrenOf node.id = []) :
    Tree (exec cfg noFaults (Dav.removeFile path) w).2 := by
  unfold Dav.removeFile
  obtain ⟨r, hr, hlive⟩ := exec_resolve cfg hw path.asBytes
  cases r with
  | error e =>
    rw [exec_bind_error hr]
    exact hw
  | ok node =>
    rw [exec_bind_ok hr]
    split_ifs with hkind
    · exact hw
    · rw [exec_davAsk, exec_davRepo]
      refine hw.named (.deleteNode node.id) ⟨?_, hleaf node (congrArg Prod.fst hr) hkind⟩ _
      intro hroot
      obtain ⟨root, hlookup, -, hdirectory⟩ := hw.root
      cases hlookup.symm.trans (hroot ▸ hlive node rfl)
      exact hkind hdirectory

theorem removeDir_tree (hw : Tree w) (hleaf : ∀ node, Resolves cfg w path.asBytes node → node.kind = .directory →
    node.id ≠ w.rootId ∧ w.childrenOf node.id = []) : Tree (exec cfg noFaults (Dav.removeDir path) w).2 := by
  unfold Dav.removeDir
  obtain ⟨r, hr, -⟩ := exec_resolve cfg hw path.asBytes
  cases r with
  | error e =>
    rw [exec_bind_error hr]
    exact hw
  | ok node =>
    rw [exec_bind_ok hr]
    split_ifs with hkind
    · exact hw
    · rw [exec_davAsk, exec_davRepo]
      exact hw.named (.deleteNode node.id) (hleaf node (congrArg Prod.fst hr) (not_not.mp hkind)) _

theorem rename_tree (hw : Tree w) {source target : DavPath}
    (hmove : ∀ node parent, Resolves cfg w source.asBytes node → Resolves cfg w target.parent parent →
      (NameCall.renameNode node.id parent.id target.fileNameBytes).KeepsTree w) :
    Tree (exec cfg noFaults (Dav.rename source target) w).2 := by
  unfold Dav.rename
  obtain ⟨r, hr, -⟩ := exec_resolve cfg hw source.asBytes
  cases r with
  | error e =>
    rw [exec_bind_error hr]
    exact hw
  | ok node =>
    rw [exec_bind_ok hr]
    obtain ⟨r', hr', hparent⟩ := exec_resolveParent cfg hw target
    cases r' with
    | error e =>
      rw [exec_bind_error hr']
      exact hw
    | ok found =>
      obtain ⟨parent, name⟩ := found
      obtain ⟨-, rfl, hresolves⟩ := hparent parent name rfl
      rw [exec_bind_ok hr', exec_davAsk, exec_davRepo]
      exact hw.named _ (hmove node parent (congrArg Prod.fst hr) hresolves) _

namespace NameRequest

/-- What a request on the names has to find for the tree to stay one. -/
def KeepsTree (cfg : Config) (w : World) : NameRequest → Prop
  | .createNode req => w.Live req.parentId
  | .deleteNode id => ∀ node, w.nodes.lookup id = some node → node.kind ≠ .directory → w.childrenOf id = []
  | .renameNode id newParentId newName => (NameCall.renameNode id newParentId newName).KeepsTree w
  | .publishNode id newParentId newName => (NameCall.publishNode id newParentId newName).KeepsTree w
  | .davOpen _ _ => True
  | .davCreateDir _ => True
  | .davRemoveFile path => ∀ node, Resolves cfg w path.asBytes node → node.kind ≠ .directory → w.childrenOf node.id = []
  | .davRemoveDir path => ∀ node, Resolves cfg w path.asBytes node → node.kind = .directory →
      node.id ≠ w.rootId ∧ w.childrenOf node.id = []
  | .davRename source target => ∀ node parent, Resolves cfg w source.asBytes node →
    Resolves cfg w target.parent parent →
      (NameCall.renameNode node.id parent.id target.fileNameBytes).KeepsTree w

end NameRequest

variable {cfg : Config} {w : World}

theorem served_tree (hw : Tree w) {request : NameRequest} (h : request.KeepsTree cfg w) :
    Tree (w.served cfg request) := by
  unfold World.served
  cases request with
  | createNode req => exact run_discard (createNode req) ▸ createNode_tree hw h
  | deleteNode id => exact run_discard (deleteNode id) ▸ deleteNode_tree hw h
  | renameNode id parentId name => exact run_discard (renameNode id parentId name) ▸ renameNode_tree hw h
  | publishNode id parentId name => exact run_discard (publishNode id parentId name) ▸ publishNode_tree hw h
  | davOpen path options => exact run_discard (Dav.openFile path options) ▸ openFile_tree hw path options
  | davCreateDir path => exact run_discard (Dav.createDir path) ▸ createDir_tree hw path
  | davRemoveFile path => exact run_discard (Dav.removeFile path) ▸ removeFile_tree hw h
  | davRemoveDir path => exact run_discard (Dav.removeDir path) ▸ removeDir_tree hw h
  | davRename source target => exact run_discard (Dav.rename source target) ▸ rename_tree hw h

inductive Requested (cfg : Config) (allows : World → NameRequest → Prop) : World → Prop
  | fresh (now : Time) : Requested cfg allows (World.fresh now)
  | step {w : World} (request : NameRequest) : Requested cfg allows w → allows w request →
      Requested cfg allows (w.served cfg request)

theorem Requested.tree (h : Requested cfg (NameRequest.KeepsTree cfg) w) : Tree w := by
  induction h with
  | fresh now => exact .fresh now
  | step request _ hrequest ih => exact served_tree ih hrequest

theorem namespace_is_tree (h : Requested cfg (NameRequest.KeepsTree cfg) w) :
    (∃ root, w.nodes.lookup (World.fresh 0).rootId = some root ∧ root.parentId = none)
      ∧ ∀ id node, w.nodes.lookup id = some node → w.Below id (World.fresh 0).rootId
        ∧ ¬ TransGen (Up w.parentOf) id id := by
  have htree := h.tree
  obtain ⟨root, hroot, hnone, -⟩ := htree.root
  refine ⟨⟨root, htree.rootId_eq ▸ hroot, hnone⟩, fun id node hnode => ⟨?_, htree.acyclic hnode⟩⟩
  exact htree.rootId_eq ▸ htree.rooted hnode

def nestedWorld : World :=
  let cfg := sample .postgres
  (((World.fresh 0).served cfg (.davCreateDir (inRoot [97]))).served cfg (.davCreateDir (inRoot [98]))).served cfg
    (.renameNode 1 2 [99])

theorem nested_is_tree :
    (∃ root, nestedWorld.nodes.lookup (World.fresh 0).rootId = some root ∧ root.parentId = none)
      ∧ ∀ id node, nestedWorld.nodes.lookup id = some node → nestedWorld.Below id (World.fresh 0).rootId
        ∧ ¬ TransGen (Up nestedWorld.parentOf) id id := by
  refine @namespace_is_tree (sample .postgres) _ (.step _ (.step _ (.step _ (.fresh 0) trivial) trivial) ?_)
  refine ⟨⟨by decide, by decide, fun hbelow => ?_⟩, ?_⟩
  · rcases hbelow.cases_head with heq | ⟨next, hnext, habove⟩
    · exact absurd heq (by decide)
    · cases hnext
      rcases habove.cases_head with heq | ⟨above, hup, -⟩
      · exact absurd heq (by decide)
      · cases hup
  · decide

theorem moved_below_itself : ∃ w, Requested (sample .postgres) (fun _ _ => True) w
    ∧ w.Live 1 ∧ TransGen (Up w.parentOf) 1 1 := by
  -- A directory is moved into one of its own: the two are above each other, and the root above neither.
  let directory (id parentId : Uuid) : NameRequest := .createNode ⟨parentId, [97], .directory, 0o755, 0, 0, none, id⟩
  let outer := (World.fresh 0).served (sample .postgres) (directory 1 0)
  let inner := outer.served (sample .postgres) (directory 2 1)
  let moved := inner.served (sample .postgres) (.renameNode 1 2 [98])
  have houter : moved.parentOf 1 = some 2 := by decide
  have hinner : moved.parentOf 2 = some 1 := by decide
  exact ⟨moved, .step _ (.step _ (.step _ (.fresh 0) trivial) trivial) trivial, by decide,
    .tail (.single houter) hinner⟩

end Dcfs
