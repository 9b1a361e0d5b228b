import Dcfs.Names.Tree
import Dcfs.Server.Dav
import Dcfs.Server.Exec

namespace Dcfs

open Effects Tables World Exec

inductive NameRequest
  | createNode (req : CreateNodeRequest)
  | deleteNode (id : Uuid)
  | renameNode (id newParentId : Uuid) (newName : Bytes)
  | publishNode (id newParentId : Uuid) (newName : Bytes)
  | davOpen (path : DavPath) (options : OpenOptions)
  | davCreateDir (path : DavPath)
  | davRemoveFile (path : DavPath)
  | davRemoveDir (path : DavPath)
  | davRename (source target : DavPath)

namespace NameRequest

def program : NameRequest → Program Api Unit
  | .createNode req => (Dcfs.createNode req).run >>= fun _ => pure ()
  | .deleteNode id => (Dcfs.deleteNode id).run >>= fun _ => pure ()
  | .renameNode id newParentId newName => (Dcfs.renameNode id newParentId newName).run >>= fun _ => pure ()
  | .publishNode id newParentId newName => (Dcfs.publishNode id newParentId newName).run >>= fun _ => pure ()
  | .davOpen path options => (Dav.openFile path options).run >>= fun _ => pure ()
  | .davCreateDir path => (Dav.createDir path).run >>= fun _ => pure ()
  | .davRemoveFile path => (Dav.removeFile path).run >>= fun _ => pure ()
  | .davRemoveDir path => (Dav.removeDir path).run >>= fun _ => pure ()
  | .davRename source target => (Dav.rename source target).run >>= fun _ => pure ()

end NameRequest

def World.served (cfg : Config) (w : World) (request : NameRequest) : World :=
  (Program.run (handle cfg noFaults) request.program w).2

variable {cfg : Config} {w : World} {ε α β : Type}

theorem run_discard (p : ExceptT ε (Program Api) α) :
    (Program.run (handle cfg noFaults) (p.run >>= fun _ => pure ()) w).2 = (exec cfg noFaults p w).2 := by
  rw [Program.run_bind]
  rfl

def Resolves (cfg : Config) (w : World) (path : Bytes) (node : NodeRecord) : Prop :=
  (exec cfg noFaults (Dav.resolve path) w).1 = .ok node

section dav

variable {faults : Faults}

theorem exec_davAsk (c : Call) (f : c.Reply → Dav.Op α) :
    exec cfg faults (Dav.ask c >>= f) w =
      exec cfg faults (f (perform cfg faults w c).1) (perform cfg faults w c).2 := rfl

theorem exec_davRepo (a : Answer α) : (exec cfg faults (Dav.repo a) w).2 = w := by
  cases a with
  | ok a => rfl
  | error e => rfl

theorem exec_attempt (op : Dav.Op α) (f : Except FsError α → Dav.Op β) :
    exec cfg faults (Dav.attempt op >>= f) w =
      exec cfg faults (f (exec cfg faults op w).1) (exec cfg faults op w).2 := by
  change Program.run _ (((op.run >>= fun a => pure (Except.ok a))) >>= _) w = _
  rw [Program.run_bind, Program.run_bind]
  rfl

section found

variable (hid : ∀ {id node}, w.nodes.lookup id = some node → node.id = id)

include hid

theorem exec_walk {node : NodeRecord} (hnode : w.nodes.lookup node.id = some node) (path : List Bytes) :
    ∃ r, exec cfg faults (Dav.walk node path) w = (r, w)
      ∧ ∀ found, r = .ok found → w.nodes.lookup found.id = some found := by
  induction path generalizing node with
  | nil => exact ⟨.ok node, rfl, fun found h => Except.ok.inj h ▸ hnode⟩
  | cons segment rest ih =>
    unfold Dav.walk
    split_ifs with hempty
    · exact ih hnode
    · rw [exec_davAsk]
      change ∃ r, exec cfg faults (Dav.repo (w.findChild node.id segment) >>= _) w = _ ∧ _
      unfold World.findChild
      cases hchild : w.namedChild node.id segment with
      | none => exact ⟨.error .notFound, rfl, fun _ h => by cases h⟩
      | some child =>
        obtain ⟨⟨id, hlook⟩, -⟩ := mem_childrenOf.mp (List.mem_of_find?_eq_some hchild)
        exact ih (hid hlook ▸ hlook)

theorem getRoot_live {backend : Backend} {root : NodeRecord} (h : w.getRoot backend = .ok root) :
    w.nodes.lookup root.id = some root := by
  cases backend with
  | memory =>
    unfold World.getRoot World.getNode at h
    cases hnode : w.nodes.lookup w.rootId with
    | none =>
      simp only [hnode] at h
      cases h
    | some node =>
      simp only [hnode, Except.ok.injEq] at h
      rw [← h, hid hnode, hnode]
  | postgres =>
    unfold World.getRoot at h
    cases hfound : (values w.nodes).find? (fun n => n.parentId.isNone) with
    | none =>
      simp only [hfound] at h
      cases h
    | some node =>
      simp only [hfound, Except.ok.injEq] at h
      obtain ⟨id, hlook⟩ := mem_values.mp (List.mem_of_find?_eq_some hfound)
      rw [← h, hid hlook, hlook]

variable (cfg faults) in
theorem exec_resolve_found (path : Bytes) : ∃ r, exec cfg faults (Dav.resolve path) w = (r, w)
    ∧ ∀ found, r = .ok found → w.nodes.lookup found.id = some found := by
  unfold Dav.resolve
  rw [exec_davAsk]
  change ∃ r, exec cfg faults (Dav.repo (w.getRoot cfg.backend) >>= _) w = _ ∧ _
  cases hroot : w.getRoot cfg.backend with
  | error e => exact ⟨.error (toFsError e), rfl, fun _ h => by cases h⟩
  | ok root => exact exec_walk hid (getRoot_live hid hroot) (path.splitOn 0x2f)

end found

theorem exec_resolve (cfg : Config) (hw : Tree w) (path : Bytes) : ∃ r, exec cfg noFaults (Dav.resolve path) w = (r, w)
    ∧ ∀ found, r = .ok found → w.nodes.lookup found.id = some found :=
  exec_resolve_found cfg noFaults hw.id_eq path

theorem exec_resolveParent (cfg : Config) (hw : Tree w) (path : DavPath) :
    ∃ r, exec cfg noFaults (Dav.resolveParent path) w = (r, w)
      ∧ ∀ parent name, r = .ok (parent, name) → w.nodes.lookup parent.id = some parent
        ∧ name = path.fileNameBytes ∧ Resolves cfg w path.parent parent := by
  unfold Dav.resolveParent
  dsimp only
  split_ifs with hempty
  · exact ⟨.error .forbidden, rfl, fun _ _ h => by cases h⟩
  · obtain ⟨r, hr, hlive⟩ := exec_resolve cfg hw path.parent
    cases r with
    | error e =>
      rw [exec_bind_error hr]
      exact ⟨.error e, rfl, fun _ _ h => by cases h⟩
    | ok parent =>
      rw [exec_bind_ok hr, exec_pure]
      refine ⟨.ok (parent, path.fileNameBytes), rfl, fun found name hfound => ?_⟩
      cases hfound
      exact ⟨hlive parent rfl, rfl, congrArg Prod.fst hr⟩

end dav

end Dcfs
