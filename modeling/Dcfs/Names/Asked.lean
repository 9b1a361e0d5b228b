import Dcfs.Names.Requests

namespace Dcfs

open Effects Tables World

variable {cfg : Config} {ε α β : Type}

def Call.OnNames : Call → Prop
  | .query _ => True
  | .newUuid => True
  | .createNode _ _ _ _ _ _ _ => True
  | .createSymlink _ _ _ _ _ _ => True
  | .deleteNode _ => True
  | .renameNode _ _ _ => True
  | .publishNode _ _ _ => True
  | .updateNodeAttr _ _ _ _ _ _ _ => True
  | _ => False

def Asks (p : ExceptT ε (Program Api) α) : Prop := p.run.Uses (I := Api) Call.OnNames

namespace Asks

theorem ok (a : α) : Asks (pure a : ExceptT ε (Program Api) α) := trivial

theorem error (e : ε) : Asks (throw e : ExceptT ε (Program Api) α) := trivial

theorem bind {x : ExceptT ε (Program Api) α} {f : α → ExceptT ε (Program Api) β} (hx : Asks x)
    (hf : ∀ a, Asks (f a)) : Asks (x >>= f) := by
  rw [Asks, ExceptT.run_bind]
  refine Program.Uses.bind hx fun result => ?_
  cases result with
  | ok a => exact hf a
  | error e => trivial

theorem ask (c : Call) (h : c.OnNames) : Asks (Request.ask c) := ⟨h, fun _ => trivial⟩

theorem davAsk (c : Call) (h : c.OnNames) : Asks (Dav.ask c) := ⟨h, fun _ => trivial⟩

theorem query (q : Query) : Asks (Request.ask (.query q)) := ask _ trivial

theorem attempt {op : Dav.Op α} (h : Asks op) : Asks (Dav.attempt op) := Program.Uses.bind h fun _ => trivial

theorem repo (a : Answer α) : Asks (Request.repo a) := by
  cases a with
  | ok a => trivial
  | error e => trivial

theorem davRepo (a : Answer α) : Asks (Dav.repo a) := by
  cases a with
  | ok a => trivial
  | error e => trivial

end Asks

theorem checkName_asks (name : Bytes) : Asks (checkName name) := by
  unfold checkName
  cases toName name with
  | ok name => trivial
  | error e => trivial

theorem createNode_asks (req : CreateNodeRequest) : Asks (createNode req) := by
  refine (checkName_asks _).bind fun name => ?_
  have hlink := fun target => (Asks.ask (.createSymlink req.idempotencyKey req.parentId name target
    (Machine.asI32 req.uid) (Machine.asI32 req.gid)) trivial).bind Asks.repo
  split
  · exact .error _
  · split_ifs
    · exact (Asks.error _).bind fun _ => hlink _
    · exact hlink _
  · exact .error _
  · exact (Asks.ask (.createNode _ _ _ _ _ _ _) trivial).bind Asks.repo

theorem deleteNode_asks (id : Uuid) : Asks (deleteNode id) := by
  have hdelete := (Asks.ask (.deleteNode id) trivial).bind Asks.repo
  refine (Asks.query _).bind fun _ => (Asks.repo _).bind fun node => ?_
  dsimp only
  by_cases hroot : node.parentId.isNone = true
  · simp only [hroot, if_true]
    split
    · refine (Asks.query _).bind fun _ => (Asks.repo _).bind fun children => ?_
      split
      · exact (Asks.error _).bind fun _ => (Asks.error _).bind fun _ => hdelete
      · exact (Asks.error _).bind fun _ => hdelete
    · exact hdelete
  · simp only [hroot]
    split
    · refine (Asks.query _).bind fun _ => (Asks.repo _).bind fun children => ?_
      split
      · exact (Asks.error _).bind fun _ => hdelete
      · exact hdelete
    · exact hdelete

theorem renameNode_asks (id newParentId : Uuid) (newName : Bytes) : Asks (renameNode id newParentId newName) := by
  refine (checkName_asks _).bind fun name => (Asks.query _).bind fun _ => (Asks.repo _).bind fun source =>
    (Asks.query _).bind fun _ => (Asks.repo _).bind fun children => ?_
  have hrename := (Asks.ask (.renameNode id newParentId name) trivial).bind fun r => (Asks.repo r).bind fun _ =>
    Asks.bind (Asks.query (.getNode id)) Asks.repo
  split
  · split_ifs
    · exact (Asks.error _).bind fun _ => hrename
    · exact hrename
  · exact hrename

theorem publishNode_asks (id newParentId : Uuid) (newName : Bytes) : Asks (publishNode id newParentId newName) :=
  (checkName_asks _).bind fun name => (Asks.ask (.publishNode id newParentId name) trivial).bind fun r =>
    (Asks.repo r).bind fun _ => (Asks.query _).bind Asks.repo

section dav

theorem walk_asks (node : NodeRecord) (path : List Bytes) : Asks (Dav.walk node path) := by
  induction path generalizing node with
  | nil => exact .ok node
  | cons segment rest ih =>
    unfold Dav.walk
    split_ifs
    · exact ih node
    · exact (Asks.davAsk (.query _) trivial).bind fun r => (Asks.davRepo r).bind fun child => ih child

theorem resolve_asks (path : Bytes) : Asks (Dav.resolve path) :=
  (Asks.davAsk (.query .getRoot) trivial).bind fun r => (Asks.davRepo r).bind fun root => walk_asks root _

theorem resolveParent_asks (path : DavPath) : Asks (Dav.resolveParent path) := by
  unfold Dav.resolveParent
  dsimp only
  split_ifs
  · exact .error _
  · exact (resolve_asks _).bind fun _ => .ok _

theorem make_asks (path : DavPath) (kind : NodeKind) (mode : ℤ) : Asks (Dav.make path kind mode) :=
  (resolveParent_asks path).bind fun _ => (Asks.davAsk .newUuid trivial).bind fun _ =>
    (Asks.davAsk (.createNode _ _ _ _ _ _ _) trivial).bind Asks.davRepo

theorem openFile_asks (path : DavPath) (options : OpenOptions) : Asks (Dav.openFile path options) := by
  refine (resolve_asks path.asBytes).attempt.bind fun existing => ?_
  split
  · unfold Dav.openFound
    split_ifs
    · exact .error _
    · exact .error _
    · exact (Asks.davAsk (.updateNodeAttr _ _ _ _ _ _ _) trivial).bind fun r => (Asks.davRepo r).bind fun _ => .ok _
    · exact .ok _
  · split_ifs
    · exact make_asks path _ _
    · exact .error _
  · exact .error _

theorem createDir_asks (path : DavPath) : Asks (Dav.createDir path) := by
  refine (resolve_asks path.asBytes).attempt.bind fun existing => ?_
  split
  · exact .error _
  · exact (make_asks path _ _).bind fun _ => .ok ()

theorem removeFile_asks (path : DavPath) : Asks (Dav.removeFile path) := by
  refine (resolve_asks path.asBytes).bind fun node => ?_
  split_ifs
  · exact .error _
  · exact (Asks.davAsk (.deleteNode node.id) trivial).bind Asks.davRepo

theorem removeDir_asks (path : DavPath) : Asks (Dav.removeDir path) := by
  refine (resolve_asks path.asBytes).bind fun node => ?_
  split_ifs
  · exact .error _
  · exact (Asks.davAsk (.deleteNode node.id) trivial).bind Asks.davRepo

theorem rename_asks (source target : DavPath) : Asks (Dav.rename source target) :=
  (resolve_asks source.asBytes).bind fun node => (resolveParent_asks target).bind fun _ =>
    (Asks.davAsk (.renameNode node.id _ _) trivial).bind Asks.davRepo

end dav

theorem NameRequest.asks (request : NameRequest) : request.program.Uses (I := Api) Call.OnNames := by
  cases request with
  | createNode req => exact Program.Uses.bind (createNode_asks req) fun _ => trivial
  | deleteNode id => exact Program.Uses.bind (deleteNode_asks id) fun _ => trivial
  | renameNode id newParentId newName =>
    exact Program.Uses.bind (renameNode_asks id newParentId newName) fun _ => trivial
  | publishNode id newParentId newName =>
    exact Program.Uses.bind (publishNode_asks id newParentId newName) fun _ => trivial
  | davOpen path options => exact Program.Uses.bind (openFile_asks path options) fun _ => trivial
  | davCreateDir path => exact Program.Uses.bind (createDir_asks path) fun _ => trivial
  | davRemoveFile path => exact Program.Uses.bind (removeFile_asks path) fun _ => trivial
  | davRemoveDir path => exact Program.Uses.bind (removeDir_asks path) fun _ => trivial
  | davRename source target => exact Program.Uses.bind (rename_asks source target) fun _ => trivial

end Dcfs
