import Dcfs.Fuse.Deletes

namespace Dcfs.Fuse

open Effects Exec World Tables Machine

variable {cfg : Config} {faults : Faults} {client : HttpClient} {req : CreateNodeRequest} {w v u : World}

structure Untouched (req : CreateNodeRequest) (w v : World) : Prop where
  node : v.nodes.lookup req.idempotencyKey = w.nodes.lookup req.idempotencyKey
  row : v.hasRow req.idempotencyKey = w.hasRow req.idempotencyKey
  parent : v.hasRow req.parentId = w.hasRow req.parentId
  name : (v.namedChild req.parentId req.name).isSome = (w.namedChild req.parentId req.name).isSome

theorem Untouched.refl (req : CreateNodeRequest) (w : World) : Untouched req w w := ⟨rfl, rfl, rfl, rfl⟩

theorem Untouched.trans (h : Untouched req w v) (h' : Untouched req v u) : Untouched req w u :=
  ⟨h'.node.trans h.node, h'.row.trans h.row, h'.parent.trans h.parent, h'.name.trans h.name⟩

structure Creation (req : CreateNodeRequest) where
  node : World → NodeRecord
  refuse : World → Option RepositoryError
  id_eq : ∀ w, (node w).id = req.idempotencyKey
  name_eq : ∀ w, (node w).name = req.name
  taken : ∀ w, (w.nodes.lookup req.idempotencyKey).isSome → refuse w = some .alreadyExists
  untouched : ∀ w v, Untouched req w v → refuse v = refuse w

namespace Creation

def perform (creation : Creation req) (w : World) : Answer NodeRecord × World :=
  match creation.refuse w with
  | some e => (.error e, w)
  | none => w.insertNode (creation.node w)

end Creation

def refuseRow (req : CreateNodeRequest) (w : World) : Option RepositoryError :=
  if w.hasRow req.idempotencyKey || (w.namedChild req.parentId req.name).isSome then some .alreadyExists
  else if !w.hasRow req.parentId then some foreignKeyViolation
  else none

theorem refuseRow_taken (h : (w.nodes.lookup req.idempotencyKey).isSome) :
    refuseRow req w = some .alreadyExists := by
  simp [refuseRow, World.hasRow, h]

theorem refuseRow_untouched (h : Untouched req w v) : refuseRow req v = refuseRow req w := by
  rw [refuseRow, h.row, h.name, h.parent, refuseRow]

theorem insertNodeRow_eq (node : NodeRecord) (hid : node.id = req.idempotencyKey) (hname : node.name = req.name) :
    w.insertNodeRow req.parentId node
      = match refuseRow req w with
        | some e => (.error e, w)
        | none => w.insertNode node := by
  rw [World.insertNodeRow, refuseRow, hid, hname]
  split_ifs <;> rfl

def refuseNode (backend : Backend) (req : CreateNodeRequest) (w : World) : Option RepositoryError :=
  match backend with
  | .memory => if (w.nodes.lookup req.idempotencyKey).isSome then some .alreadyExists else none
  | .postgres => refuseRow req w

def refuseLink (backend : Backend) (req : CreateNodeRequest) (w : World) : Option RepositoryError :=
  match backend with
  | .memory =>
    if (w.nodes.lookup req.idempotencyKey).isSome || (w.namedChild req.parentId req.name).isSome then
      some .alreadyExists
    else none
  | .postgres => refuseRow req w

def creationOfNode (backend : Backend) (req : CreateNodeRequest) (kind : NodeKind) : Creation req where
  node w := w.newNode req.idempotencyKey req.parentId req.name kind (asI32 req.mode) (asI32 req.uid)
    (asI32 req.gid) 0 none
  refuse := refuseNode backend req
  id_eq _ := rfl
  name_eq _ := rfl
  taken w h := by
    cases backend with
    | memory => exact if_pos h
    | postgres => exact refuseRow_taken h
  untouched w v h := by
    cases backend with
    | memory => rw [refuseNode, h.node, refuseNode]
    | postgres => exact refuseRow_untouched h

def creationOfLink (backend : Backend) (req : CreateNodeRequest) (target : Bytes) : Creation req where
  node w := w.newNode req.idempotencyKey req.parentId req.name .symlink 0o120777 (asI32 req.uid)
    (asI32 req.gid) (asI64 target.length) (some target)
  refuse := refuseLink backend req
  id_eq _ := rfl
  name_eq _ := rfl
  taken w h := by
    cases backend with
    | memory => exact if_pos (by rw [h]; rfl)
    | postgres => exact refuseRow_taken h
  untouched w v h := by
    cases backend with
    | memory => rw [refuseLink, h.node, h.name, refuseLink]
    | postgres => exact refuseRow_untouched h

theorem createNode_eq (backend : Backend) (kind : NodeKind) (w : World) :
    w.createNode backend req.idempotencyKey req.parentId req.name kind (asI32 req.mode) (asI32 req.uid)
      (asI32 req.gid) = (creationOfNode backend req kind).perform w := by
  cases backend with
  | memory =>
    simp only [World.createNode, Creation.perform, creationOfNode, refuseNode]
    split_ifs <;> rfl
  | postgres => exact insertNodeRow_eq _ rfl rfl

theorem createSymlink_eq (backend : Backend) (target : Bytes) (w : World) :
    w.createSymlink backend req.idempotencyKey req.parentId req.name target (asI32 req.uid)
      (asI32 req.gid) = (creationOfLink backend req target).perform w := by
  cases backend with
  | memory =>
    simp only [World.createSymlink, Creation.perform, creationOfLink, refuseLink, Bool.or_eq_true]
    by_cases hid : (w.nodes.lookup req.idempotencyKey).isSome = true <;>
      by_cases hname : (w.namedChild req.parentId req.name).isSome = true <;> simp [hid, hname]
  | postgres => exact insertNodeRow_eq _ rfl rfl

theorem exec_createNode (cfg : Config) (faults : Faults) (req : CreateNodeRequest) :
    (∃ message, ∀ w, exec cfg faults (Dcfs.createNode req) w = (.error (.badRequest message), w))
      ∨ ∃ creation : Creation req, ∀ w, exec cfg faults (Dcfs.createNode req) w
        = exec cfg faults (Request.repo (creation.perform w).1) (creation.perform w).2 := by
  unfold Dcfs.createNode checkName
  cases hname : toName req.name with
  | error e => exact .inl ⟨_, fun _ => rfl⟩
  | ok name =>
    have hsame : name = req.name := by
      unfold toName at hname
      split_ifs at hname
      exact (Except.ok.inj hname).symm
    subst hsame
    simp only [pure_bind]
    split
    · exact .inl ⟨_, fun _ => rfl⟩
    · split_ifs
      · exact .inl ⟨_, fun _ => rfl⟩
      · rename_i target _ _ _
        refine .inr ⟨creationOfLink cfg.backend req target, fun w => ?_⟩
        rw [exec_ask, ← createSymlink_eq]
        rfl
    · exact .inl ⟨_, fun _ => rfl⟩
    · refine .inr ⟨creationOfNode cfg.backend req req.kind, fun w => ?_⟩
      rw [exec_ask, ← createNode_eq]
      rfl

variable {link : Link} {wire : Wire}

def Creates (link : Link) (req : CreateNodeRequest) (w : World) : Prop :=
  ∃ node, (exec link.cfg link.faults (Dcfs.createNode req) w).1 = .ok node

theorem route_post (creation : Creation req) (w : World) (hexec : exec link.cfg link.faults (Dcfs.createNode req) w
      = exec link.cfg link.faults (Request.repo (creation.perform w).1) (creation.perform w).2) :
    link.route 201 (postNode req) w = match creation.refuse w with
      | some e => (⟨(AppError.ofRepository e).status, .error (AppError.ofRepository e).message⟩, w)
      | none => (⟨201, .ok (nodeToResponse (creation.node w))⟩, (w.insertNode (creation.node w)).2) := by
  rw [Link.route, postNode, exec_bind, hexec, Creation.perform]
  cases creation.refuse w with
  | some e => rfl
  | none => rfl

theorem creates_iff {creation : Creation req} (hexec : ∀ w, exec link.cfg link.faults (Dcfs.createNode req) w
      = exec link.cfg link.faults (Request.repo (creation.perform w).1) (creation.perform w).2) :
    Creates link req w ↔ creation.refuse w = none := by
  rw [Creates, hexec, Creation.perform]
  cases creation.refuse w with
  | some e =>
    refine ⟨?_, nofun⟩
    rintro ⟨node, hnode⟩
    cases hnode
  | none => exact ⟨fun _ => rfl, fun _ => ⟨_, rfl⟩⟩

theorem ofRepository_status (e : RepositoryError) : (AppError.ofRepository e).status ≠ 201 := by
  cases e with
  | database detail => exact (by decide : (500 : ℕ) ≠ 201)
  | _ => decide

structure NotYet (req : CreateNodeRequest) (w : World) (wire : Wire) : Prop where
  untouched : Untouched req w wire.world
  served : 201 ∉ wire.served

structure Made (req : CreateNodeRequest) (wire : Wire) : Prop where
  node : ∃ node, wire.world.nodes.lookup req.idempotencyKey = some node ∧ node.name = req.name
  once : wire.served.count 201 = 1

def Apart (link : Link) (req : CreateNodeRequest) : Prop := ∀ j w, Untouched req w (link.others j w)

section steps

variable (hothers : Apart link req)

include hothers

theorem NotYet.of_status {α : Type} {status : ℕ} {request : Request α} (h : NotYet req w wire)
    (hstatus : (link.route status request wire.world).1.status ≠ 201)
    (hworld : (link.route status request wire.world).2 = wire.world) :
    NotYet req w (link.send status request wire).2 := by
  refine ⟨?_, ?_⟩
  · rw [send_world, hworld, ite_self]
    exact h.untouched.trans (hothers _ _)
  · rw [send_served]
    split_ifs
    · rw [List.mem_cons, not_or]
      exact ⟨hstatus.symm, h.served⟩
    · exact h.served

theorem Made.of_status {α : Type} {status : ℕ} {request : Request α} (h : Made req wire)
    (hstatus : (link.route status request wire.world).1.status ≠ 201)
    (hworld : (link.route status request wire.world).2 = wire.world) :
    Made req (link.send status request wire).2 := by
  obtain ⟨node, hnode, hname⟩ := h.node
  refine ⟨⟨node, ?_, hname⟩, ?_⟩
  · rw [send_world, hworld, ite_self, (hothers _ _).node, hnode]
  · rw [send_served]
    split_ifs
    · rw [List.count_cons_of_ne hstatus, h.once]
    · exact h.once

theorem NotYet.refused (hno : ¬ Creates link req w) (h : NotYet req w wire) :
    NotYet req w (link.send 201 (postNode req) wire).2 := by
  rcases exec_createNode link.cfg link.faults req with ⟨message, hrefused⟩ | ⟨creation, hexec⟩
  · have hroute : link.route 201 (postNode req) wire.world
        = (⟨400, .error message⟩, wire.world) := by
      rw [Link.route, postNode, exec_bind, hrefused]
      rfl
    exact h.of_status hothers (by rw [hroute]; exact (by decide : (400 : ℕ) ≠ 201)) (by rw [hroute])
  · rw [creates_iff hexec, ← creation.untouched _ _ h.untouched] at hno
    obtain ⟨e, he⟩ := Option.ne_none_iff_exists'.mp hno
    have hroute := route_post creation wire.world (hexec _)
    rw [he] at hroute
    exact h.of_status hothers (by rw [hroute]; exact ofRepository_status e) (by rw [hroute])

theorem NotYet.granted (hyes : Creates link req w) (h : NotYet req w wire) :
    (link.route 201 (postNode req) wire.world).1.status = 201
      ∧ ((link.deliveries wire.sent).applied = true → Made req (link.send 201 (postNode req) wire).2)
      ∧ ((link.deliveries wire.sent).applied = false → NotYet req w (link.send 201 (postNode req) wire).2) := by
  rcases exec_createNode link.cfg link.faults req with ⟨message, hrefused⟩ | ⟨creation, hexec⟩
  · obtain ⟨node, hnode⟩ := hyes
    rw [hrefused] at hnode
    cases hnode
  · rw [creates_iff hexec, ← creation.untouched _ _ h.untouched] at hyes
    have hroute := route_post creation wire.world (hexec _)
    rw [hyes] at hroute
    refine ⟨by rw [hroute], fun happlied => ⟨⟨creation.node wire.world, ?_, creation.name_eq _⟩, ?_⟩, ?_⟩
    · rw [send_world, (hothers _ _).node, happlied, if_pos rfl, hroute]
      dsimp only
      rw [World.insertNode, creation.id_eq, lookup_insert, if_pos rfl]
    · rw [send_served, happlied, if_pos rfl, hroute, List.count_cons_self, List.count_eq_zero_of_not_mem h.served]
    · intro happlied
      refine ⟨?_, ?_⟩
      · rw [send_world, happlied, if_neg Bool.false_ne_true]
        exact h.untouched.trans (hothers _ _)
      · rw [send_served, happlied, if_neg Bool.false_ne_true]
        exact h.served

theorem Made.again (hyes : Creates link req w) (h : Made req wire) :
    (link.route 201 (postNode req) wire.world).1.status = 409 ∧ Made req (link.send 201 (postNode req) wire).2 := by
  rcases exec_createNode link.cfg link.faults req with ⟨message, hrefused⟩ | ⟨creation, hexec⟩
  · obtain ⟨node, hnode⟩ := hyes
    rw [hrefused] at hnode
    cases hnode
  · obtain ⟨node, hnode, -⟩ := h.node
    have hroute := route_post creation wire.world (hexec _)
    rw [creation.taken _ (Option.isSome_of_mem hnode)] at hroute
    have hstatus : (link.route 201 (postNode req) wire.world).1.status = 409 := by
      rw [hroute]
      rfl
    exact ⟨hstatus, h.of_status hothers (by rw [hstatus]; decide) (by rw [hroute])⟩

end steps

end Dcfs.Fuse
