import Dcfs.Library.Pool
import Dcfs.Names.Asked
import Dcfs.Names.Tree
import Dcfs.Server.Sample

namespace Dcfs

open Effects Tables World

namespace World

def Directory (w : World) (id : Uuid) : Prop := ∃ node, w.nodes.lookup id = some node ∧ node.kind = .directory

instance (w : World) (id : Uuid) : Decidable (w.Directory id) :=
  inferInstanceAs (Decidable (∃ node ∈ w.nodes.lookup id, node.kind = .directory))

end World

structure Parented (w : World) : Prop where
  rootId_eq : w.rootId = (World.fresh 0).rootId
  id_eq : ∀ {id node}, w.nodes.lookup id = some node → node.id = id
  child : ∀ {id node}, w.nodes.lookup id = some node → id ≠ w.rootId → node.parentId ≠ none
  parent : ∀ {id parentId}, w.parentOf id = some parentId → w.Directory parentId

variable {w u : World} {backend : Backend} {id parentId : Uuid} {name : Bytes}

namespace Parented

theorem fresh (now : Time) : Parented (World.fresh now) := by
  have hroot : ∀ {id node}, (World.fresh now).nodes.lookup id = some node → id = 0 ∧ node = rootNode 0 now := by
    intro id node h
    exact World.lookup_fresh h
  refine ⟨rfl, (UniqueNames.fresh now).id_eq, fun h hne => absurd (hroot h).1 hne, fun {id parentId} h => ?_⟩
  obtain ⟨node, hnode, hparent⟩ := parentOf_eq_some.mp h
  rw [(hroot hnode).2] at hparent
  cases hparent

theorem put (h : Parented w) (node : NodeRecord) (hrootId : u.rootId = w.rootId)
    (hnodes : ∀ i, u.nodes.lookup i = if i = id then some node else w.nodes.lookup i)
    (hid : node.id = id) (hparent : node.parentId = some parentId) (hdirectory : w.Directory parentId)
    (hkind : w.Directory id → node.kind = .directory) : Parented u := by
  have hkept : ∀ {i}, w.Directory i → u.Directory i := by
    rintro i ⟨old, hold, hdir⟩
    by_cases hi : i = id
    · exact ⟨node, by rw [hnodes, if_pos hi], hkind ⟨old, hi ▸ hold, hdir⟩⟩
    · exact ⟨old, by rw [hnodes, if_neg hi, hold], hdir⟩
  refine ⟨hrootId.trans h.rootId_eq, fun {i other} hi => ?_, fun {i other} hi hne => ?_, fun {i p} hi => ?_⟩
  · rw [hnodes] at hi
    split_ifs at hi with heq
    · cases hi
      exact hid.trans heq.symm
    · exact h.id_eq hi
  · rw [hnodes] at hi
    split_ifs at hi with heq
    · cases hi
      rw [hparent]
      nofun
    · exact h.child hi (hrootId ▸ hne)
  · obtain ⟨other, hother, hp⟩ := parentOf_eq_some.mp hi
    rw [hnodes] at hother
    split_ifs at hother with heq
    · cases hother
      cases hparent.symm.trans hp
      exact hkept hdirectory
    · exact hkept (h.parent (parentOf_eq_some.mpr ⟨other, hother, hp⟩))

theorem moved (h : Parented w) (hid : w.Live id) (hdirectory : w.Directory parentId) :
    Parented (w.moveNode id parentId name) := by
  obtain ⟨node, hnode⟩ := Option.isSome_iff_exists.mp hid
  have hkept : node.id = id := h.id_eq hnode
  refine h.put { node with parentId := some parentId, name := name, ctime := w.now } rfl (fun i => ?_) hkept rfl
    hdirectory ?_
  · rw [World.moveNode, lookup_modify]
    split_ifs with hi
    · rw [hi, hnode]
      rfl
    · rfl
  · rintro ⟨old, hold, hdir⟩
    cases hnode.symm.trans hold
    exact hdir

theorem insert (h : Parented w) {node : NodeRecord} (hfresh : w.nodes.lookup node.id = none)
    (hparent : node.parentId = some parentId) (hdirectory : w.Directory parentId) :
    Parented (w.insertNode node).2 := by
  refine h.put node rfl (fun i => lookup_insert _ _ _ _) rfl hparent hdirectory ?_
  rintro ⟨old, hold, -⟩
  cases hfresh.symm.trans hold

theorem directory_drop (hne : parentId ≠ id) (h : w.Directory parentId) :
    (w.dropNode backend id).Directory parentId := by
  obtain ⟨node, hnode, hkind⟩ := h
  exact ⟨node, lookup_dropNode.mpr ⟨hne, hnode⟩, hkind⟩

theorem dropped (h : Parented w) (hleaf : w.childrenOf id = []) : Parented (w.dropNode backend id) := by
  refine ⟨dropNode_rootId.trans h.rootId_eq, fun hi => h.id_eq (lookup_dropNode.mp hi).2, fun hi hne => ?_,
    fun {i p} hi => ?_⟩
  · rw [dropNode_rootId] at hne
    exact h.child (lookup_dropNode.mp hi).2 hne
  · obtain ⟨node, hnode, hp⟩ := parentOf_eq_some.mp hi
    have hup : w.parentOf i = some p := parentOf_eq_some.mpr ⟨node, (lookup_dropNode.mp hnode).2, hp⟩
    refine directory_drop ?_ (h.parent hup)
    rintro rfl
    exact childrenOf_eq_nil.mp hleaf i hup

theorem leaf (h : Parented w) {node : NodeRecord} (hnode : w.nodes.lookup id = some node)
    (hkind : node.kind ≠ .directory) : w.childrenOf id = [] := by
  refine childrenOf_eq_nil.mpr fun i hi => ?_
  obtain ⟨parent, hparent, hdir⟩ := h.parent hi
  cases hnode.symm.trans hparent
  exact hkind hdir

theorem replaced (h : Parented w) {victim : NodeRecord} (hvictim : victim ∈ w.childrenOf parentId)
    (hne : victim.id ≠ id) (hleaf : victim.kind = .directory → w.childrenOf victim.id = []) (hid : w.Live id)
    (hdirectory : w.Directory parentId) :
    Parented ((w.dropNode backend victim.id).moveNode id parentId name) := by
  obtain ⟨⟨i, hi⟩, hparent⟩ := mem_childrenOf.mp hvictim
  obtain rfl : victim.id = i := h.id_eq hi
  have hup : w.parentOf victim.id = some parentId := parentOf_eq_some.mpr ⟨victim, hi, hparent⟩
  have hchildren : w.childrenOf victim.id = [] := by
    by_cases hkind : victim.kind = .directory
    · exact hleaf hkind
    · exact h.leaf hi hkind
  obtain ⟨node, hnode⟩ := Option.isSome_iff_exists.mp hid
  refine (h.dropped hchildren).moved (live_of_lookup (lookup_dropNode.mpr ⟨hne.symm, hnode⟩)) ?_
  refine directory_drop ?_ hdirectory
  rintro rfl
  exact childrenOf_eq_nil.mp hchildren victim.id hup

end Parented

theorem SamePlaces.parented (h : SamePlaces w u) (hw : Parented w) : Parented u := by
  refine ⟨h.rootId.trans hw.rootId_eq, fun hi => ?_, fun hi hne => ?_, fun {i p} hi => ?_⟩
  · obtain ⟨old, hold, hid, -⟩ := h.lookup hi
    exact hid.symm.trans (hw.id_eq hold)
  · obtain ⟨old, hold, -, hparent, -⟩ := h.lookup hi
    exact hparent ▸ hw.child hold (h.rootId ▸ hne)
  · rw [h.parentOf] at hi
    obtain ⟨parent, hparent, hkind⟩ := hw.parent hi
    obtain ⟨new, hnew, -, -, hsame⟩ := h.symm.lookup hparent
    exact ⟨new, hnew, hsame.trans hkind⟩

/-- What a call on the names has to find: a live directory to put a node in, no children below one it deletes. -/
def NameCall.KeepsParents (w : World) : NameCall → Prop
  | .createNode _ parentId _ _ _ _ _ => w.Directory parentId
  | .createSymlink _ parentId _ _ _ _ => w.Directory parentId
  | .deleteNode id => w.childrenOf id = []
  | .renameNode _ newParentId _ => w.Directory newParentId
  | .publishNode _ newParentId _ => w.Directory newParentId

instance (w : World) : DecidablePred (NameCall.KeepsParents w) := fun call => by
  unfold NameCall.KeepsParents
  split <;> infer_instance

theorem NameEffect.parented {call : NameCall} (h : NameEffect w backend call u) (hw : Parented w)
    (hcall : call.KeepsParents w) : Parented u := by
  cases h with
  | refused => exact hw
  | created hid _ => exact hw.insert hid rfl hcall
  | linked hid _ _ => exact hw.insert hid rfl hcall
  | deleted _ => exact hw.dropped hcall
  | renamed hid _ => exact hw.moved hid hcall
  | replaced hid hvictim hne _ hdirectory => exact hw.replaced hvictim hne hdirectory hid hcall
  | published hid _ => exact hw.moved hid hcall

def nameServer (cfg : Config) : Service Api World Unit where
  handle := handle cfg noFaults
  ready _ _ := true
  note _ _ _ := ()

inductive Interleaved (cfg : Config) (allows : World → Call → Prop) : Pool Api World Unit → Prop
  | start (now : Time) : Interleaved cfg allows ⟨World.fresh now, []⟩
  | arrive {p : Pool Api World Unit} (request : NameRequest) : Interleaved cfg allows p →
      Interleaved cfg allows (p.spawn request.program ())
  | step {p q : Pool Api World Unit} (i : ℕ) : Interleaved cfg allows p →
      (∀ thread, p.threads[i]? = some thread → allows p.state thread.call) →
      p.advance (nameServer cfg) i = some q → Interleaved cfg allows q

def Call.KeepsParents (w : World) : Call → Prop
  | .createNode id parentId name kind mode uid gid =>
    (NameCall.createNode id parentId name kind mode uid gid).KeepsParents w
  | .createSymlink id parentId name target uid gid =>
    (NameCall.createSymlink id parentId name target uid gid).KeepsParents w
  | .deleteNode id => (NameCall.deleteNode id).KeepsParents w
  | .renameNode id newParentId newName => (NameCall.renameNode id newParentId newName).KeepsParents w
  | .publishNode id newParentId newName => (NameCall.publishNode id newParentId newName).KeepsParents w
  | _ => True

instance (w : World) : DecidablePred (Call.KeepsParents w) := fun c => by
  unfold Call.KeepsParents
  split <;> infer_instance

variable {cfg : Config} {w : World}

theorem Parented.named (hw : Parented w) (call : NameCall) (hcall : call.KeepsParents w) (backend : Backend) :
    Parented (w.named backend call) := (named_effect w backend call).parented hw hcall

theorem perform_parented (hw : Parented w) {c : Call} (hc : c.OnNames) (hallowed : c.KeepsParents w) :
    Parented (perform cfg noFaults w c).2 := by
  cases c with
  | query q => exact hw
  | newUuid => exact ⟨hw.rootId_eq, hw.id_eq, hw.child, hw.parent⟩
  | createNode id parentId name kind mode uid gid =>
    exact hw.named (.createNode id parentId name kind mode uid gid) hallowed _
  | createSymlink id parentId name target uid gid =>
    exact hw.named (.createSymlink id parentId name target uid gid) hallowed _
  | deleteNode id => exact hw.named (.deleteNode id) hallowed _
  | renameNode id newParentId newName => exact hw.named (.renameNode id newParentId newName) hallowed _
  | publishNode id newParentId newName => exact hw.named (.publishNode id newParentId newName) hallowed _
  | updateNodeAttr id mode uid gid size mtime atime =>
    exact (updateNodeAttr_places w id mode uid gid size mtime atime).parented hw
  | _ => exact hc.elim

theorem Interleaved.parented {p : Pool Api World Unit} (h : Interleaved cfg Call.KeepsParents p) :
    p.Holds (nameServer cfg).note (fun c _ => Call.OnNames c) Parented (fun _ _ => True) := by
  induction h with
  | start now =>
    exact ⟨.fresh now, fun _ hmem => absurd hmem List.not_mem_nil, fun _ hmem => absurd hmem List.not_mem_nil⟩
  | arrive request _ ih =>
    refine ih.spawn trivial ?_
    exact request.asks.meets (fun c hc _ _ => ⟨hc, fun _ _ _ => trivial⟩) trivial
  | step i _ hallowed hq ih =>
    refine ih.advance hq fun thread hthread hc _ _ => ?_
    exact ⟨perform_parented ih.state hc (hallowed thread hthread), trivial, fun _ _ _ => trivial⟩

def makeDirectory (id parentId : Uuid) : NameRequest :=
  .createNode ⟨parentId, [97], .directory, 0o755, 0, 0, none, id⟩

def arrived (requests : List NameRequest) : Pool Api World Unit :=
  requests.foldl (fun p request => p.spawn request.program ()) ⟨World.fresh 0, []⟩

theorem interleaved_arrived {allows : World → Call → Prop} (requests : List NameRequest) :
    Interleaved cfg allows (arrived requests) := by
  have hfold : ∀ p, Interleaved cfg allows p →
      Interleaved cfg allows (requests.foldl (fun p request => p.spawn request.program ()) p) := by
    induction requests with
    | nil => exact fun p hp => hp
    | cons request rest ih => exact fun p hp => ih _ (hp.arrive request)
  exact hfold _ (.start 0)

theorem no_orphans {p : Pool Api World Unit} (h : Interleaved cfg Call.KeepsParents p) {id : Uuid} {node : NodeRecord}
    (hnode : p.state.nodes.lookup id = some node) (hne : id ≠ (World.fresh 0).rootId) :
    ∃ parentId parent, node.parentId = some parentId ∧ p.state.nodes.lookup parentId = some parent
      ∧ parent.kind = .directory := by
  have hw := h.parented.state
  obtain ⟨parentId, hparentId⟩ := Option.ne_none_iff_exists'.mp (hw.child hnode (hw.rootId_eq ▸ hne))
  obtain ⟨parent, hparent, hkind⟩ := hw.parent (parentOf_eq_some.mpr ⟨node, hnode, hparentId⟩)
  exact ⟨parentId, parent, hparentId, hparent, hkind⟩

theorem no_orphans_beside : ∃ p, Interleaved (sample .memory) Call.KeepsParents p ∧ ¬ p.state.Live 2
    ∧ ∃ node, p.state.nodes.lookup 3 = some node ∧ ∃ parentId parent, node.parentId = some parentId
      ∧ p.state.nodes.lookup parentId = some parent ∧ parent.kind = .directory := by
  let requests := arrived [makeDirectory 1 0, makeDirectory 2 1, .deleteNode 2,
    .createNode ⟨1, [98], .file, 0o644, 0, 0, none, 3⟩]
  obtain ⟨p, hp, hlive, hgone⟩ : ∃ p ∈ requests.schedule (nameServer (sample .memory))
      (fun p i => decide (∀ thread ∈ p.threads[i]?, thread.call.KeepsParents p.state)) [0, 0, 0, 0, 1, 0],
      (p.state.nodes.lookup 3).isSome ∧ ¬ p.state.Live 2 := by
    decide
  obtain ⟨node, hnode⟩ := Option.isSome_iff_exists.mp hlive
  have hrun : Interleaved (sample .memory) Call.KeepsParents p :=
    Pool.schedule_induction (fun _ _ i hp hcheck hq => hp.step i (of_decide_eq_true hcheck) hq)
      (interleaved_arrived _) hp
  exact ⟨p, hrun, hgone, node, hnode, no_orphans hrun hnode (by decide)⟩

theorem orphaned_by_removal : ∃ p, Interleaved (sample .postgres) (fun _ _ => True) p
    ∧ ∃ node, p.state.nodes.lookup 2 = some node ∧ node.parentId = some 1 ∧ ¬ p.state.Live 1 := by
  -- A directory is made, found empty by the request to remove it, and removed after another has been made in it.
  let requests := arrived [makeDirectory 1 0, .deleteNode 1, makeDirectory 2 1]
  obtain ⟨p, hp, node, hnode, hparent, hdead⟩ : ∃ p ∈ requests.schedule (nameServer (sample .postgres))
      (fun _ _ => true) [0, 0, 0, 1, 0], ∃ node ∈ p.state.nodes.lookup 2,
        node.parentId = some 1 ∧ ¬ p.state.Live 1 := by
    decide
  have hrun : Interleaved (sample .postgres) (fun _ _ => True) p :=
    Pool.schedule_induction (fun _ _ i hp _ hq => hp.step i (fun _ _ => trivial) hq) (interleaved_arrived _) hp
  exact ⟨p, hrun, node, hnode, hparent, hdead⟩

end Dcfs
