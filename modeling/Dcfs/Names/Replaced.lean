import Dcfs.Names.Rooted

namespace Dcfs

open Effects Tables World Exec

namespace World

def victimOf (w : World) (id newParentId : Uuid) (newName : Bytes) : Option NodeRecord :=
  (w.childrenOf newParentId).find? (fun n => n.id != id && n.name == newName)

def InUse (w : World) (node : NodeRecord) : Prop := node.kind = .directory ∧ w.childrenOf node.id ≠ []

/-- What is gone was of the kind and, if a directory, empty. -/
def LosesAlike (w u : World) (kind : NodeKind) : Prop :=
  ∀ id node, w.nodes.lookup id = some node → u.nodes.lookup id = none → node.kind = kind ∧ ¬ w.InUse node

end World

/-- The handler sees, in the entries it lists, another node of another kind under the name. -/
def Noticed (cfg : Config) (w : World) (id newParentId : Uuid) (newName : Bytes) (kind : NodeKind) : Prop :=
  ∃ listed target, w.listChildren cfg.backend newParentId 1000 0 = .ok listed
    ∧ listed.find? (fun c => c.name == newName) = some target ∧ target.id ≠ id ∧ target.kind ≠ kind

variable {cfg : Config} {w u : World} {backend : Backend} {id parentId : Uuid} {name : Bytes} {kind : NodeKind}
  {ε α : Type}

theorem victimOf_live (hw : Tree w) {victim : NodeRecord} (h : w.victimOf id parentId name = some victim) :
    w.nodes.lookup victim.id = some victim ∧ victim.id ≠ id := by
  obtain ⟨⟨key, hkey⟩, -⟩ := mem_childrenOf.mp (List.mem_of_find?_eq_some h)
  have hfound : victim.id ≠ id ∧ victim.name = name := by simpa using List.find?_some h
  rw [hw.id_eq hkey]
  exact ⟨hkey, hw.id_eq hkey ▸ hfound.1⟩

theorem parent_hasRow (hw : Tree w) {victim : NodeRecord} (h : w.victimOf id parentId name = some victim) :
    w.hasRow parentId = true := by
  obtain ⟨⟨key, hkey⟩, hparent⟩ := mem_childrenOf.mp (List.mem_of_find?_eq_some h)
  have hlive : w.Live parentId := hw.parent_live (parentOf_eq_some.mpr ⟨victim, hkey, hparent⟩)
  rw [World.hasRow, Bool.or_eq_true]
  exact .inl hlive

theorem lookup_moveNode_eq_none {i : Uuid} :
    (w.moveNode id parentId name).nodes.lookup i = none ↔ w.nodes.lookup i = none := by
  rw [World.moveNode, lookup_modify]
  split_ifs <;> simp

theorem lookup_renamed (hok : w.renameNode backend id parentId name = (.ok (), u)) {i : Uuid}
    (hlive : w.Live i) : u.nodes.lookup i = none ↔ ∃ victim, w.victimOf id parentId name = some victim
      ∧ victim.id = i := by
  have hmoved : u = ((w.victimOf id parentId name).elim w fun victim => w.dropNode backend victim.id).moveNode
      id parentId name := by
    unfold World.renameNode at hok
    unfold World.victimOf
    cases backend <;> dsimp only at hok <;> split_ifs at hok <;> cases hok <;>
      cases (w.childrenOf parentId).find? (fun n => n.id != id && n.name == name) <;> rfl
  rw [hmoved, lookup_moveNode_eq_none]
  cases w.victimOf id parentId name with
  | none =>
    simp only [reduceCtorEq, false_and, exists_false, iff_false]
    exact Option.ne_none_iff_isSome.mpr hlive
  | some victim =>
    obtain ⟨node, hnode⟩ := Option.isSome_iff_exists.mp hlive
    simp only [Option.some.injEq, exists_eq_left']
    rw [Option.eq_none_iff_forall_ne_some]
    simp only [Option.elim_some, ne_eq, lookup_dropNode, not_and]
    constructor
    · intro hgone
      by_contra hne
      exact hgone node (Ne.symm hne) hnode
    · intro heq _ hne
      exact absurd heq.symm hne

theorem renameNode_refused {victim : NodeRecord} (hvictim : w.victimOf id parentId name = some victim)
    (huse : w.InUse victim) : ∀ u, w.renameNode backend id parentId name ≠ (.ok (), u) := by
  intro u hok
  have hblocked : (victim.kind == .directory && !(w.childrenOf victim.id).isEmpty) = true := by
    simpa [World.InUse] using huse
  unfold World.renameNode at hok
  rw [World.victimOf] at hvictim
  simp only [hvictim, hblocked, if_true] at hok
  cases backend with
  | memory =>
    dsimp only at hok
    split_ifs at hok
    all_goals cases hok
  | postgres => cases hok

theorem renameNode_ok {victim : NodeRecord} (hid : w.Live id) (hrow : w.hasRow parentId = true)
    (hvictim : w.victimOf id parentId name = some victim) (huse : ¬ w.InUse victim) :
    ∃ u, w.renameNode backend id parentId name = (.ok (), u) := by
  have hblocked : (victim.kind == .directory && !(w.childrenOf victim.id).isEmpty) = false := by
    simpa [World.InUse] using huse
  have hlive : (w.nodes.lookup id).isNone = false := Option.isNone_eq_false_iff.mpr hid
  unfold World.renameNode
  rw [World.victimOf] at hvictim
  cases backend <;> simp [hvictim, hblocked, hlive, hrow]

section request

variable {p : ExceptT ε (Program Api) α} {refused : Prop}

theorem losesAlike_iff (hw : Tree w) (hid : w.Live id) (hruns : ∀ u, (∃ a, exec cfg noFaults p w = (.ok a, u)) ↔
      ¬ refused ∧ w.renameNode cfg.backend id parentId name = (.ok (), u)) :
    (∀ a u, exec cfg noFaults p w = (.ok a, u) → w.LosesAlike u kind) ↔
      ∀ victim, w.victimOf id parentId name = some victim → victim.kind = kind ∨ w.InUse victim ∨ refused := by
  constructor
  · intro halike victim hvictim
    by_cases huse : w.InUse victim
    · exact .inr (.inl huse)
    by_cases hrefused : refused
    · exact .inr (.inr hrefused)
    obtain ⟨u, hok⟩ := renameNode_ok hid (parent_hasRow hw hvictim) hvictim huse
    obtain ⟨a, hexec⟩ := (hruns u).mpr ⟨hrefused, hok⟩
    have hlookup := (victimOf_live hw hvictim).1
    have hgone := (lookup_renamed hok (live_of_lookup hlookup)).mpr ⟨victim, hvictim, rfl⟩
    exact .inl (halike a u hexec victim.id victim hlookup hgone).1
  · intro hguarded a u hexec i node hnode hgone
    obtain ⟨hrefused, hok⟩ := (hruns u).mp ⟨a, hexec⟩
    obtain ⟨victim, hvictim, rfl⟩ := (lookup_renamed hok (live_of_lookup hnode)).mp hgone
    obtain rfl : victim = node := Option.some.inj ((victimOf_live hw hvictim).1.symm.trans hnode)
    have huse : ¬ w.InUse victim := fun huse => renameNode_refused hvictim huse u hok
    rcases hguarded victim hvictim with hkind | hused | href
    · exact ⟨hkind, huse⟩
    · exact absurd hused huse
    · exact absurd href hrefused

end request

theorem exec_renameLast (hid : w.Live id) (u : World) :
    (∃ a, exec cfg noFaults (Request.ask (.renameNode id parentId name) >>= fun r => Request.repo r >>= fun _ =>
        Request.ask (.query (.getNode id)) >>= Request.repo) w = (.ok a, u))
      ↔ w.renameNode cfg.backend id parentId name = (.ok (), u) := by
  rw [exec_ask]
  change (∃ a, exec cfg noFaults (Request.repo (w.renameNode cfg.backend id parentId name).1 >>= _)
    (w.renameNode cfg.backend id parentId name).2 = _) ↔ _
  rcases hrename : w.renameNode cfg.backend id parentId name with ⟨e | _, v⟩
  · constructor
    · rintro ⟨a, h⟩
      cases h
    · intro h
      cases h
  · have hlive : v.nodes.lookup id ≠ none := by
      intro hnone
      obtain ⟨victim, hvictim, heq⟩ := (lookup_renamed hrename hid).mp hnone
      have hfound : victim.id ≠ id ∧ victim.name = name := by simpa using List.find?_some hvictim
      exact hfound.1 heq
    obtain ⟨node, hnode⟩ := Option.ne_none_iff_exists'.mp hlive
    have hget : exec cfg noFaults (Request.ask (.query (.getNode id)) >>= Request.repo) v = (.ok node, v) := by
      rw [exec_ask]
      change exec cfg noFaults (Request.repo (v.getNode id)) v = _
      rw [World.getNode, hnode]
      rfl
    dsimp only
    rw [repo_ok, pure_bind, hget]
    simp

theorem noticed_iff {listed : List NodeRecord} (hlist : w.listChildren cfg.backend parentId 1000 0 = .ok listed) :
    Noticed cfg w id parentId name kind ↔
      ∃ target, listed.find? (fun c => c.name == name) = some target ∧ target.id ≠ id ∧ target.kind ≠ kind := by
  constructor
  · rintro ⟨listed', target, hlisted, hfound⟩
    cases hlist.symm.trans hlisted
    exact ⟨target, hfound⟩
  · rintro ⟨target, hfound⟩
    exact ⟨listed, target, hlist, hfound⟩

theorem exec_renameNode {source : NodeRecord} (hsource : w.nodes.lookup id = some source) (u : World) :
    (∃ a, exec cfg noFaults (renameNode id parentId name) w = (.ok a, u)) ↔
      ¬ (toName name ≠ .ok name ∨ Noticed cfg w id parentId name source.kind)
        ∧ w.renameNode cfg.backend id parentId name = (.ok (), u) := by
  rw [← exec_renameLast (live_of_lookup hsource)]
  unfold renameNode checkName
  cases hchecked : toName name with
  | error e =>
    simp only [ne_eq, reduceCtorEq, not_false_eq_true, true_or, not_true, false_and, iff_false]
    rintro ⟨a, h⟩
    cases h
  | ok checked =>
    obtain rfl := toName_eq hchecked
    dsimp only
    rw [pure_bind, exec_ask]
    change (∃ a, exec cfg noFaults (Request.repo (w.getNode id) >>= _) w = _) ↔ _
    rw [World.getNode, hsource]
    dsimp only
    rw [repo_ok, pure_bind, exec_ask]
    change (∃ a, exec cfg noFaults (Request.repo (w.listChildren cfg.backend parentId 1000 0) >>= _) w = _) ↔ _
    obtain ⟨listed, hlist⟩ : ∃ listed, w.listChildren cfg.backend parentId 1000 0 = .ok listed := ⟨_, rfl⟩
    rw [noticed_iff hlist, hlist, repo_ok, pure_bind]
    cases listed.find? (fun c => c.name == checked) with
    | none => simp
    | some target =>
      dsimp only
      by_cases hother : target.id ≠ id ∧ target.kind ≠ source.kind
      · rw [if_pos hother]
        simp only [ne_eq, not_true, false_or, Option.some.injEq, exists_eq_left', hother, not_false_eq_true,
          and_self, false_and, iff_false]
        rintro ⟨a, h⟩
        cases h
      · rw [if_neg hother]
        simp only [ne_eq, not_true, false_or, Option.some.injEq, exists_eq_left']
        exact ⟨fun h => ⟨hother, h⟩, And.right⟩

theorem exec_davRename (hw : Tree w) {source target : DavPath} {node parent : NodeRecord}
    (hsource : Resolves cfg w source.asBytes node) (hparent : Resolves cfg w target.parent parent) (u : World) :
    (∃ a, exec cfg noFaults (Dav.rename source target) w = (.ok a, u)) ↔ ¬ target.fileNameBytes = []
      ∧ w.renameNode cfg.backend node.id parent.id target.fileNameBytes = (.ok (), u) := by
  obtain ⟨r, hr, -⟩ := exec_resolve cfg hw source.asBytes
  obtain rfl : r = .ok node := (congrArg Prod.fst hr).symm.trans hsource
  obtain ⟨r', hr', -⟩ := exec_resolve cfg hw target.parent
  obtain rfl : r' = .ok parent := (congrArg Prod.fst hr').symm.trans hparent
  unfold Dav.rename
  rw [exec_bind_ok hr]
  unfold Dav.resolveParent
  by_cases hempty : target.fileNameBytes = []
  · simp only [hempty, List.isEmpty_nil, if_true, not_true, false_and, iff_false]
    rintro ⟨a, h⟩
    cases h
  · have hname : target.fileNameBytes.isEmpty = false := List.isEmpty_eq_false_iff.mpr hempty
    simp only [hname, Bool.false_eq_true, if_false, hempty, not_false_eq_true, true_and]
    rw [bind_assoc, exec_bind_ok hr', pure_bind, exec_davAsk]
    change (∃ a, exec cfg noFaults (Dav.repo (w.renameNode cfg.backend node.id parent.id target.fileNameBytes).1)
      (w.renameNode cfg.backend node.id parent.id target.fileNameBytes).2 = _) ↔ _
    rcases w.renameNode cfg.backend node.id parent.id target.fileNameBytes with ⟨e | ok, v⟩
    · constructor
      · rintro ⟨a, h⟩
        cases h
      · intro h
        cases h
    · cases ok
      constructor
      · rintro ⟨a, h⟩
        cases h
        rfl
      · intro h
        cases h
        exact ⟨(), rfl⟩

theorem rename_replaces_alike_iff (hw : Tree w) :
    (∀ id parentId name source, w.nodes.lookup id = some source →
      ((∀ a u, exec cfg noFaults (renameNode id parentId name) w = (.ok a, u) → w.LosesAlike u source.kind) ↔
        ∀ victim, w.victimOf id parentId name = some victim → victim.kind = source.kind ∨ w.InUse victim
          ∨ toName name ≠ .ok name ∨ Noticed cfg w id parentId name source.kind))
    ∧ ∀ source target node parent, Resolves cfg w source.asBytes node → Resolves cfg w target.parent parent →
      ((∀ a u, exec cfg noFaults (Dav.rename source target) w = (.ok a, u) → w.LosesAlike u node.kind) ↔
        ∀ victim, w.victimOf node.id parent.id target.fileNameBytes = some victim →
          victim.kind = node.kind ∨ w.InUse victim ∨ target.fileNameBytes = []) := by
  constructor
  · intro id parentId name source hsource
    exact losesAlike_iff hw (live_of_lookup hsource) (exec_renameNode hsource)
  · intro source target node parent hsource hparent
    obtain ⟨r, hr, hlive⟩ := exec_resolve cfg hw source.asBytes
    have hnode := hlive node ((congrArg Prod.fst hr).symm.trans hsource)
    exact losesAlike_iff hw (live_of_lookup hnode) (exec_davRename hw hsource hparent)

def mixedWorld (backend : Backend) : World :=
  let file := fun name => NameRequest.davOpen (inRoot name) ⟨false, true, false⟩
  (((World.fresh 0).served (sample backend) (file [97])).served (sample backend) (file [98])).served
    (sample backend) (.davCreateDir (inRoot [99]))

theorem mixedWorld_tree (backend : Backend) : Tree (mixedWorld backend) := by
  refine (@Requested.step (sample backend) _ _ _ (.step _ (.step _ (.fresh 0) ?_) ?_) ?_).tree <;> trivial

theorem rename_replaces_file : Tree (mixedWorld .postgres)
    ∧ ∀ a u, exec (sample .postgres) noFaults (Dav.rename (inRoot [97]) (inRoot [98])) (mixedWorld .postgres)
      = (.ok a, u) →
      (mixedWorld .postgres).LosesAlike u .file := by
  have htree := mixedWorld_tree .postgres
  have halike := (@rename_replaces_alike_iff (sample .postgres) _ htree).2 (inRoot [97]) (inRoot [98]) _ _ rfl rfl
  refine ⟨htree, halike.mpr fun victim hvictim => .inl ?_⟩
  cases hvictim
  rfl

def crowdedNode (i : ℕ) : NodeRecord :=
  if i = 0 then rootNode 0 0
  else if i = 1002 then (World.fresh 0).newNode i 0 [122] .directory 0o40755 0 0 0 none
  else (World.fresh 0).newNode i 0 [UInt8.ofNat (48 + i / 100), UInt8.ofNat (48 + i % 100)] .file 0o100644 0 0 0 none

def crowdedTable (n : ℕ) : Table Uuid NodeRecord where
  entries := (List.range n).map fun i => ⟨i, crowdedNode i⟩
  nodupKeys := by
    rw [List.NodupKeys, List.keys, List.map_map]
    exact (List.map_id _).symm ▸ List.nodup_range

theorem lookup_crowdedTable {n i : ℕ} {node : NodeRecord} :
    (crowdedTable n).lookup i = some node ↔ i < n ∧ node = crowdedNode i := by
  rw [lookup_eq_some_iff]
  simp only [crowdedTable, List.mem_map, List.mem_range, Sigma.mk.injEq]
  constructor
  · rintro ⟨j, hj, rfl, hnode⟩
    exact ⟨hj, (eq_of_heq hnode).symm⟩
  · rintro ⟨hi, rfl⟩
    exact ⟨i, hi, rfl, HEq.rfl⟩

def crowdedWorld : World := { World.fresh 0 with nodes := crowdedTable 1003 }

theorem crowdedWorld_tree : Tree crowdedWorld where
  rootId_eq := rfl
  id_eq {id node} h := by
    obtain ⟨-, rfl⟩ := lookup_crowdedTable.mp h
    unfold crowdedNode
    split_ifs with hroot
    · exact hroot.symm
    · rfl
    · rfl
  root := ⟨crowdedNode 0, lookup_crowdedTable.mpr ⟨by decide, rfl⟩, rfl, rfl⟩
  rooted {id node} h := by
    by_cases hroot : id = 0
    · exact hroot ▸ .refl
    · refine .single (parentOf_eq_some.mpr ⟨node, h, ?_⟩)
      obtain ⟨-, rfl⟩ := lookup_crowdedTable.mp h
      unfold crowdedNode
      rw [if_neg hroot]
      split_ifs <;> rfl

theorem rename_replaces_directory :
    (∃ u, exec (sample .postgres) noFaults (Dav.rename (inRoot [97]) (inRoot [99])) (mixedWorld .postgres) = (.ok (), u)
      ∧ ¬ (mixedWorld .postgres).LosesAlike u .file)
    ∧ ∃ node u, exec (sample .memory) noFaults (renameNode 1 0 [122]) crowdedWorld = (.ok node, u)
      ∧ Tree crowdedWorld ∧ (crowdedNode 1).kind = .file ∧ ¬ crowdedWorld.LosesAlike u .file := by
  constructor
  · refine ⟨_, rfl, fun halike => ?_⟩
    exact absurd (halike 3 _ rfl (by decide)).1 (by decide)
  · have hrun : (exec (sample .memory) noFaults (renameNode 1 0 [122]) crowdedWorld).1.isOk = true
        ∧ ((exec (sample .memory) noFaults (renameNode 1 0 [122]) crowdedWorld).2.nodes.lookup 1002).isNone = true := by
      decide +kernel
    generalize hexec : exec (sample .memory) noFaults (renameNode 1 0 [122]) crowdedWorld = run at hrun
    obtain ⟨e | node, u⟩ := run
    · cases hrun.1
    · refine ⟨node, u, rfl, crowdedWorld_tree, rfl, fun halike => ?_⟩
      have hdirectory := halike 1002 (crowdedNode 1002) (lookup_crowdedTable.mpr ⟨by decide, rfl⟩)
        (Option.isNone_iff_eq_none.mp hrun.2)
      exact absurd hdirectory.1 (by decide)

end Dcfs
