import Dcfs.Names.Replaced

/-! A path through the HTTP door, through the DAV door, and name by name. -/

namespace Dcfs

open Effects Tables World Exec

namespace World

def follow (w : World) (node : NodeRecord) : List Bytes → Option NodeRecord
  | [] => some node
  | name :: rest =>
    match w.findChild node.id name with
    | .ok child => w.follow child rest
    | .error _ => none

def lookUp (w : World) (backend : Backend) (names : List Bytes) : Option NodeRecord :=
  match w.getRoot backend with
  | .ok root => w.follow root names
  | .error _ => none

def Shown (w : World) (backend : Backend) (node : NodeRecord) : List Bytes → Prop
  | [] => True
  | name :: rest => ∃ child ∈ (w.listed backend node.id).take 1000, child.name = name ∧ w.Shown backend child rest

end World

def segmentNames (segments : List Bytes) : List Bytes := segments.filter fun segment => !segment.isEmpty

def pathNames (path : Bytes) : List Bytes := segmentNames (path.splitOn 0x2f)

variable {cfg : Config} {w : World} {node child : NodeRecord} {name : Bytes}

theorem pathNames_trim (path : Bytes) : pathNames (path.dropWhile (· == 0x2f)) = pathNames path := by
  induction path with
  | nil => rfl
  | cons byte rest ih =>
    by_cases hslash : byte = 0x2f
    · rw [List.dropWhile_cons_of_pos (by simpa using hslash), ih, hslash]
      simp [pathNames, segmentNames, List.splitOn, List.splitOnP_cons_eq_if_modifyHead]
    · rw [List.dropWhile_cons_of_neg (by simpa using hslash)]

theorem UniqueNames.eq_of_name (hw : UniqueNames w) {id : Uuid} {a b : NodeRecord} (ha : a ∈ w.childrenOf id)
    (hb : b ∈ w.childrenOf id) (hname : a.name = b.name) : a = b := by
  obtain ⟨⟨i, hi⟩, hparent⟩ := mem_childrenOf.mp ha
  obtain ⟨⟨j, hj⟩, hparent'⟩ := mem_childrenOf.mp hb
  obtain rfl := hw.unique hi hj (hparent.trans hparent'.symm) hname
  exact Option.some.inj (hi.symm.trans hj)

theorem findChild_eq_ok {id : Uuid} : w.findChild id name = .ok child ↔ w.namedChild id name = some child := by
  unfold World.findChild
  cases w.namedChild id name with
  | none => simp
  | some other => simp

theorem UniqueNames.findChild_of_mem (hw : UniqueNames w) {id : Uuid} (hchild : child ∈ w.childrenOf id) :
    w.findChild id child.name = .ok child := by
  rw [findChild_eq_ok]
  cases hfound : w.namedChild id child.name with
  | none =>
    obtain ⟨⟨i, hi⟩, hparent⟩ := mem_childrenOf.mp hchild
    exact absurd rfl (namedChild_eq_none.mp hfound i child hi hparent)
  | some other =>
    have hother : other.name = child.name := by simpa using List.find?_some hfound
    rw [hw.eq_of_name (List.mem_of_find?_eq_some hfound) hchild hother]

theorem UniqueNames.find_listed (hw : UniqueNames w) {backend : Backend} {id : Uuid} {limit : ℕ} :
    ((w.listed backend id).take limit).find? (fun c => c.name == name) = some child ↔
      child ∈ (w.listed backend id).take limit ∧ child.name = name := by
  constructor
  · intro hfound
    exact ⟨List.mem_of_find?_eq_some hfound, by simpa using List.find?_some hfound⟩
  · rintro ⟨hmem, hname⟩
    cases hfound : ((w.listed backend id).take limit).find? (fun c => c.name == name) with
    | none =>
      have hnone := List.find?_eq_none.mp hfound child hmem
      simp [hname] at hnone
    | some other =>
      have hother : other.name = name := by simpa using List.find?_some hfound
      have hlisted : ∀ {c}, c ∈ (w.listed backend id).take limit → c ∈ w.childrenOf id :=
        fun hc => mem_listed.mp (List.mem_of_mem_take hc)
      rw [hw.eq_of_name (hlisted (List.mem_of_find?_eq_some hfound)) (hlisted hmem) (hother.trans hname.symm)]

theorem names_cons_empty {segment : Bytes} {rest : List Bytes} (h : segment.isEmpty = true) :
    segmentNames (segment :: rest) = segmentNames rest := by
  simp [segmentNames, h]

theorem names_cons {segment : Bytes} {rest : List Bytes} (h : ¬ segment.isEmpty = true) :
    segmentNames (segment :: rest) = segment :: segmentNames rest := by
  simp [segmentNames, h]

section doors

variable {faults : Faults} {found : NodeRecord}

theorem exec_descend (hw : UniqueNames w) (segments : List Bytes) (node : NodeRecord) :
    (exec cfg faults (descend node segments) w).1 = .ok found ↔
      w.follow node (segmentNames segments) = some found ∧ w.Shown cfg.backend node (segmentNames segments) := by
  induction segments generalizing node with
  | nil => simp [descend, segmentNames, follow, Shown]
  | cons segment rest ih =>
    unfold descend
    by_cases hempty : segment.isEmpty = true
    · rw [if_pos hempty, ih, names_cons_empty hempty]
    · have hlist : answer cfg w (.listChildren node.id 1000 0) = .ok ((w.listed cfg.backend node.id).take 1000) := rfl
      rw [if_neg hempty, exec_ask, names_cons hempty]
      simp only [perform, hlist, repo_ok, pure_bind]
      cases hfind : ((w.listed cfg.backend node.id).take 1000).find? (fun c => c.name == segment) with
      | none =>
        have hnone : ¬ w.Shown cfg.backend node (segment :: segmentNames rest) := by
          rintro ⟨child, hmem, hname, -⟩
          rw [hw.find_listed.mpr ⟨hmem, hname⟩] at hfind
          cases hfind
        simp [hnone]
      | some child =>
        obtain ⟨hmem, rfl⟩ := hw.find_listed.mp hfind
        have hchild := hw.findChild_of_mem (mem_listed.mp (List.mem_of_mem_take hmem))
        have hfollow : w.follow node (child.name :: segmentNames rest) = w.follow child (segmentNames rest) := by
          rw [follow, hchild]
        have hshown : w.Shown cfg.backend node (child.name :: segmentNames rest) ↔
            w.Shown cfg.backend child (segmentNames rest) := by
          constructor
          · rintro ⟨other, hother, hname, hrest⟩
            rw [hw.find_listed.mpr ⟨hother, hname⟩] at hfind
            cases hfind
            exact hrest
          · intro hrest
            exact ⟨child, hmem, rfl, hrest⟩
        rw [hfollow, hshown]
        exact ih child

theorem exec_walk_ok (path : List Bytes) (node : NodeRecord) :
    (exec cfg noFaults (Dav.walk node path) w).1 = .ok found ↔ w.follow node (segmentNames path) = some found := by
  induction path generalizing node with
  | nil => simp [Dav.walk, segmentNames, follow]
  | cons segment rest ih =>
    unfold Dav.walk
    by_cases hempty : segment.isEmpty = true
    · rw [if_pos hempty, ih, names_cons_empty hempty]
    · have hfind : answer cfg w (.findChild node.id segment) = w.findChild node.id segment := rfl
      rw [if_neg hempty, exec_davAsk, names_cons hempty]
      simp only [perform, hfind, follow]
      cases w.findChild node.id segment with
      | error e => simp [Dav.repo]
      | ok child => exact ih child

end doors

def PathAgrees (cfg : Config) (w : World) (path : Bytes) : Prop :=
  (∀ node, (exec cfg noFaults (resolvePath path) w).1 = .ok node ↔
      w.lookUp cfg.backend (pathNames path) = some node)
    ∧ ∀ node, (exec cfg noFaults (Dav.resolve path) w).1 = .ok node ↔
      w.lookUp cfg.backend (pathNames path) = some node

/-- If the names lead somewhere, each is among the first thousand of its directory. -/
def World.InSight (w : World) (backend : Backend) (names : List Bytes) : Prop :=
  ∀ root, w.getRoot backend = .ok root → (w.follow root names).isSome → w.Shown backend root names

theorem resolvePath_ok (hw : UniqueNames w) (path : Bytes) :
    (exec cfg noFaults (resolvePath path) w).1 = .ok node ↔
      ∃ root, w.getRoot cfg.backend = .ok root ∧ w.follow root (pathNames path) = some node
        ∧ w.Shown cfg.backend root (pathNames path) := by
  have hroot : answer cfg w .getRoot = w.getRoot cfg.backend := rfl
  unfold resolvePath
  rw [← pathNames_trim path]
  generalize path.dropWhile (· == 0x2f) = trimmed
  dsimp only
  split_ifs with hempty
  · rw [List.isEmpty_iff.mp hempty, exec_ask]
    simp only [perform, hroot]
    cases w.getRoot cfg.backend with
    | error e => simp
    | ok root => simp [pathNames, segmentNames, follow, Shown]
  · rw [exec_ask]
    simp only [perform, hroot]
    cases w.getRoot cfg.backend with
    | error e => simp
    | ok root =>
      simp only [repo_ok, pure_bind, Except.ok.injEq, exists_eq_left']
      exact exec_descend hw _ _

theorem davResolve_ok (path : Bytes) :
    (exec cfg noFaults (Dav.resolve path) w).1 = .ok node ↔ w.lookUp cfg.backend (pathNames path) = some node := by
  have hroot : answer cfg w .getRoot = w.getRoot cfg.backend := rfl
  unfold Dav.resolve lookUp
  rw [exec_davAsk]
  simp only [perform, hroot]
  cases w.getRoot cfg.backend with
  | error e => simp [Dav.repo]
  | ok root => exact exec_walk_ok _ root

theorem paths_agree_iff (cfg : Config) {w : World} (hw : UniqueNames w) (path : Bytes) :
    PathAgrees cfg w path ↔ w.InSight cfg.backend (pathNames path) := by
  constructor
  · rintro ⟨hhttp, -⟩ root hroot hsome
    obtain ⟨node, hnode⟩ := Option.isSome_iff_exists.mp hsome
    have hlook : w.lookUp cfg.backend (pathNames path) = some node := by
      rw [lookUp, hroot]
      exact hnode
    obtain ⟨root', hroot', -, hshown⟩ := (resolvePath_ok hw path).mp ((hhttp node).mpr hlook)
    cases hroot.symm.trans hroot'
    exact hshown
  · intro hsight
    constructor
    · intro node
      rw [resolvePath_ok hw]
      constructor
      · rintro ⟨root, hroot, hfollow, -⟩
        rw [lookUp, hroot]
        exact hfollow
      · intro hlook
        unfold lookUp at hlook
        cases hroot : w.getRoot cfg.backend with
        | error e =>
          rw [hroot] at hlook
          cases hlook
        | ok root =>
          rw [hroot] at hlook
          exact ⟨root, rfl, hlook, hsight root hroot (Option.isSome_of_mem hlook)⟩
    · intro node
      exact davResolve_ok _

theorem crowdedNode_name {i j : ℕ} (hi : i < 1003) (hj : j < 1003) (hi0 : i ≠ 0) (hj0 : j ≠ 0)
    (h : (crowdedNode i).name = (crowdedNode j).name) : i = j := by
  have hnumbers := congrArg (List.map UInt8.toNat) h
  unfold crowdedNode at hnumbers
  rw [if_neg hi0, if_neg hj0] at hnumbers
  split_ifs at hnumbers with hlast hlast' hlast'
  · omega
  · simp [newNode] at hnumbers
  · simp [newNode] at hnumbers
  · simp only [newNode, List.map_cons, List.map_nil, UInt8.toNat_ofNat', List.cons.injEq, and_true] at hnumbers
    omega

theorem crowdedNode_parentId {i : ℕ} (hi0 : i ≠ 0) : (crowdedNode i).parentId = some 0 := by
  unfold crowdedNode
  rw [if_neg hi0]
  split_ifs
  · rfl
  · rfl

theorem crowdedWorld_unique : UniqueNames crowdedWorld where
  id_eq := crowdedWorld_tree.id_eq
  unique {i j a b} hi hj hparent hname := by
    obtain ⟨hlti, rfl⟩ := lookup_crowdedTable.mp hi
    obtain ⟨hltj, rfl⟩ := lookup_crowdedTable.mp hj
    by_cases hi0 : i = 0
    · by_cases hj0 : j = 0
      · rw [hi0, hj0]
      · rw [crowdedNode_parentId hj0, hi0] at hparent
        cases hparent
    · by_cases hj0 : j = 0
      · rw [crowdedNode_parentId hi0, hj0] at hparent
        cases hparent
      · exact crowdedNode_name hlti hltj hi0 hj0 hname

theorem paths_agree_first : PathAgrees (sample .memory) crowdedWorld [0x2f, 48, 49] := by
  apply (paths_agree_iff (sample .memory) crowdedWorld_unique _).mpr
  intro root hroot _
  have hnames : pathNames [0x2f, 48, 49] = [[48, 49]] := by decide
  have hid : root = rootNode 0 0 := by
    have hexpected : crowdedWorld.getRoot .memory = .ok (rootNode 0 0) := by decide +kernel
    exact Except.ok.inj (hroot.symm.trans hexpected)
  rw [hnames, hid]
  refine ⟨crowdedNode 1, ?_, by decide, trivial⟩
  decide +kernel

theorem path_not_found : Tree crowdedWorld ∧ UniqueNames crowdedWorld
    ∧ ¬ PathAgrees (sample .memory) crowdedWorld [0x2f, 122] := by
  refine ⟨crowdedWorld_tree, crowdedWorld_unique, ?_⟩
  rintro ⟨hhttp, -⟩
  have hlook : crowdedWorld.lookUp .memory (pathNames [0x2f, 122]) = some (crowdedNode 1002) := by decide +kernel
  have hfound := (hhttp (crowdedNode 1002)).mpr hlook
  have hmissed : (exec (sample .memory) noFaults (resolvePath [0x2f, 122]) crowdedWorld).1.isOk = false := by
    decide +kernel
  rw [hfound] at hmissed
  cases hmissed

end Dcfs
