import Dcfs.Names.Calls
import Dcfs.Pool.Effect
import Dcfs.Versions.Book

namespace Dcfs

open Function Tables World

namespace World

def book (w : World) : Book where
  current n := (w.nodes.lookup n).map NodeRecord.currentVersionId
  rows := { n | w.hasRow n = true }
  versions v := (w.versions.lookup v).map (fun version => (version.nodeId, version.state))

end World

def Numbered (w : World) : Prop := ∀ v version, w.versions.lookup v = some version → v < w.nextUuid

def Call.OwnNode (w : World) : Call → Prop
  | .commitVersion guard _ _ => ∀ version, w.versions.lookup guard.versionId = some version →
      version.nodeId = guard.nodeId
  | _ => True

variable {w u : World} {id : Uuid}

theorem book_current (w : World) (n : Uuid) :
    w.book.current n = (w.nodes.lookup n).map NodeRecord.currentVersionId := rfl

theorem book_versions (w : World) (v : Uuid) :
    w.book.versions v = (w.versions.lookup v).map (fun version => (version.nodeId, version.state)) := rfl

theorem mem_book_rows {n : Uuid} : n ∈ w.book.rows ↔ w.hasRow n = true := Iff.rfl

theorem book_congr (hcurrent : ∀ n, (u.nodes.lookup n).map NodeRecord.currentVersionId =
      (w.nodes.lookup n).map NodeRecord.currentVersionId)
    (hdeleted : ∀ n, (u.deletedNodes.lookup n).isSome = (w.deletedNodes.lookup n).isSome)
    (hversions : ∀ v, (u.versions.lookup v).map (fun version => (version.nodeId, version.state)) =
      (w.versions.lookup v).map (fun version => (version.nodeId, version.state))) : u.book = w.book := by
  have hrow : ∀ n, u.hasRow n = w.hasRow n := by
    intro n
    have hlive := congrArg Option.isSome (hcurrent n)
    rw [Option.isSome_map, Option.isSome_map] at hlive
    rw [World.hasRow, hlive, hdeleted, World.hasRow]
  unfold World.book
  rw [Book.mk.injEq]
  exact ⟨funext hcurrent, Set.ext fun n => by simp only [Set.mem_ofPred_eq, hrow], funext hversions⟩

theorem book_of_nodes (hcurrent : ∀ n, (u.nodes.lookup n).map NodeRecord.currentVersionId =
      (w.nodes.lookup n).map NodeRecord.currentVersionId) (hdeleted : u.deletedNodes = w.deletedNodes)
    (hversions : u.versions = w.versions) : u.book = w.book :=
  book_congr hcurrent (fun _ => by rw [hdeleted]) (fun _ => by rw [hversions])

theorem book_moveNode (w : World) (id parentId : Uuid) (name : Bytes) :
    (w.moveNode id parentId name).book = w.book := by
  refine book_of_nodes (fun n => ?_) rfl rfl
  rw [World.moveNode, lookup_modify]
  split_ifs with hn
  · rw [hn, Option.map_map]
    rfl
  · rfl

theorem book_updateNodeAttr (w : World) (id : Uuid) (mode uid gid size : Option ℤ) (mtime atime : Option Time) :
    (w.updateNodeAttr id mode uid gid size mtime atime).2.book = w.book := by
  unfold World.updateNodeAttr
  cases hnode : w.nodes.lookup id with
  | none => rfl
  | some node =>
    refine book_of_nodes (fun n => ?_) rfl rfl
    dsimp only
    rw [lookup_insert]
    split_ifs with hn
    · rw [hn, hnode]
      rfl
    · rfl

theorem book_insertNode (w : World) {node : NodeRecord} (hnone : node.currentVersionId = none) :
    (w.insertNode node).2.book =
      { w.book with current := update w.book.current node.id (some none), rows := insert node.id w.book.rows } := by
  have hcurrent : ∀ n, ((w.insertNode node).2.nodes.lookup n).map NodeRecord.currentVersionId =
      update w.book.current node.id (some none) n := by
    intro n
    rw [World.insertNode, lookup_insert, update_apply]
    split_ifs
    · rw [Option.map_some, hnone]
    · rfl
  have hrow : ∀ n, (w.insertNode node).2.hasRow n = true ↔ n = node.id ∨ w.hasRow n = true := by
    intro n
    simp only [World.hasRow, World.insertNode, lookup_insert]
    split_ifs with hn
    · simp [hn]
    · simp [hn, World.tick]
  unfold World.book at hcurrent ⊢
  rw [Book.mk.injEq]
  exact ⟨funext hcurrent, Set.ext hrow, rfl⟩

theorem book_dropNode (w : World) (id : Uuid) :
    (w.dropNode .postgres id).book = { w.book with current := update w.book.current id none } := by
  have hcurrent : ∀ n, ((w.nodes.erase id).lookup n).map NodeRecord.currentVersionId =
      update w.book.current id none n := by
    intro n
    rw [lookup_erase, update_apply]
    split_ifs <;> rfl
  have hrow : ∀ n, (w.dropNode .postgres id).hasRow n = w.hasRow n := by
    intro n
    cases hnode : w.nodes.lookup id with
    | none =>
      simp only [World.hasRow, World.dropNode, hnode, lookup_erase]
      split_ifs with hn
      · rw [hn, hnode]
      · rfl
    | some node =>
      simp only [World.hasRow, World.dropNode, hnode, lookup_erase, lookup_insert]
      split_ifs with hn
      · rw [hn, hnode]
        rfl
      · rfl
  have hnodes : (w.dropNode .postgres id).nodes = w.nodes.erase id := by
    unfold World.dropNode
    split <;> rfl
  have hversions : (w.dropNode .postgres id).versions = w.versions := by
    unfold World.dropNode
    split <;> rfl
  unfold World.book at hcurrent ⊢
  rw [Book.mk.injEq, hnodes, hversions]
  exact ⟨funext hcurrent, Set.ext fun n => by simp only [Set.mem_ofPred_eq, hrow], rfl⟩

theorem named_refines (w : World) (call : NameCall) : w.book.Step (w.named .postgres call).book := by
  have hnew : ∀ {n}, w.hasRow n = false → n ∉ w.book.rows := by
    intro n hn hmem
    cases hn.symm.trans hmem
  have heffect := named_effect w .postgres call
  generalize w.named .postgres call = u at heffect ⊢
  cases heffect with
  | refused => exact .same
  | created _ hrow =>
    rw [book_insertNode w rfl]
    exact .made _ (hnew (hrow rfl).1)
  | linked _ _ hrow =>
    rw [book_insertNode w rfl]
    exact .made _ (hnew (hrow rfl))
  | deleted _ =>
    rw [book_dropNode]
    exact .removed _
  | renamed _ _ =>
    rw [book_moveNode]
    exact .same
  | replaced _ _ _ _ _ =>
    rw [book_moveNode, book_dropNode]
    exact .removed _
  | published _ _ =>
    rw [book_moveNode]
    exact .same

section versions

theorem book_rewritten (u : World) (updated : NodeRecord) {node : NodeRecord} (hnode : w.nodes.lookup id = some node)
    (hnodes : u.nodes = w.nodes.insert id updated) (hdeleted : u.deletedNodes = w.deletedNodes) :
    u.book = ⟨update w.book.current id (some updated.currentVersionId), w.book.rows, u.book.versions⟩ := by
  have hrow : ∀ n, u.hasRow n = w.hasRow n := by
    intro n
    rw [World.hasRow, hnodes, hdeleted, lookup_insert, World.hasRow]
    split_ifs with hn
    · rw [hn, hnode, Option.isSome_some, Option.isSome_some]
    · rfl
  conv_lhs => unfold World.book
  rw [Book.mk.injEq]
  refine ⟨funext fun n => ?_, Set.ext fun n => ?_, rfl⟩
  · rw [hnodes, lookup_insert, update_apply]
    split_ifs <;> rfl
  · rw [World.book]
    simp only [Set.mem_ofPred_eq, hrow]

theorem staging_refines (hw : Numbered w) (nodeId : Uuid) (base : Option Uuid) (chunkSize : ℤ) :
    w.book.Step (w.createStagingVersion .postgres nodeId base chunkSize).2.book := by
  unfold World.createStagingVersion
  cases hnode : w.nodes.lookup nodeId with
  | none => exact .same
  | some node =>
    dsimp only
    split_ifs
    · exact .same
    · have hbook : (w.addVersion nodeId node (w.newVersion nodeId base chunkSize)).book = { w.book with
          versions := update w.book.versions w.nextUuid (some (nodeId, .staging)) } := by
        rw [book_rewritten (w.addVersion nodeId node (w.newVersion nodeId base chunkSize))
          { node with generation := node.generation + 1 } hnode rfl rfl, Book.mk.injEq]
        refine ⟨?_, rfl, funext fun v => ?_⟩
        · refine update_eq_self_iff.mpr ?_
          rw [book_current, hnode]
          rfl
        · rw [book_versions, World.addVersion, lookup_insert, update_apply]
          split_ifs <;> rfl
      rw [hbook]
      refine .staged _ _ (by simp [World.book, hnode]) ?_
      have hfresh : w.versions.lookup w.nextUuid = none := by
        cases hv : w.versions.lookup w.nextUuid with
        | none => rfl
        | some version => exact absurd (hw _ version hv) (lt_irrefl _)
      rw [book_versions, hfresh]
      rfl

theorem touch_refines (w : World) (v : Uuid) (size : ℤ) : (w.touchStagingVersion v size).2.book = w.book := by
  refine book_congr (fun _ => rfl) (fun _ => rfl) fun u => ?_
  simp only [World.touchStagingVersion, lookup_modify]
  split_ifs with hu
  · rw [hu, Option.map_map]
    congr 1
    funext version
    dsimp only [comp_apply]
    split_ifs <;> rfl
  · rfl

theorem commit_refines {guard : CommitGuard} {total : ℤ} {hash : String}
    (hown : (Call.commitVersion guard total hash).OwnNode w) :
    w.book.Step (w.commitVersion .postgres guard total hash).2.book := by
  unfold World.commitVersion
  cases hnode : w.nodes.lookup guard.nodeId with
  | none => exact .same
  | some node =>
    dsimp only
    split_ifs with hguard
    · exact .same
    · cases hversion : w.versions.lookup guard.versionId with
      | none => exact .same
      | some version =>
        dsimp only
        split_ifs with hstate
        · exact .same
        · have hstaging : version.state = .staging := by simpa using hstate
          have hold : w.book.current guard.nodeId = some node.currentVersionId := by
            rw [book_current, hnode]
            rfl
          have hv : w.book.versions guard.versionId = some (guard.nodeId, .staging) := by
            rw [book_versions, hversion, Option.map_some, hown version hversion, hstaging]
          let u := w.switchTo .postgres guard.nodeId guard.versionId node (w.committed version total hash)
          have hbook : u.book =
              { w.book with
                current := update w.book.current guard.nodeId (some (some guard.versionId))
                versions := update (Book.supersede node.currentVersionId w.book.versions) guard.versionId
                  (some (guard.nodeId, .committed)) } := by
            rw [book_rewritten u (w.published .postgres node guard.versionId total) hnode rfl rfl, Book.mk.injEq]
            refine ⟨rfl, rfl, funext fun v => ?_⟩
            rw [book_versions, lookup_switch, update_apply, Book.supersede]
            split_ifs
            · rw [Option.map_some, ← hown version hversion]
              rfl
            · rw [book_versions, Option.map_map, Option.map_map]
              congr 1
              funext old
              simp only [comp_apply, supersededBy]
              split_ifs <;> rfl
            · rfl
          exact hbook ▸ .committed _ _ _ hold hv

theorem purge_refines (w : World) (cutoff : Time) :
    w.book.Step (w.purgeEmptyDeadVersions .postgres cutoff).2.book := by
  have hbook : (w.purgeEmptyDeadVersions .postgres cutoff).2.book = { w.book with
      versions := fun v => if (w.doomedVersions .postgres cutoff).contains v then none else w.book.versions v } := by
    unfold World.book
    rw [Book.mk.injEq]
    refine ⟨rfl, rfl, funext fun v => ?_⟩
    rw [World.purgeEmptyDeadVersions, lookup_mapValues, lookup_keep]
    cases hv : w.versions.lookup v with
    | none => simp [hv]
    | some version =>
      obtain ⟨base, hbase⟩ := unlinked_eq .postgres (w.doomedVersions .postgres cutoff) version
      rw [Option.filter_some]
      split_ifs <;> simp_all
  rw [hbook]
  refine .purged _ fun n v hv => ?_
  rw [← Bool.not_eq_true, List.contains_iff_mem]
  intro hmem
  simp only [World.doomedVersions, List.mem_map, List.mem_filter] at hmem
  obtain ⟨version, ⟨-, hdoomed⟩, rfl⟩ := hmem
  simp only [World.isDoomed, World.isNamed, Bool.and_eq_true, Bool.not_eq_true', List.any_eq_false] at hdoomed
  obtain ⟨node, hnode, hcurrent⟩ := Option.map_eq_some_iff.mp hv
  exact hdoomed.1.2 node (mem_values.mpr ⟨n, hnode⟩) (beq_iff_eq.mpr hcurrent)

theorem purgeNodes_refines (hw : w.book.Ok) (cutoff : Time) :
    w.book.Step (w.purgeDeletedNodes .postgres cutoff).2.book := by
  have hkept : ∀ n, (w.nodes.lookup n).isSome = true → (w.purgeDeletedNodes .postgres cutoff).2.hasRow n = true :=
    fun n hn => Bool.or_eq_true_iff.mpr (.inl hn)
  refine .erased { n | (w.purgeDeletedNodes .postgres cutoff).2.hasRow n = true } (fun n hn => ?_) (fun n c hc => ?_)
    fun v n s hv => ?_
  · rcases Bool.or_eq_true_iff.mp hn with hlive | hdeleted
    · exact Bool.or_eq_true_iff.mpr (.inl hlive)
    · obtain ⟨entry, hentry⟩ := Option.isSome_iff_exists.mp hdeleted
      rw [World.purgeDeletedNodes, lookup_keep] at hentry
      exact Bool.or_eq_true_iff.mpr (.inr (Option.isSome_of_mem (Option.filter_eq_some_iff.mp hentry).1))
  · obtain ⟨node, hnode, -⟩ := Option.map_eq_some_iff.mp hc
    exact hkept n (Option.isSome_of_mem hnode)
  · rcases Bool.or_eq_true_iff.mp (mem_book_rows.mp (hw.owner hv)) with hlive | hdeleted
    · exact hkept n hlive
    · obtain ⟨version, hversion, heq⟩ := Option.map_eq_some_iff.mp hv
      obtain ⟨entry, hentry⟩ := Option.isSome_iff_exists.mp hdeleted
      have hnode : version.nodeId = n := congrArg Prod.fst heq
      refine Bool.or_eq_true_iff.mpr (.inr ?_)
      rw [World.purgeDeletedNodes, lookup_keep, hentry, Option.filter_some, if_pos, Option.isSome_some]
      have hany : (values w.versions).all (fun v => v.nodeId != n) = false := by
        rw [List.all_eq_false]
        exact ⟨version, mem_values.mpr ⟨v, hversion⟩, by simp [hnode]⟩
      simp [hany]

end versions

end Dcfs
