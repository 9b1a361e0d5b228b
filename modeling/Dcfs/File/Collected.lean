import Dcfs.File.Strays
import Dcfs.Names.Calls

namespace Dcfs

open Effects Machine Tables World Request Exec

variable {cfg : Config} {faults : Faults} {w u t : World} {n v : Uuid} {node : NodeRecord}
  {version : FileVersionRecord} {row : FileChunkRecord} {retention : ℕ}

section bare

theorem bare_dropNode (h : w.storedObjects = ∅) (b : Backend) (id : Uuid) : (w.dropNode b id).storedObjects = ∅ := by
  unfold World.dropNode
  split <;> exact h

theorem perform_bare (hlocators : cfg.keepsLocators = false) (h : w.storedObjects = ∅) (c : Call) :
    (perform cfg faults w c).2.storedObjects = ∅ := by
  cases c with
  | renameNode id parent name =>
    have hdrop := bare_dropNode h
    simp only [perform, World.renameNode, World.moveNode]
    repeat' split
    all_goals first | exact h | exact hdrop _ _
  | deleteNode id =>
    simp only [perform, World.deleteNode]
    split
    · exact bare_dropNode h _ _
    · exact h
  | put o data file =>
    simp only [perform, World.put, World.keepObject, hlocators]
    split <;> exact h
  | delete o =>
    simp only [perform, World.delete, World.dropObject]
    repeat' split
    · exact h
    · exact h
    · change w.storedObjects.erase o = ∅
      rw [h]
      rfl
  | forgetObject o =>
    simp only [perform, World.forgetObject]
    split
    · exact h
    · rw [h]
      rfl
  | _ =>
    simp only [perform, World.createNode, World.createSymlink, World.insertNodeRow, World.insertNode,
      World.publishNode, World.moveNode, World.updateNodeAttr, World.createStagingVersion, World.addVersion,
      World.touchStagingVersion, World.attachChunk, World.setRows, World.copyChunkRange, World.commitVersion,
      World.switchTo, World.reconcileNodeSizes, World.purgeEmptyDeadVersions, World.purgeDeletedNodes,
      World.purgeExpiredSessions, World.nextId, World.tick]
    repeat' split
    all_goals exact h

theorem exec_bare {ε α : Type} (hlocators : cfg.keepsLocators = false) (h : w.storedObjects = ∅)
    (p : ExceptT ε (Program Api) α) : (exec cfg faults p w).2.storedObjects = ∅ := by
  have hkeeps : Keeps cfg faults (fun w => w.storedObjects = ∅) p :=
    .of_calls (fun c w hw => perform_bare hlocators hw c) p
  exact hkeeps w h

theorem after_bare (hlocators : cfg.keepsLocators = false) (h : w.storedObjects = ∅) (op : Operation) :
    (w.after cfg faults op).storedObjects = ∅ := by
  cases op with
  | wait time => exact h
  | _ => exact exec_bare hlocators h _

theorem Reachable.bare (hlocators : cfg.keepsLocators = false) (h : Reachable cfg w) : w.storedObjects = ∅ := by
  induction h with
  | fresh now => rfl
  | step faults op _ ih => exact after_bare hlocators ih op

end bare

section fills

def World.course (cfg : Config) (faults : Faults) (w : World) (ops : List Operation) : World :=
  ops.foldl (World.after cfg faults) w

def KeepsRowsAll (cfg : Config) (faults : Faults) (n : Uuid) : World → List Operation → Prop
  | _, [] => True
  | w, op :: rest => op.KeepsRows cfg w n ∧ KeepsRowsAll cfg faults n (w.after cfg faults op) rest

def IsFile (w : World) (n : Uuid) : Prop := ∃ node ∈ w.nodes.lookup n, node.kind = .file

instance (w : World) (n : Uuid) : Decidable (IsFile w n) := inferInstanceAs (Decidable (∃ _ ∈ _, _))

theorem whole_fills (hw : Sound cfg w) {ops : List Operation} (hops : ∀ op ∈ ops, op.Fills n) :
    Whole (w.course cfg faults ops) n ↔ Whole w n ∧ KeepsRowsAll cfg faults n w ops := by
  induction ops generalizing w with
  | nil => exact (and_iff_left trivial).symm
  | cons op rest ih =>
    obtain ⟨hop, hrest⟩ := List.forall_mem_cons.mp hops
    change Whole ((w.after cfg faults op).course cfg faults rest) n ↔ _
    rw [ih (after_sound hw op) hrest, whole_fill hw.consistent hop, and_assoc]
    rfl

variable (faults) in
theorem course_sound (hw : Sound cfg w) (ops : List Operation) : Sound cfg (w.course cfg faults ops) := by
  induction ops generalizing w with
  | nil => exact hw
  | cons op rest ih => exact ih (after_sound hw op)

variable (faults) in
theorem course_bare (hlocators : cfg.keepsLocators = false) (h : w.storedObjects = ∅) (ops : List Operation) :
    (w.course cfg faults ops).storedObjects = ∅ := by
  induction ops generalizing w with
  | nil => exact h
  | cons op rest ih => exact ih (after_bare hlocators h op)

end fills

section sweeps

/-- The file is gone and none of its versions is recent. -/
structure Lapsed (cfg : Config) (n : Uuid) (retention : ℕ) (w : World) : Prop where
  sound : Sound cfg w
  gone : w.nodes.lookup n = none
  old : ∀ id version, w.versions.lookup id = some version → version.nodeId = n →
    version.lastActive < w.now - retention
  bare : w.storedObjects = ∅

def Emptied (w : World) (n : Uuid) : Prop :=
  ∀ id version, w.versions.lookup id = some version → version.nodeId = n → w.rowsOf id = []

theorem Lapsed.not_live (h : Lapsed cfg n retention w) (hv : w.versions.lookup v = some version)
    (hn : version.nodeId = n) : w.isLive (w.now - retention) version = false := by
  have hcurrent : w.isCurrent version = false := by rw [World.isCurrent, hn, h.gone]
  have hold := h.old v version hv hn
  rw [World.isLive, hcurrent, Bool.or_false, Bool.and_eq_false_iff, beq_eq_false_iff_ne, decide_eq_false_iff_not,
    not_le]
  refine or_iff_not_imp_left.mpr fun hs => ?_
  rw [FileVersionRecord.lastActive, (h.sound.consistent.version hv).staged.mp (not_not.mp hs)] at hold
  exact hold

theorem Lapsed.dead (h : Lapsed cfg n retention w) (hv : w.versions.lookup v = some version)
    (hn : version.nodeId = n) (hrow : row ∈ w.rowsOf v) : row.objectId ∈ w.deadObjects (w.now - retention) := by
  have hw := h.sound.consistent
  have hid := (hw.version hv).id_eq
  refine mem_deadObjects.mpr ⟨mem_objectsIn.mpr ⟨version, ?_, row, hid ▸ hrow, rfl⟩, fun hlive => ?_⟩
  · refine List.mem_filter.mpr ⟨mem_values.mpr ⟨v, hv⟩, ?_⟩
    simp [h.not_live hv hn, h.old v version hv hn]
  · obtain ⟨y, hy, row', hrow', ho⟩ := mem_objectsIn.mp hlive
    obtain ⟨hmem, hylive⟩ := List.mem_filter.mp hy
    obtain ⟨x, hx⟩ := mem_values.mp hmem
    have hyn := (same_file hw hx hv ((hw.version hx).id_eq ▸ hrow') hrow ho).trans hn
    rw [h.not_live hx hyn] at hylive
    cases hylive

theorem Lapsed.picked_dead (h : Lapsed cfg n retention w) {o : Uuid} {cutoff : Time} (ho : o ∈ picked cfg w cutoff) :
    w.Refers o := by
  rcases mem_collectable (mem_picked ho) with hdead | ⟨-, hloose⟩
  · obtain ⟨version, -, row, hrow, rfl⟩ := mem_objectsIn.mp (mem_deadObjects.mp hdead).1
    exact ⟨_, row, hrow, rfl⟩
  · have hkey := (mem_unreferencedObjects hloose).1
    rw [h.bare] at hkey
    cases hkey

section sweep

variable (h : Lapsed cfg n retention w)

include h

theorem Lapsed.exec : ∃ mid, w.after cfg noFaults (.collectOnce retention) = afterSweep cfg (w.now - retention) mid
    ∧ Swept (picked cfg w (w.now - retention)) w mid
    ∧ (∀ o ∈ picked cfg w (w.now - retention), mid.objects.lookup o = none)
    ∧ (picked cfg w (w.now - retention) ≠ [] → weight mid < weight w) := exec_sweep h.sound retention

theorem Lapsed.sweep (hlocators : cfg.keepsLocators = false) :
    Lapsed cfg n retention (w.after cfg noFaults (.collectOnce retention)) := by
  have hbare : (w.after cfg noFaults (.collectOnce retention)).storedObjects = ∅ := after_bare hlocators h.bare _
  obtain ⟨mid, hafter, hswept, -, -⟩ := h.exec
  rw [hafter] at hbare ⊢
  have hmid := hswept.consistent h.sound.consistent
  refine ⟨afterSweep_sound hmid, ?_, fun id version hv hn => ?_, hbare⟩
  · change (tidied cfg _ mid).nodes.lookup n = none
    rw [lookup_tidied, hswept.nodes, h.gone]
    rfl
  · change (tidied cfg _ mid).versions.lookup id = some version at hv
    rw [tidied_versions] at hv
    obtain ⟨old, base, hold, -, rfl⟩ := lookup_purged_some hmid.orderly hv
    have hnow : w.now ≤ (afterSweep cfg (w.now - retention) mid).now := hswept.now.trans (tidied_now cfg mid _)
    exact (h.old id old (hswept.versions ▸ hold) hn).trans_le (Int.sub_le_sub_right hnow _)

theorem Lapsed.rows_sub {x : Uuid} (hrow : row ∈ (w.after cfg noFaults (.collectOnce retention)).rowsOf x) :
    row ∈ w.rowsOf x := by
  obtain ⟨mid, hafter, hswept, -, -⟩ := h.exec
  rw [hafter, rowsOf_afterSweep] at hrow
  split_ifs at hrow
  · cases hrow
  · rw [hswept.rowsOf] at hrow
    exact List.mem_of_mem_filter hrow

theorem Lapsed.rows_kept {x : Uuid} (hrow : row ∈ w.rowsOf x) (ho : row.objectId ∉ picked cfg w (w.now - retention)) :
    row ∈ (w.after cfg noFaults (.collectOnce retention)).rowsOf x := by
  obtain ⟨mid, hafter, hswept, -, -⟩ := h.exec
  have hmid := hswept.consistent h.sound.consistent
  have hkept : row ∈ mid.rowsOf x := by
    rw [hswept.rowsOf]
    exact List.mem_filter.mpr ⟨hrow, by simpa using ho⟩
  obtain ⟨version, hv⟩ := hmid.version_of_row hkept
  have hid := (hmid.version hv).id_eq
  rw [hafter, rowsOf_afterSweep, if_neg]
  · exact hkept
  · rw [mem_doomedVersions hmid.orderly _ _ hv]
    simp [World.isDoomed, hid, List.ne_nil_of_mem hkept]

theorem Lapsed.objects_eq {o : Uuid} : (w.after cfg noFaults (.collectOnce retention)).objects.lookup o =
    if o ∈ picked cfg w (w.now - retention) then none else w.objects.lookup o := by
  obtain ⟨mid, hafter, hswept, hgone, -⟩ := h.exec
  rw [hafter]
  change (tidied cfg _ mid).objects.lookup o = _
  rw [tidied_objects]
  split_ifs with ho
  · exact hgone o ho
  · exact hswept.objects o ho

theorem Lapsed.whole_sweep (hwhole : Whole w n) : Whole (w.after cfg noFaults (.collectOnce retention)) n := by
  rintro o ⟨stored, hlook, hfile⟩
  rw [h.objects_eq] at hlook
  split_ifs at hlook with ho
  obtain ⟨x, row, hrow, rfl⟩ := hwhole o ⟨stored, hlook, hfile⟩
  exact ⟨x, row, h.rows_kept hrow ho, rfl⟩

theorem Lapsed.stray_sweep {o : Uuid} (hstores : w.Stores n o) (hstray : ¬w.Refers o) :
    (w.after cfg noFaults (.collectOnce retention)).Stores n o
      ∧ ¬(w.after cfg noFaults (.collectOnce retention)).Refers o := by
  constructor
  · rw [World.Stores, h.objects_eq, if_neg fun ho => hstray (h.picked_dead ho)]
    exact hstores
  · rintro ⟨x, row, hrow, rfl⟩
    exact hstray ⟨x, row, h.rows_sub hrow, rfl⟩

theorem Lapsed.emptied_sweep (he : Emptied w n) : Emptied (w.after cfg noFaults (.collectOnce retention)) n := by
  intro id version hv hn
  apply List.eq_nil_iff_forall_not_mem.mpr
  intro row hrow
  have hold := h.rows_sub hrow
  obtain ⟨old, hlook⟩ := h.sound.consistent.version_of_row hold
  obtain ⟨mid, hafter, hswept, -, -⟩ := h.exec
  rw [hafter] at hv
  change (tidied cfg _ mid).versions.lookup id = some version at hv
  rw [tidied_versions] at hv
  obtain ⟨before, base, hbefore, -, rfl⟩ := lookup_purged_some (hswept.consistent h.sound.consistent).orderly hv
  rw [he id before (hswept.versions ▸ hbefore) hn] at hold
  cases hold

theorem Lapsed.weight_lt (he : ¬Emptied w n) :
    weight (w.after cfg noFaults (.collectOnce retention)) < weight w := by
  unfold Emptied at he
  push Not at he
  obtain ⟨id, version, hv, hn, hrows⟩ := he
  obtain ⟨row, hrow⟩ := List.exists_mem_of_ne_nil _ hrows
  obtain ⟨mid, hafter, -, -, hweight⟩ := h.exec
  rw [hafter]
  exact (weight_afterSweep mid).trans_lt
    (hweight (picked_ne_nil (List.ne_nil_of_mem (collectable_of_dead (h.dead hv hn hrow) _))))

theorem Lapsed.sweeps (hlocators : cfg.keepsLocators = false) (k : ℕ) :
    Lapsed cfg n retention (w.sweeps cfg retention k) :=
  Ranking.iterate_inv _ (Lapsed cfg n retention) (fun _ ht => ht.sweep hlocators) h k

theorem Lapsed.stray_sweeps (hlocators : cfg.keepsLocators = false) {o : Uuid} (hstores : w.Stores n o)
    (hstray : ¬w.Refers o) (k : ℕ) :
    (w.sweeps cfg retention k).Stores n o ∧ ¬(w.sweeps cfg retention k).Refers o :=
  (Ranking.iterate_inv _ (fun t => Lapsed cfg n retention t ∧ t.Stores n o ∧ ¬t.Refers o)
    (fun _ ht => ⟨ht.1.sweep hlocators, ht.1.stray_sweep ht.2.1 ht.2.2⟩) ⟨h, hstores, hstray⟩ k).2

/-- Sweeps take all that rows name, and nothing else. -/
theorem Lapsed.collected_iff (hlocators : cfg.keepsLocators = false) :
    (∃ enough, ∀ k ≥ enough, ∀ o, ¬(w.sweeps cfg retention k).Stores n o) ↔ Whole w n := by
  constructor
  · rintro ⟨enough, hall⟩ o ho
    by_contra hstray
    exact hall enough le_rfl o (h.stray_sweeps hlocators ho hstray enough).1
  · intro hwhole
    refine ⟨weight w + 1, fun k hk o ho => ?_⟩
    have hlapsed := h.sweeps hlocators k
    have hstill : Whole (w.sweeps cfg retention k) n := (Ranking.iterate_inv _
      (fun t => Lapsed cfg n retention t ∧ Whole t n)
      (fun t ht => ⟨ht.1.sweep hlocators, ht.1.whole_sweep ht.2⟩) ⟨h, hwhole⟩ k).2
    have hempty : Emptied (w.sweeps cfg retention k) n := Ranking.rest_of_rank_lt _ (Lapsed cfg n retention)
      (fun t => Emptied t n) weight (fun _ ht => ht.sweep hlocators) (fun _ ht he => ht.emptied_sweep he)
      (fun _ ht he => ht.weight_lt he) h (by omega)
    obtain ⟨x, row, hrow, rfl⟩ := hstill o ho
    obtain ⟨version, hv⟩ := hlapsed.sound.consistent.version_of_row hrow
    obtain ⟨stored, hlook, hfile⟩ := ho
    obtain ⟨stored', hlook', hfile'⟩ := stores_of_row hlapsed.sound.consistent hv hrow
    cases hlook.symm.trans hlook'
    rw [hempty x version hv (hfile'.symm.trans hfile)] at hrow
    cases hrow

end sweep

end sweeps

section deletion

theorem exec_deleteNode_file (hnode : w.nodes.lookup n = some node) (hkind : node.kind = .file) :
    (exec cfg faults (deleteNode n) w).2 = w.dropNode cfg.backend n := by
  rw [deleteNode, exec_query, answer_getNode hnode, repo_ok, pure_bind]
  dsimp only
  rw [if_neg (by rw [hkind]; decide), exec_ask]
  simp only [perform, World.deleteNode, hnode]
  rfl

def retired (cfg : Config) (faults : Faults) (n : Uuid) (time : ℕ) (w : World) : World :=
  (w.after cfg faults (.deleteNode n)).pass time

theorem retired_eq (hfile : IsFile w n) (time : ℕ) :
    retired cfg faults n time w = (w.dropNode cfg.backend n).pass time := by
  obtain ⟨node, hnode, hkind⟩ := hfile
  exact congrArg (World.pass · time) (exec_deleteNode_file hnode hkind)

theorem lastActive_past (hw : Consistent cfg w) (hv : w.versions.lookup v = some version) :
    version.lastActive < w.now := by
  have hok := hw.version hv
  unfold FileVersionRecord.lastActive
  cases hcommitted : version.committedAt with
  | none => exact hok.created_past
  | some time => exact hok.committed_past time hcommitted

theorem retired_lapsed (hw : Sound cfg w) (hbare : w.storedObjects = ∅) (hfile : IsFile w n) {time : ℕ}
    (htime : retention ≤ time) : Lapsed cfg n retention (retired cfg faults n time w) := by
  have hdeleted : Sound cfg (w.after cfg faults (.deleteNode n)) := after_sound hw _
  have hsound : Sound cfg (retired cfg faults n time w) :=
    ⟨pass_consistent hdeleted.consistent time, hdeleted.sweeping⟩
  rw [retired_eq hfile] at hsound ⊢
  have hstep := nodeStep_drop (w := w) cfg.backend n
  refine ⟨hsound, ?_, fun id version hv _ => ?_, bare_dropNode hbare _ _⟩
  · by_contra hne
    obtain ⟨node, hnode⟩ := Option.ne_none_iff_exists'.mp hne
    exact (lookup_dropNode.mp hnode).1 rfl
  · have hpast := lastActive_past hw.consistent (hstep.versions ▸ hv)
    have hgap : (retention : ℤ) ≤ time := Int.ofNat_le.mpr htime
    change _ < (w.dropNode cfg.backend n).now + time - retention
    linarith [hstep.now]

theorem retired_sameRows (hfile : IsFile w n) (time : ℕ) : SameRows w (retired cfg faults n time w) := by
  have hstep := nodeStep_drop (w := w) cfg.backend n
  rw [retired_eq hfile]
  refine ⟨hstep.objects, fun v => ?_⟩
  change (((w.dropNode cfg.backend n).chunks.lookup v).getD []) = _
  rw [hstep.chunks, World.rowsOf]

end deletion

theorem collector_complete_iff (hw : Reachable cfg w) (hlocators : cfg.keepsLocators = false)
    (hnone : ∀ o, ¬w.Stores n o) (faults : Faults) {ops : List Operation} (hops : ∀ op ∈ ops, op.Fills n)
    (hfile : IsFile (w.course cfg faults ops) n) {time : ℕ} (htime : retention ≤ time) :
    (∃ enough, ∀ k ≥ enough, ∀ o,
        ¬((retired cfg faults n time (w.course cfg faults ops)).sweeps cfg retention k).Stores n o) ↔
      KeepsRowsAll cfg faults n w ops := by
  have hwhole : Whole w n := fun o ho => absurd ho (hnone o)
  have hbare := course_bare faults hlocators (hw.bare hlocators) ops
  rw [(retired_lapsed (course_sound faults hw.sound ops) hbare hfile htime).collected_iff hlocators,
    (retired_sameRows hfile time).whole_iff, whole_fills hw.sound hops, and_iff_right hwhole]

theorem not_sole {i : ℤ} {x : Uuid} (hx : x ≠ v)
    (h : ∀ row ∈ rowAt (w.rowsOf v) i, ∃ row' ∈ w.rowsOf x, row'.objectId = row.objectId) : ¬Sole w v i := by
  rintro ⟨row, hat, hsole⟩
  obtain ⟨row', hrow', ho⟩ := h row hat
  exact hsole x hx row' hrow' ho

def bareFile : World := (World.fresh 0).trace (sample .memory) [newFile 7]

theorem bareFile_new : IsFile bareFile 7 ∧ ∀ o, ¬bareFile.Stores 7 o :=
  ⟨⟨_, rfl, rfl⟩, by rintro o ⟨stored, ⟨⟩, -⟩⟩

def replacedOnce : List Operation :=
  [.writeBytes 7 0 [1, 2, 3, 4, 5, 6, 7, 8], .commitNode 7, .writeBytes 7 0 [9], .writeBytes 7 4 [9], .commitNode 7,
    .stageVersion 7, .uploadChunk 7 ⟨0, 1, ""⟩ [5]]

theorem replacedOnce_keepsRows : KeepsRowsAll (sample .memory) noFaults 7 bareFile replacedOnce := by
  have hclosed : ∀ {w : World} {node : NodeRecord} {offset : ℕ} {body : Bytes}, newest (w.stagingOf 7) = none →
      ¬Ran.Loses w 7 node offset body := by
    rintro w node offset body hnone ⟨working, hworking, -⟩
    rw [hnone] at hworking
    cases hworking
  have hshared : let u := bareFile.course (sample .memory) noFaults (replacedOnce.take 3)
      ∀ node ∈ u.nodes.lookup 7, ∀ working ∈ newest (u.stagingOf 7),
      ∀ i ∈ (WritePlan.mk working.partSize 4 (addU64 4 1) node.length).touched, 1 ≠ working.id
        ∧ ∀ row ∈ rowAt (u.rowsOf working.id) (asI64 i), ∃ row' ∈ u.rowsOf 1, row'.objectId = row.objectId := by
    decide +kernel
  refine ⟨fun _ _ _ _ => hclosed ?_, trivial, fun _ _ _ _ => hclosed ?_, fun node hnode _ _ => ?_, trivial, trivial,
    fun version hversion _ _ => ⟨.inl rfl, ?_⟩, trivial⟩
  · decide +kernel
  · decide +kernel
  · rintro ⟨working, hworking, i, hi, hsole⟩
    obtain ⟨hne, hother⟩ := hshared node hnode working hworking i hi
    exact not_sole hne hother hsole
  · exact not_sole (x := 1) (by decide) (by decide +kernel)

theorem collector_complete_replaced : ∃ enough, ∀ k ≥ enough, ∀ o,
    ¬((retired (sample .memory) noFaults 7 5 (bareFile.course (sample .memory) noFaults replacedOnce)).sweeps
      (sample .memory) 5 k).Stores 7 o := by
  have hops : ∀ op ∈ replacedOnce, op.Fills 7 := by simp [replacedOnce, Operation.Fills]
  exact (collector_complete_iff ((Reachable.fresh 0).trace _) rfl bareFile_new.2 noFaults hops (by decide +kernel)
    le_rfl).mpr replacedOnce_keepsRows

-- The second write replaces the row of the first one's object, which nothing names from then on.
theorem collector_misses_replaced :
    let ops := [Operation.writeBytes 7 0 [1], .writeBytes 7 0 [2]]
    Reachable (sample .memory) bareFile ∧ (∀ o, ¬bareFile.Stores 7 o) ∧ (∀ op ∈ ops, op.Fills 7)
      ∧ IsFile (bareFile.course (sample .memory) noFaults ops) 7 ∧ ∀ k, ((retired (sample .memory) noFaults 7 0
        (bareFile.course (sample .memory) noFaults ops)).sweeps (sample .memory) 0 k).Stores 7 2 := by
  intro ops
  have hreach : Reachable (sample .memory) bareFile := (Reachable.fresh 0).trace _
  have hops : ∀ op ∈ ops, op.Fills 7 := by simp [ops, Operation.Fills]
  have hfile : IsFile (bareFile.course (sample .memory) noFaults ops) 7 := by decide +kernel
  refine ⟨hreach, bareFile_new.2, hops, hfile, fun k => ?_⟩
  have hlapsed : Lapsed (sample .memory) 7 0 (retired (sample .memory) noFaults 7 0
      (bareFile.course (sample .memory) noFaults ops)) :=
    retired_lapsed (course_sound noFaults hreach.sound ops) (course_bare noFaults rfl (hreach.bare rfl) ops) hfile
      le_rfl
  have hstores : (retired (sample .memory) noFaults 7 0
      (bareFile.course (sample .memory) noFaults ops)).Stores 7 2 := ⟨_, rfl, rfl⟩
  have hstray : 2 ∉ (retired (sample .memory) noFaults 7 0
      (bareFile.course (sample .memory) noFaults ops)).referencedObjects := by decide +kernel
  refine (hlapsed.stray_sweeps rfl hstores ?_ k).1
  rintro ⟨v, row, hrow, ho⟩
  exact hstray (ho ▸ referenced_of_row hrow)

end Dcfs
