import Dcfs.File.Isolation

namespace Dcfs

open Machine Tables World Exec

variable {cfg : Config} {faults : Faults} {w u mid : World} {n m : Uuid} {bytes : Bytes} {cutoff : Time}

section sweep

variable {v : Uuid} {version : FileVersionRecord}

theorem live_not_picked (hw : Consistent cfg w) (hv : w.versions.lookup v = some version)
    (hlive : w.isLive cutoff version = true) {row : FileChunkRecord} (hrow : row ∈ w.rowsOf v) :
    row.objectId ∉ picked cfg w cutoff := by
  intro hpicked
  rcases mem_collectable (mem_picked hpicked) with hdead | ⟨-, hloose⟩
  · have hid := (hw.version hv).id_eq
    refine (mem_deadObjects.mp hdead).2 (mem_objectsIn.mpr ⟨version, ?_, row, hid ▸ hrow, rfl⟩)
    exact List.mem_filter.mpr ⟨mem_values.mpr ⟨v, hv⟩, hlive⟩
  · exact (mem_unreferencedObjects hloose).2 (referenced_of_row hrow)

theorem recent_not_isDoomed (hw : Consistent cfg w) (hv : w.versions.lookup v = some version)
    (hs : version.state = .staging) (hrecent : cutoff ≤ version.createdAt) (b : Backend) :
    w.isDoomed b cutoff version = false := by
  have hactive : version.lastActive = version.createdAt := by
    rw [FileVersionRecord.lastActive, (hw.version hv).staged.mp hs]
    rfl
  simp [World.isDoomed, hactive, hrecent]

theorem visible_live (hw : Consistent cfg w) (hrecent : ∀ version ∈ w.stagingOf n, cutoff ≤ version.createdAt)
    (hvisible : visibleVersion w n = some v) (hv : w.versions.lookup v = some version) :
    w.isLive cutoff version = true ∧ ∀ b mid, mid.nodes = w.nodes → mid.versions = w.versions → Consistent cfg mid →
      mid.isDoomed b cutoff version = false := by
  cases hnew : newest (w.stagingOf n) with
  | some working =>
    rw [visibleVersion_of_newest hnew] at hvisible
    cases hvisible
    obtain ⟨hlook, -, hs⟩ := newest_lookup hw hnew
    cases hv.symm.trans hlook
    have hlate := hrecent version (newest_mem hnew)
    constructor
    · simp [World.isLive, hs, hlate]
    · intro b mid _ hversions hmid
      exact recent_not_isDoomed hmid (hversions ▸ hv) hs hlate b
  | none =>
    unfold visibleVersion at hvisible
    rw [hnew] at hvisible
    obtain ⟨node, hnode, hcur⟩ := Option.bind_eq_some_iff.mp hvisible
    obtain ⟨current, hc, hn, -⟩ := hw.current hnode hcur
    cases hv.symm.trans hc
    constructor
    · rw [World.isLive, isCurrent_eq (hn ▸ hnode), hcur, (hw.version hv).id_eq]
      simp
    · intro b mid hnodes hversions hmid
      exact not_isDoomed hmid.orderly b cutoff (hnodes ▸ hnode) hcur (hversions ▸ hv)

theorem afterSweep_version (hmid : Consistent cfg mid) (hv : mid.versions.lookup v = some version)
    (hkept : mid.isDoomed cfg.backend cutoff version = false) :
    (afterSweep cfg cutoff mid).rowsOf v = mid.rowsOf v
      ∧ ∃ base, (afterSweep cfg cutoff mid).versions.lookup v = some { version with baseVersionId := base } := by
  have hmem := mt (mem_doomedVersions hmid.orderly cfg.backend cutoff hv).mp (Bool.eq_false_iff.mp hkept)
  obtain ⟨base, hbase⟩ := lookup_purged_of_kept hmid.orderly hv hkept
  constructor
  · rw [rowsOf_afterSweep, if_neg hmem]
  · refine ⟨base, ?_⟩
    change (tidied cfg cutoff mid).versions.lookup v = _
    rw [tidied_versions, hbase]

theorem Stands.reconciled (h : Stands cfg w n bytes) {node : NodeRecord} (hnode : w.nodes.lookup n = some node)
    (hnil : w.stagingOf n = [])
    (hv : ∀ c, node.currentVersionId = some c → u.versionSize c = w.versionSize c) :
    u.committedSize node = node.size := by
  obtain ⟨node', hnode', -, hsize⟩ := h.node
  cases hnode.symm.trans hnode'
  have hvisible := visibleVersion_of_none (newest_eq_none.mpr hnil) hnode
  unfold World.committedSize
  cases hcur : node.currentVersionId with
  | none =>
    rw [hsize, h.empty (hvisible.trans hcur)]
    rfl
  | some c =>
    have hsized := (hv c hcur).trans (h.sized c (hvisible.trans hcur))
    obtain ⟨current, hlook, hcurrent⟩ := Option.map_eq_some_iff.mp hsized
    rw [Option.bind_some, hlook, hsize, ← hcurrent]

theorem afterSweep_staged (hw : Consistent cfg w) (hrecent : ∀ version ∈ w.stagingOf n, cutoff ≤ version.createdAt)
    {taken : List Uuid} (hswept : Swept taken w mid) (v : Uuid) (size : ℤ) :
    (afterSweep cfg cutoff mid).Staged n v size ↔ w.Staged n v size := by
  have hmid := hswept.consistent hw
  constructor
  · rintro ⟨version, hmem, hid, hsize⟩
    rw [stagingOf_afterSweep] at hmem
    obtain ⟨⟨i, hi⟩, hn, hs⟩ := mem_stagingOf.mp hmem
    obtain ⟨old, base, hold, -, rfl⟩ := lookup_purged_some hmid.orderly hi
    exact ⟨old, mem_stagingOf.mpr ⟨⟨i, hswept.versions ▸ hold⟩, hn, hs⟩, hid, hsize⟩
  · rintro ⟨version, hmem, hid, hsize⟩
    obtain ⟨⟨i, hi⟩, hn, hs⟩ := mem_stagingOf.mp hmem
    have him : mid.versions.lookup i = some version := hswept.versions ▸ hi
    have hkept := recent_not_isDoomed hmid him hs (hrecent version hmem) cfg.backend
    obtain ⟨-, base, hbase⟩ := afterSweep_version hmid him hkept
    exact ⟨_, mem_stagingOf.mpr ⟨⟨i, hbase⟩, hn, hs⟩, hid, hsize⟩

theorem sweep_untouched (h : Stands cfg w n bytes)
    (hrecent : ∀ version ∈ w.stagingOf n, cutoff ≤ version.createdAt) {taken : List Uuid}
    (hswept : Swept taken w mid) (hsub : taken ⊆ picked cfg w cutoff) :
    Untouched cfg n w (afterSweep cfg cutoff mid) := by
  have hw := h.consistent
  have hmid := hswept.consistent hw
  have hsame : ∀ v, visibleVersion w n = some v → ∃ version, w.versions.lookup v = some version
      ∧ (afterSweep cfg cutoff mid).rowsOf v = w.rowsOf v
      ∧ (afterSweep cfg cutoff mid).versionSize v = w.versionSize v := by
    intro v hv
    obtain ⟨version, hlook, -⟩ := visible_lookup hw hv
    obtain ⟨hlive, hkept⟩ := visible_live hw hrecent hv hlook
    obtain ⟨hrows, base, hbase⟩ := afterSweep_version hmid (hswept.versions ▸ hlook)
      (hkept cfg.backend mid hswept.nodes hswept.versions hmid)
    refine ⟨version, hlook, hrows.trans ?_, ?_⟩
    · rw [hswept.rowsOf, List.filter_eq_self]
      intro row hrow
      simpa using fun hmem => live_not_picked hw hlook hlive hrow (hsub hmem)
    · rw [World.versionSize, hbase, World.versionSize, hlook]
      rfl
  have hstaged := afterSweep_staged hw hrecent hswept
  refine ⟨fun node hnode => ?_, hstaged, fun v hv => ?_⟩
  · obtain ⟨size, hlook, hunchanged, hcommitted⟩ := lookup_afterSweep cutoff hmid (hswept.nodes ▸ hnode)
    refine ⟨_, hlook, rfl, ?_, rfl⟩
    by_cases hcase : (afterSweep cfg cutoff mid).stagingOf n ≠ [] ∨ node.kind ≠ .file
    · exact hunchanged hcase
    · rw [not_or, not_not, not_not] at hcase
      have hnil : w.stagingOf n = [] := by
        apply List.eq_nil_iff_forall_not_mem.mpr
        intro version hmem
        obtain ⟨other, hother, -⟩ := (hstaged _ _).mpr ⟨version, hmem, rfl, rfl⟩
        rw [hcase.1] at hother
        cases hother
      have hvisible := visibleVersion_of_none (newest_eq_none.mpr hnil) hnode
      refine (hcommitted hcase.2 hcase.1).trans (h.reconciled hnode hnil fun c hc => ?_)
      obtain ⟨-, -, -, hsize⟩ := hsame c (hvisible.trans hc)
      rw [← hsize, World.versionSize, ← tidied_versions]
      rfl
  · obtain ⟨version, hlook, hrows, hsize⟩ := hsame v hv
    refine ⟨byteOf_mono hw hlook hrows fun row hrow stored hstored => ?_, hsize⟩
    change (tidied cfg cutoff mid).objects.lookup row.objectId = _
    rw [tidied_objects, hswept.objects _ fun hmem => ?_, hstored]
    exact live_not_picked hw hlook (visible_live hw hrecent hv hlook).1 hrow (hsub hmem)

end sweep

def Operation.Spares (w : World) (n : Uuid) : Operation → Prop
  | .createNode _ => True
  | .deleteNode id => id ≠ n
  | .patchNode id req => id = n → req.size = none
  | .davTruncate node => node.id ≠ n
  | .renameNode id newParentId newName => (NameCall.renameNode id newParentId newName).Spares w n
  | .publishNode _ _ _ => True
  | .writeBytes m offset body => m ≠ n ∧ offset + body.length < 2 ^ 63
  | .commitNode m => m ≠ n
  | .stageVersion m => m ≠ n
  | .uploadChunk v _ _ => ∀ version, w.versions.lookup v = some version → version.nodeId ≠ n
  | .commitVersion v _ => ∀ version, w.versions.lookup v = some version → version.nodeId ≠ n
  | .collectOnce retention => ∀ version ∈ w.stagingOf n, w.now - retention ≤ version.createdAt
  | .wait _ => True

theorem Wrote.untouched {node : NodeRecord} {version : FileVersionRecord} {offset : ℕ} {body : Bytes}
    (hw : Consistent cfg w) (hne : m ≠ n) (h : Wrote cfg m node version offset body w u) : Untouched cfg n w u := by
  obtain ⟨hlook, hn, -⟩ := newest_lookup h.consistent h.newest
  refine .of_frame hw hne h.frame (fun old hold => ?_) fun made hmade => ?_
  · cases hnew : World.newest (w.stagingOf m) with
    | none =>
      rw [(h.fresh (newest_eq_none.mp hnew)).1] at hold
      cases hold
    | some working =>
      obtain ⟨hworking, hm, -⟩ := newest_lookup hw hnew
      have hid := congrArg FileVersionRecord.id (h.reused working hnew)
      change version.id = working.id at hid
      rw [hid, hworking] at hold
      cases hold
      exact hm ▸ hne
  · cases hlook.symm.trans hmade
    exact hn ▸ hne

theorem settled_untouched (hw : Consistent cfg w) (hne : m ≠ n) {node : NodeRecord} {working : FileVersionRecord}
    (hnode : w.nodes.lookup m = some node) (hnew : newest (w.stagingOf m) = some working) :
    Untouched cfg n w (settled cfg w m node working) := by
  obtain ⟨hlook, hn, -⟩ := newest_lookup hw hnew
  have hmade : (w.committed working working.size (totalHash cfg working)).nodeId = m := hn
  exact .of_switch hw hne hnode hlook hn hmade _

theorem attr_untouched {id : Uuid} {mode uid gid size : Option ℤ} {mtime atime : Option Time}
    (hrange : ∀ s, size = some s → InI64 s) (h : id = n → size = none) :
    Untouched cfg n w (exec cfg faults
      (Request.ask (.updateNodeAttr id mode uid gid size mtime atime) >>= Request.repo) w).2 := by
  rw [exec_ask, Looks.repo]
  exact (nodeStep_attr id mode uid gid mtime atime hrange).untouched (sameFile_attr h)

namespace Stands

theorem write_other (h : Stands cfg w n bytes) (hne : m ≠ n) {offset : ℕ} {body : Bytes}
    (hend : offset + body.length < 2 ^ 63) :
    Stands cfg (exec cfg faults (writeBytes cfg m offset body) w).2 n bytes := by
  by_cases hfile : ∃ node, w.nodes.lookup m = some node ∧ node.kind ≠ .directory
  · obtain ⟨node, hnode, hkind⟩ := hfile
    by_cases hbody : body = []
    · rw [hbody, exec_writeBytes_nil]
      exact h
    · obtain ⟨version, updated, u, hwrote, hlook, hexec⟩ := exec_writeBytes faults h.consistent hnode hkind hbody hend
      have hu := h.untouched hwrote.consistent (hwrote.untouched h.consistent hne)
      rw [hexec, afterWrite]
      split_ifs
      · exact hu.untouched (settled_consistent hu.consistent hlook hwrote.newest)
          (settled_untouched hu.consistent hne hlook hwrote.newest)
      · exact hu
  · rw [writeBytes_refused]
    · exact h
    · intro node hnode
      by_contra hkind
      exact hfile ⟨node, hnode, hkind⟩

theorem commit_other (h : Stands cfg w n bytes) (hne : m ≠ n) :
    Stands cfg (exec cfg faults (commitNode cfg m) w).2 n bytes := by
  cases hnode : w.nodes.lookup m with
  | none =>
    rw [exec_commitNode_missing faults hnode]
    exact h
  | some node =>
    cases hnew : newest (w.stagingOf m) with
    | none =>
      rw [exec_commitNode_none faults hnode hnew]
      exact h
    | some working =>
      rw [exec_commitNode faults h.consistent hnode hnew]
      exact h.untouched (settled_consistent h.consistent hnode hnew) (settled_untouched h.consistent hne hnode hnew)

theorem stage_other (h : Stands cfg w n bytes) (hne : m ≠ n) :
    Stands cfg (exec cfg faults (stageVersion cfg m) w).2 n bytes := by
  have hw := h.consistent
  cases hnode : w.nodes.lookup m with
  | none =>
    rw [exec_stageVersion_missing faults hnode]
    exact h
  | some node =>
    rw [exec_stageVersion faults hw hnode]
    change Stands cfg (staged cfg w m node) n bytes
    refine h.untouched (staged_consistent hw hnode) (.of_frame hw hne (addVersion_frame m node _) ?_ ?_)
    · intro old hold
      exact absurd (hw.version hold).id_lt (lt_irrefl _)
    · intro made hmade
      rw [staged, lookup_addVersion, if_pos rfl] at hmade
      cases hmade
      exact hne

theorem upload_other (h : Stands cfg w n bytes) {v : Uuid}
    (hother : ∀ version, w.versions.lookup v = some version → version.nodeId ≠ n) (req : UploadChunkRequest)
    (body : Bytes) : Stands cfg (exec cfg faults (uploadChunk cfg v req body) w).2 n bytes := by
  have hw := h.consistent
  cases hv : w.versions.lookup v with
  | none =>
    rw [exec_uploadChunk_missing faults hv]
    exact h
  | some version =>
    obtain ⟨ht, hgrown, -⟩ := uploadChunk_grown faults hw v req body rfl
    exact h.untouched ht (.of_frame (m := version.nodeId) hw (hother version hv) hgrown.frame hother
      fun made hmade => hother made (hgrown.versions ▸ hmade))

theorem commitVersion_other (h : Stands cfg w n bytes) {v : Uuid}
    (hother : ∀ version, w.versions.lookup v = some version → version.nodeId ≠ n) (req : CommitVersionRequest) :
    Stands cfg (exec cfg faults (commitVersion v req) w).2 n bytes := by
  have hw := h.consistent
  rcases exec_commitVersion faults hw v req with ⟨e, hexec⟩ | ⟨version, node, response, hcommit, hexec⟩
  · rw [hexec]
    exact h
  · have hmade : (w.committed version (asI64 req.totalSize) req.plaintextHash).nodeId = version.nodeId := by
      rw [World.committed]
    have htouch := Untouched.of_switch (n := n) hw (hother version hcommit.lookup_version) hcommit.lookup_node
      hcommit.lookup_version rfl hmade cfg.backend
    rw [hexec]
    exact h.untouched (hw.switch (inI64_asI64 _) _ hcommit.lookup_node hcommit.lookup_version rfl) htouch

theorem collect (h : Stands cfg w n bytes) (hw : Sound cfg w) {retention : ℕ}
    (hrecent : ∀ version ∈ w.stagingOf n, w.now - retention ≤ version.createdAt) :
    Stands cfg (exec cfg faults (collectOnce retention) w).2 n bytes := by
  obtain ⟨report, mid, taken, hexec, hswept, hsub, -⟩ := exec_collectOnce cfg faults hw.sweeping retention
  have htouch := sweep_untouched h hrecent hswept hsub.subset
  rw [hexec]
  exact h.untouched (afterSweep_sound (hswept.consistent hw.consistent)).consistent htouch

theorem spared (h : Stands cfg w n bytes) (hw : Sound cfg w) (faults : Faults) {op : Operation}
    (hop : op.Spares w n) : Stands cfg (w.after cfg faults op) n bytes := by
  have hu : Consistent cfg (w.after cfg faults op) := (after_sound hw op).consistent
  cases op with
  | createNode req =>
    refine h.untouched hu (createNode_names req |>.untouched h.consistent fun call hcall => ?_)
    cases call <;> trivial
  | deleteNode id => exact h.untouched hu (deleteNode_names.untouched h.consistent fun call hcall => hcall ▸ hop)
  | patchNode id req =>
    refine h.untouched hu (attr_untouched (fun s hs => ?_) fun hid => ?_)
    · obtain ⟨size, -, rfl⟩ := Option.map_eq_some_iff.mp hs
      exact inI64_asI64 _
    · rw [hop hid]
      rfl
  | davTruncate node =>
    refine h.untouched hu (attr_untouched (fun s hs => ?_) fun hid => absurd hid hop)
    cases hs
    exact inI64_zero
  | renameNode id parentId name =>
    exact h.untouched hu (renameNode_names.untouched h.consistent fun call hcall => hcall ▸ hop)
  | publishNode id parentId name =>
    refine h.untouched hu (publishNode_names.untouched h.consistent ?_)
    rintro _ ⟨checked, rfl⟩
    trivial
  | writeBytes m offset body => exact h.write_other hop.1 hop.2
  | commitNode m => exact h.commit_other hop
  | stageVersion m => exact h.stage_other hop
  | uploadChunk v req body => exact h.upload_other hop req body
  | commitVersion v req => exact h.commitVersion_other hop req
  | collectOnce retention => exact h.collect hw hop
  | wait time => exact h.untouched hu (.of_names rfl rfl rfl (.refl n w))

end Stands

end Dcfs
