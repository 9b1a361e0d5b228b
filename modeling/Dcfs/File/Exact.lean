import Dcfs.File.ByteCalls
import Dcfs.File.Pieces

namespace Dcfs

open Machine Machine.Calc Tables World Request Exec

variable {cfg : Config} {faults : Faults} {w u : World} {n v : Uuid} {node : NodeRecord} {version : FileVersionRecord}

theorem readSpan_bounds {offset size : Option ℕ} {s : ReadSpan} (hw : Consistent cfg w)
    (h : readSpan w n offset size = some s) :
    s.partSize = cfg.partSize ∧ 0 < s.size ∧ s.offset + s.size ≤ s.fileSize ∧ s.fileSize < 2 ^ 63 := by
  obtain ⟨node, hnode, hspan⟩ := Option.bind_eq_some_iff.mp h
  have hlength := length_lt hw hnode
  dsimp only at hspan
  split_ifs at hspan with hnone
  obtain ⟨version, hversion, rfl⟩ := Option.map_eq_some_iff.mp hspan
  obtain ⟨id, -, hid⟩ := Option.bind_eq_some_iff.mp hversion
  rw [not_or, not_or] at hnone
  refine ⟨(hw.version hid).part_size, ?_, ?_, hlength⟩
  · exact Nat.pos_of_ne_zero hnone.2.2
  · have hle := min_le_right (size.getD (node.length - offset.getD 0)) (node.length - offset.getD 0)
    dsimp only
    omega

section write

theorem exec_writeBytes_taken (faults : Faults) (hw : Consistent cfg w) (hnode : w.nodes.lookup n = some node)
    (hkind : node.kind ≠ .directory) {body : Bytes} (hbody : body ≠ []) (offset : ℕ) :
    ∃ u, exec cfg faults (writeBytes cfg n offset body) w = (.ok body.length, u) := by
  obtain ⟨_, _, _, _, _, _, -, -, hexec⟩ := exec_writeBytes_ran faults hw hnode hkind hbody offset
  exact ⟨_, hexec⟩

theorem exec_writeBytes_refused (faults : Faults) (offset : ℕ) {body : Bytes} (hbody : body ≠ [])
    (h : ¬ ∃ node, w.nodes.lookup n = some node ∧ node.kind ≠ .directory) :
    ∃ e u, exec cfg faults (writeBytes cfg n offset body) w = (.error e, u) := by
  rw [writeBytes, List.isEmpty_eq_false_iff.mpr hbody, if_neg Bool.false_ne_true, exec_withNodeLock, writeLocked,
    exec_query]
  cases hnode : w.nodes.lookup n with
  | none =>
    simp only [answer, World.getNode, hnode]
    exact ⟨_, _, rfl⟩
  | some node =>
    have hlocked : { w with nodeLocks := n :: w.nodeLocks }.nodes.lookup n = some node := hnode
    have hkind : node.kind = .directory := by
      by_contra hkind
      exact h ⟨node, hnode, hkind⟩
    rw [answer_getNode hlocked, repo_ok, pure_bind, if_pos hkind]
    exact ⟨_, _, rfl⟩

end write

theorem exec_commitVersion_done (faults : Faults) (hw : Consistent cfg w) {req : CommitVersionRequest}
    (h : Commits cfg w v req version node) : ∃ response, exec cfg faults (commitVersion v req) w =
      (.ok response, w.switchTo cfg.backend version.nodeId v node
        (w.committed version (asI64 req.totalSize) req.plaintextHash)) := by
  have hchunks : answer cfg w (.getChunks v) = .ok (w.rowsOf v) := by
    simp only [answer, World.getChunks, h.lookup_version, hw.chunks_eq h.lookup_version]
    cases cfg.backend <;> rfl
  have hguard : ¬ (node.generation ≠ asI64 req.expectedGeneration
      ∨ node.currentVersionId ≠ req.expectedCurrentVersion) := by
    rw [not_or, not_not, not_not]
    exact ⟨h.generation, h.current⟩
  have hstate : ¬ (cfg.backend = .postgres ∧ version.state ≠ .staging) := fun hstate =>
    hstate.2 (h.staging hstate.1)
  rw [commitVersion, exec_query, answer_getVersion h.lookup_version, repo_ok, pure_bind, exec_query, hchunks, repo_ok,
    pure_bind, h.total]
  dsimp only
  rw [if_neg (not_not.mpr rfl), exec_ask]
  simp only [perform, World.commitVersion, h.lookup_node, h.lookup_version]
  rw [if_neg hguard, if_neg hstate]
  exact ⟨_, rfl⟩

section read

theorem readFrom_calm (hw : Consistent cfg w) (hv : w.versions.lookup v = some version) {offset size : ℕ}
    (hparts : partsSpanned cfg.partSize offset size * vecBytes < 2 ^ 63) :
    (exec cfg faults (readFrom cfg version offset size) w).1 ≠ .error .panicked := by
  have hok := hw.version hv
  rw [readFrom, hok.part_size, hok.id_eq, exec_step_query, answer_getChunkRange hw hv, step_repo_ok, pure_bind,
    if_neg (not_le.mpr hparts), exec_step]
  intro h
  cases hpieces : (exec cfg faults (readPieces cfg _ cfg.partSize offset size _ _) w).1 with
  | ok bytes =>
    rw [hpieces] at h
    cases h
  | error e =>
    rw [hpieces] at h
    cases h

theorem readVisible_calm (hw : Consistent cfg w) (hnode : w.nodes.lookup n = some node) {offset size : ℕ}
    (hparts : visibleVersion w n ≠ none → partsSpanned cfg.partSize offset size * vecBytes < 2 ^ 63) :
    (exec cfg faults (readVisible cfg n node.currentVersionId offset size) w).1 ≠ .error .panicked := by
  have hmapped : ∀ {r : Except (Fault AppError) Bytes} {committed : Bool}, r ≠ .error .panicked →
      r.map (fun bytes => (bytes, committed)) ≠ .error .panicked := by
    intro r committed hr h
    cases r with
    | ok bytes => cases h
    | error e =>
      cases h
      exact hr rfl
  unfold readVisible
  rw [exec_step_query]
  cases hnew : newest (w.stagingOf n) with
  | some working =>
    rw [visibleVersion_of_newest hnew] at hparts
    rw [answer_findOpen hnew]
    dsimp only
    rw [exec_bind_pure]
    exact hmapped (readFrom_calm hw (newest_lookup hw hnew).1 (hparts (Option.some_ne_none _)))
  | none =>
    rw [visibleVersion_of_none hnew hnode] at hparts
    rw [answer_findOpen_none hnew]
    cases hcur : node.currentVersionId with
    | none =>
      intro h
      cases h
    | some c =>
      obtain ⟨current, hcurrent, -⟩ := hw.current hnode hcur
      rw [hcur] at hparts
      dsimp only
      rw [exec_step_query, answer_getVersion hcurrent, step_repo_ok, pure_bind, exec_bind_pure]
      exact hmapped (readFrom_calm hw hcurrent (hparts (Option.some_ne_none _)))

theorem readBytes_panicked_iff (faults : Faults) (hw : Consistent cfg w) (offset size : Option ℕ) :
    (exec cfg faults (readBytes cfg n offset size) w).1 = .error .panicked ↔
      ∃ s, readSpan w n offset size = some s ∧ 2 ^ 63 ≤ partsSpanned s.partSize s.offset s.size * vecBytes := by
  unfold readSpan
  cases hnode : w.nodes.lookup n with
  | none =>
    have hmissing : answer cfg w (.getNode n) = .error .notFound := by simp only [answer, World.getNode, hnode]
    rw [readBytes, exec_step_query, hmissing]
    constructor
    · intro h
      cases h
    · rintro ⟨s, hs, -⟩
      cases hs
  | some node =>
    rw [Option.bind_some]
    dsimp only
    rw [← readLen]
    by_cases hkind : node.kind = .directory
    · have hnone : node.kind = .directory ∨ node.length ≤ offset.getD 0
          ∨ readLen node.length (offset.getD 0) size = 0 := .inl hkind
      rw [readBytes, exec_step_query, answer_getNode hnode, step_repo_ok, pure_bind, if_pos hkind, if_pos hnone]
      constructor
      · intro h
        cases h
      · rintro ⟨s, hs, -⟩
        cases hs
    rw [exec_readBytes_visible faults hnode hkind]
    generalize offset.getD 0 = off
    by_cases hzero : readLen node.length off size = 0
    · rw [if_pos hzero, if_pos (.inr (.inr hzero))]
      constructor
      · intro h
        cases h
      · rintro ⟨s, hs, -⟩
        cases hs
    have hlong : ¬ node.length ≤ off := by
      rw [readLen] at hzero
      omega
    rw [if_neg hzero, if_neg (by rw [not_or, not_or]; exact ⟨hkind, hlong, hzero⟩)]
    constructor
    · intro h
      by_contra hall
      refine readVisible_calm hw hnode (fun hvisible => ?_) h
      obtain ⟨v, hv⟩ := Option.ne_none_iff_exists'.mp hvisible
      obtain ⟨version, hversion, -⟩ := visible_lookup hw hv
      rw [← not_le]
      intro hparts
      rw [hv, Option.bind_some, hversion] at hall
      rw [← (hw.version hversion).part_size] at hparts
      exact hall ⟨_, rfl, hparts⟩
    · rintro ⟨s, hs, hparts⟩
      obtain ⟨version, hversion, rfl⟩ := Option.map_eq_some_iff.mp hs
      obtain ⟨v, hv, hlookup⟩ := Option.bind_eq_some_iff.mp hversion
      dsimp only at hparts
      rw [(hw.version hlookup).part_size] at hparts
      rw [exec_readVisible_panicked hw hnode hv hparts]

end read

namespace ByteCall

variable {call : ByteCall} {memory : ℕ → Prop}

section outcome

variable {α : Type} {x : Request α}

theorem request_done {a : α} (h : exec cfg faults x w = (.ok a, u)) :
    exec cfg faults (liftM x >>= fun _ => pure () : ReadRequest Unit) w = (.ok (), u) := exec_step_ok h

theorem request_rejected {e : AppError} (h : exec cfg faults x w = (.error e, u)) :
    exec cfg faults (liftM x >>= fun _ => pure () : ReadRequest Unit) w = (.error (.error e), u) := by
  apply exec_bind_error
  rw [exec_step, h]
  rfl

theorem sound_of_rejected {e : AppError} (h : exec cfg faults (call.request cfg) w = (.error (.error e), u)) :
    call.Sound cfg faults memory w := by
  rw [Sound, run, h]
  trivial

theorem fits_of_sound (h : exec cfg faults (call.request cfg) w = (.ok (), u))
    (hsound : call.Sound cfg faults memory w) : (call.numbers cfg w).Fits := by
  rw [Sound, run, h] at hsound
  exact hsound.1

theorem sound_iff_of_done (h : exec cfg faults (call.request cfg) w = (.ok (), u))
    (hmem : (call.numbers cfg w).Suffices memory) (hrecorded : (call.numbers cfg w).Fits → call.Recorded cfg w u) :
    call.Sound cfg faults memory w ↔ (call.numbers cfg w).Fits := by
  refine ⟨fits_of_sound h, fun hfits => ?_⟩
  rw [Sound, run, h]
  exact ⟨hfits, hmem.granted hfits, hrecorded hfits⟩

end outcome

theorem readBytes_fits (hw : Consistent cfg w) (offset size : Option ℕ) :
    ((readBytes n offset size).numbers cfg w).Fits ↔ (readBytes n offset size).Safe cfg w := by
  simp only [numbers, Safe]
  cases hspan : readSpan w n offset size with
  | none => simp [pure_fits]
  | some s =>
    simp only [Option.mem_some_iff, forall_eq']
    obtain ⟨hpart, hsize, hend, hfile⟩ := readSpan_bounds hw hspan
    apply readCalc_fits _ _ hsize hend hfile
    · rw [hpart]
      exact cfg.partSize_pos
    · rw [hpart]
      exact partSize_lt cfg

theorem readBytes_sound_iff (hw : Consistent cfg w) {offset size : Option ℕ}
    (hmem : ((readBytes n offset size).numbers cfg w).Suffices memory) :
    (readBytes n offset size).Sound cfg faults memory w ↔ (readBytes n offset size).Safe cfg w := by
  have hpanics := readBytes_panicked_iff (n := n) faults hw offset size
  have hsafe : (exec cfg faults (Dcfs.readBytes cfg n offset size) w).1 ≠ .error .panicked →
      (readBytes n offset size).Safe cfg w := by
    intro hcalm s hs
    by_contra hparts
    exact hcalm (hpanics.mpr ⟨s, hs, not_lt.mp hparts⟩)
  cases hread : exec cfg faults (Dcfs.readBytes cfg n offset size) w with
  | mk answer u =>
    rw [hread] at hpanics hsafe
    have hdone : exec cfg faults ((readBytes n offset size).request cfg) w = (answer.map fun _ => (), u) := by
      change exec cfg faults (Dcfs.readBytes cfg n offset size >>= fun _ => pure ()) w = _
      rw [exec_bind, hread]
      cases answer <;> rfl
    cases answer with
    | ok bytes =>
      rw [sound_iff_of_done hdone hmem fun _ => trivial]
      exact readBytes_fits hw offset size
    | error fault =>
      cases fault with
      | error e =>
        refine ⟨fun _ => hsafe fun h => ?_, fun _ => sound_of_rejected hdone⟩
        cases h
      | panicked =>
        obtain ⟨s, hs, hparts⟩ := hpanics.mp rfl
        constructor
        · rw [Sound, run, hdone]
          exact False.elim
        · intro h
          exact absurd (h s hs) (not_lt.mpr hparts)

theorem writeBytes_recorded {offset : ℕ} {body : Bytes} (hw : Consistent cfg w)
    (hsafe : (writeBytes n offset body).Safe cfg w) {taken : ℕ}
    (hexec : exec cfg faults (Dcfs.writeBytes cfg n offset body) w = (.ok taken, u)) :
    (writeBytes n offset body).Recorded cfg w u := by
  intro node hnode hbody
  by_cases hkind : node.kind = .directory
  · have hlocked : { w with nodeLocks := n :: w.nodeLocks }.nodes.lookup n = some node := hnode
    rw [Dcfs.writeBytes, List.isEmpty_eq_false_iff.mpr hbody, if_neg Bool.false_ne_true, exec_withNodeLock, writeLocked,
      exec_query, answer_getNode hlocked, repo_ok, pure_bind, if_pos hkind] at hexec
    cases hexec
  · obtain ⟨hfirst, hend, hshort⟩ := hsafe node hnode hkind hbody
    obtain ⟨t, hdone, hrecord⟩ := exec_writeBytes_record faults hw hnode hkind hbody hend
      (exactPlan_eq hw hnode hfirst offset body.length) hshort
    rw [openedChunkSize_of_lt hfirst hw hnode] at hrecord
    cases hdone.symm.trans hexec
    exact hrecord

theorem writeBytes_fits (hw : Consistent cfg w) (hnode : w.nodes.lookup n = some node) (hkind : node.kind ≠ .directory)
    {offset : ℕ} {body : Bytes} (hbody : body ≠ []) :
    ((writeBytes n offset body).numbers cfg w).Fits ↔ (writeBytes n offset body).Safe cfg w := by
  simp only [numbers, Safe, hnode, Option.mem_some_iff, forall_eq']
  rw [if_neg (not_or.mpr ⟨hkind, hbody⟩), openCalc_fits hw hnode,
    writeCalc_fits cfg.partSize_pos (length_lt hw hnode) (List.length_pos_of_ne_nil hbody)]
  simp only [hkind, hbody, ne_eq, not_false_eq_true, forall_const]
  refine and_congr_right fun hfirst => ?_
  rw [exactPlan_eq hw hnode hfirst]

theorem writeBytes_sound_iff (hw : Consistent cfg w) {offset : ℕ} {body : Bytes}
    (hmem : ((writeBytes n offset body).numbers cfg w).Suffices memory) :
    (writeBytes n offset body).Sound cfg faults memory w ↔ (writeBytes n offset body).Safe cfg w := by
  by_cases hbody : body = []
  · subst hbody
    have hdone : exec cfg faults ((writeBytes n offset []).request cfg) w = (.ok (), w) := rfl
    have hsafe : (writeBytes n offset []).Safe cfg w := fun _ _ _ h => absurd rfl h
    have hfits : ((writeBytes n offset []).numbers cfg w).Fits := by
      simp only [numbers]
      cases w.nodes.lookup n <;> simp [pure_fits]
    rw [sound_iff_of_done hdone hmem fun _ _ _ h => absurd rfl h]
    exact ⟨fun _ => hsafe, fun _ => hfits⟩
  by_cases hfile : ∃ node, w.nodes.lookup n = some node ∧ node.kind ≠ .directory
  · obtain ⟨node, hnode, hkind⟩ := hfile
    obtain ⟨u, hdone⟩ := exec_writeBytes_taken faults hw hnode hkind hbody offset
    have hfits : ((writeBytes n offset body).numbers cfg w).Fits ↔ _ := writeBytes_fits hw hnode hkind hbody
    rw [sound_iff_of_done (request_done hdone) hmem fun h => writeBytes_recorded hw (hfits.mp h) hdone, hfits]
  · obtain ⟨e, u, hrefused⟩ : ∃ e u, exec cfg faults (Dcfs.writeBytes cfg n offset body) w = (.error e, u) :=
      exec_writeBytes_refused faults offset hbody hfile
    exact ⟨fun _ node hnode hkind => absurd ⟨node, hnode, hkind⟩ hfile,
      fun _ => sound_of_rejected (request_rejected hrefused)⟩

theorem uploadChunk_recorded {req : UploadChunkRequest} {body : Bytes} {response : UploadChunkResponse}
    (hw : Consistent cfg w) (hlen : body.length ≤ maxWriteBytes) (hv : w.versions.lookup v = some version)
    (haccepts : Accepts cfg version req body) (hlogical : req.chunkIndex * version.partSize < 2 ^ 63)
    (hexec : exec cfg faults (Dcfs.uploadChunk cfg v req body) w = (.ok response, u)) :
    (uploadChunk v req body).Recorded cfg w u := by
  intro found hfound
  cases hv.symm.trans hfound
  obtain ⟨made, row, t, hdone, hrow⟩ := exec_uploadChunk_accepted faults hw hv haccepts
  cases hdone.symm.trans hexec
  have hpos : 0 < version.partSize := by
    rw [(hw.version hv).part_size]
    exact cfg.partSize_pos
  have hindex : req.chunkIndex < 2 ^ 63 := (Nat.le_mul_of_pos_right _ hpos).trans_lt hlogical
  have hmax : maxWriteBytes < 2 ^ 31 := by decide
  refine ⟨row, ?_, ?_, ?_⟩
  · rw [← asI64_of_lt hindex, ← hrow.index]
    exact (hrow.rowAt_eq hw hv row.chunkIndex).trans (if_pos rfl)
  · rw [hrow.offset, mulU64_of_lt (hlogical.trans (by decide)), asI64_of_lt hlogical]
  · rw [hrow.size, asI32_of_lt (hlen.trans_lt hmax)]

theorem uploadChunk_sound_iff (hw : Consistent cfg w) {req : UploadChunkRequest} {body : Bytes}
    (hlen : body.length ≤ maxWriteBytes) (hmem : ((uploadChunk v req body).numbers cfg w).Suffices memory) :
    (uploadChunk v req body).Sound cfg faults memory w ↔ (uploadChunk v req body).Safe cfg w := by
  cases hv : w.versions.lookup v with
  | none =>
    refine ⟨fun _ version hfound => ?_,
      fun _ => sound_of_rejected (request_rejected (exec_uploadChunk_missing faults hv req body))⟩
    rw [hv] at hfound
    cases hfound
  | some version =>
    have hsafe : (uploadChunk v req body).Safe cfg w ↔
        (Accepts cfg version req body → req.chunkIndex * version.partSize < 2 ^ 63) := by
      simp only [Safe, hv, Option.mem_some_iff, forall_eq']
    rw [hsafe]
    by_cases haccepts : Accepts cfg version req body
    · obtain ⟨response, row, u, hdone, -⟩ := exec_uploadChunk_accepted faults hw hv haccepts
      have hfits : ((uploadChunk v req body).numbers cfg w).Fits ↔ req.chunkIndex * version.partSize < 2 ^ 63 := by
        simp only [numbers, hv]
        apply uploadCalc_fits _ hlen
        rw [(hw.version hv).part_size]
        exact cfg.partSize_pos
      rw [sound_iff_of_done (request_done hdone) hmem fun h =>
        uploadChunk_recorded hw hlen hv haccepts (hfits.mp h) hdone, hfits]
      exact ⟨fun h _ => h, fun h => h haccepts⟩
    · obtain ⟨e, hdone⟩ := exec_uploadChunk_rejected faults hw hv haccepts
      exact ⟨fun _ h => absurd h haccepts, fun _ => sound_of_rejected (request_rejected hdone)⟩

theorem commitVersion_recorded {req : CommitVersionRequest}
    (hcommits : Commits cfg w v req version node) (hsum : (manifestSizes w v).sum < 2 ^ 64)
    (hwidth : req.totalSize < 2 ^ 63) :
    (commitVersion v req).Recorded cfg w (w.switchTo cfg.backend version.nodeId v node
      (w.committed version (asI64 req.totalSize) req.plaintextHash)) := by
  have htotal := manifestTotal_eq hcommits.total (by rw [Nat.zero_add]; exact hsum)
  rw [Nat.zero_add] at htotal
  have hsize : asI64 req.totalSize = (manifestSizes w v).sum := by
    rw [asI64_of_lt hwidth, htotal]
    rfl
  generalize asI64 (req.totalSize : ℤ) = size at hsize ⊢
  have hversion := lookup_switch (w := w) cfg.backend version.nodeId v node
    (w.committed version size req.plaintextHash) v
  rw [if_pos rfl] at hversion
  exact ⟨_, _, hversion, hsize, AList.lookup_insert _, hsize⟩

theorem commitVersion_sound_iff (hw : Consistent cfg w) {req : CommitVersionRequest}
    (hmem : ((commitVersion v req).numbers cfg w).Suffices memory) :
    (commitVersion v req).Sound cfg faults memory w ↔ (commitVersion v req).Safe cfg w := by
  by_cases hcommits : ∃ version node, Commits cfg w v req version node
  · obtain ⟨version, node, hcommits⟩ := hcommits
    obtain ⟨response, hdone⟩ := exec_commitVersion_done faults hw hcommits
    have hfits : ((commitVersion v req).numbers cfg w).Fits ↔ (manifestSizes w v).sum < 2 ^ 64
        ∧ req.totalSize < 2 ^ 63 ∧ req.expectedGeneration < 2 ^ 63 := by
      rw [numbers, commitCalc_fits]
      refine and_congr_right fun hsum => ?_
      have htotal := manifestTotal_eq hcommits.total (by rw [Nat.zero_add]; exact hsum)
      rw [Nat.zero_add] at htotal
      exact ⟨fun h => h htotal.symm, fun h _ => h⟩
    rw [sound_iff_of_done (request_done hdone) hmem fun h =>
      commitVersion_recorded hcommits (hfits.mp h).1 (hfits.mp h).2.1, hfits]
    exact ⟨fun h _ _ _ => h, fun h => h version node hcommits⟩
  · rcases exec_commitVersion faults hw v req with ⟨e, hdone⟩ | ⟨version, node, -, hdone, -⟩
    · exact ⟨fun _ version node h => absurd ⟨version, node, h⟩ hcommits,
        fun _ => sound_of_rejected (request_rejected hdone)⟩
    · exact absurd ⟨version, node, hdone⟩ hcommits

theorem numbers_exact_iff (hw : Reachable cfg w) (htyped : call.Typed)
    (hmem : (call.numbers cfg w).Suffices memory) : call.Sound cfg faults memory w ↔ call.Safe cfg w := by
  have hconsistent := hw.sound.consistent
  cases call with
  | readBytes n offset size => exact readBytes_sound_iff hconsistent hmem
  | writeBytes n offset body => exact writeBytes_sound_iff hconsistent hmem
  | uploadChunk v req body => exact uploadChunk_sound_iff hconsistent htyped.2.2 hmem
  | commitVersion v req => exact commitVersion_sound_iff hconsistent hmem

theorem numbers_exact_write :
    (writeBytes 7 3 [1, 2, 3, 4]).Sound (sample .postgres) noFaults (fun bytes => bytes ≤ 2 ^ 30)
      ((World.fresh 0).trace (sample .postgres) [newFile 7, .writeBytes 7 0 [1, 2, 3, 4, 5, 6]]) := by
  have htyped : (writeBytes 7 3 [1, 2, 3, 4]).Typed := ⟨by decide, by decide⟩
  refine (numbers_exact_iff ((Reachable.fresh 0).trace _) htyped (by decide)).mpr ?_
  intro node hnode hkind hbody
  cases hnode
  exact ⟨fun _ => by decide, by decide, by decide⟩

-- Offset and length wrap around to one: two bytes are taken, none is written, and the file has one byte.
theorem write_wraps :
    let w := (World.fresh 0).trace (sample .postgres) [newFile 5]
    let call := writeBytes 5 (2 ^ 64 - 1) [1, 2]
    let out := exec (sample .postgres) noFaults (Dcfs.writeBytes (sample .postgres) 5 (2 ^ 64 - 1) [1, 2]) w
    Reachable (sample .postgres) w ∧ call.Typed ∧ (∀ memory, ¬ call.Sound (sample .postgres) noFaults memory w)
      ∧ out.1.toOption = some 2 ∧ (out.2.nodes.lookup 5).map NodeRecord.size = some 1 ∧ out.2.objects.entries = [] := by
  have hreach : Reachable (sample .postgres) ((World.fresh 0).trace (sample .postgres) [newFile 5]) :=
    (Reachable.fresh 0).trace _
  refine ⟨hreach, ⟨by decide, by decide⟩, fun memory hsound => ?_, rfl, by decide, by decide⟩
  obtain ⟨node, hnode, hkind⟩ : ∃ node, ((World.fresh 0).trace (sample .postgres) [newFile 5]).nodes.lookup 5
    = some node
      ∧ node.kind = .file := Option.map_eq_some_iff.mp (rfl :
        (((World.fresh 0).trace (sample .postgres) [newFile 5]).nodes.lookup 5).map NodeRecord.kind = some .file)
  have hfile : node.kind ≠ .directory := by
    rw [hkind]
    decide
  have hconsistent := hreach.sound.consistent
  obtain ⟨u, hdone⟩ := exec_writeBytes_taken noFaults hconsistent hnode hfile (List.cons_ne_nil 1 [2]) (2 ^ 64 - 1)
  have hfits := (writeBytes_fits hconsistent hnode hfile (List.cons_ne_nil 1 [2])).mp
    (fits_of_sound (request_done hdone) hsound)
  obtain ⟨-, hend, -⟩ := hfits node hnode hfile (List.cons_ne_nil 1 [2])
  exact absurd hend (by decide)

end ByteCall

end Dcfs
