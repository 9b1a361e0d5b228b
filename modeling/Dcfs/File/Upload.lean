import Dcfs.File.Write

namespace Dcfs

open Machine Tables World Request Exec Sparse

variable {cfg : Config} {w u : World} (faults : Faults)

def staged (cfg : Config) (w : World) (n : Uuid) (node : NodeRecord) : World :=
  w.addVersion n node (w.newVersion n node.currentVersionId (asI64 cfg.chunkSize))

theorem exec_stageVersion (hw : Consistent cfg w) {n : Uuid} {node : NodeRecord}
    (hnode : w.nodes.lookup n = some node) :
    exec cfg faults (stageVersion cfg n) w = (.ok
      { versionId := w.nextUuid, nodeId := n, generation := addU64 (asU64 node.generation) 1,
        chunkSize := asU64 (asI64 cfg.chunkSize) }, staged cfg w n node) := by
  rw [stageVersion, exec_query, answer_getNode hnode, repo_ok, pure_bind, exec_ask,
    perform_createStaging hw hnode rfl]
  simp only [repo_ok, pure_bind, exec_pure, staged, newVersion]

theorem exec_stageVersion_missing {n : Uuid} (hnode : w.nodes.lookup n = none) :
    exec cfg faults (stageVersion cfg n) w = (.error (.ofRepository .notFound), w) := by
  rw [stageVersion, exec_query]
  simp only [answer, World.getNode, hnode]
  rfl

theorem staged_consistent (hw : Consistent cfg w) {n : Uuid} {node : NodeRecord}
    (hnode : w.nodes.lookup n = some node) : Consistent cfg (staged cfg w n node) :=
  hw.addVersion hnode rfl

structure Accepts (cfg : Config) (version : FileVersionRecord) (req : UploadChunkRequest) (body : Bytes) :
    Prop where
  staging : version.state = .staging
  size : req.plaintextSize = body.length
  fits : body.length ≤ cfg.partSize
  hash : req.plaintextHash = "" ∨ req.plaintextHash = cfg.cipher.hashData body

/-- The upload gets as far as storing an object. -/
def Puts (cfg : Config) (version : FileVersionRecord) (req : UploadChunkRequest) (body : Bytes) : Prop :=
  version.state = .staging ∧ req.plaintextSize = body.length ∧ body.length ≤ cfg.partSize

instance (cfg : Config) (version : FileVersionRecord) (req : UploadChunkRequest) (body : Bytes) :
    Decidable (Puts cfg version req body) := inferInstanceAs (Decidable (_ ∧ _))

theorem exec_uploadChunk_missing {v : Uuid} (hv : w.versions.lookup v = none) (req : UploadChunkRequest)
    (body : Bytes) :
    exec cfg faults (uploadChunk cfg v req body) w = (.error (.ofRepository .notFound), w) := by
  rw [uploadChunk, exec_query]
  simp only [answer, World.getVersion, hv]
  rfl

theorem exec_uploadChunk_accepted (hw : Consistent cfg w) {v : Uuid} {version : FileVersionRecord}
    (hv : w.versions.lookup v = some version) {req : UploadChunkRequest} {body : Bytes}
    (h : Accepts cfg version req body) :
    ∃ response row t, exec cfg faults (uploadChunk cfg v req body) w = (.ok response, t)
      ∧ Attached cfg version.nodeId v req.chunkIndex (asI64 (mulU64 req.chunkIndex version.partSize)) body row w t := by
  have hpart := (hw.version hv).part_size
  have hhash : ¬ (req.plaintextHash ≠ "" ∧ req.plaintextHash ≠ cfg.cipher.hashData body) := by
    rcases h.hash with he | he <;> simp [he]
  obtain ⟨row, t, hattach, hattached⟩ := attach_fresh faults hw hv h.fits req.chunkIndex
    (asI64 (mulU64 req.chunkIndex version.partSize))
  refine ⟨⟨w.nextUuid, body.length + Crypto.ciphertextOverhead body.length⟩, row, t, ?_, hattached⟩
  rw [uploadChunk, exec_query, answer_getVersion hv, repo_ok, pure_bind, if_neg (not_not.mpr h.staging),
    if_neg (not_not.mpr h.size)]
  dsimp only
  rw [if_neg (not_lt.mpr (hpart ▸ h.fits)), exec_bind_ok (exec_putFresh faults hw body version.nodeId)]
  dsimp only
  rw [if_neg hhash, exec_ask, hattach]
  rfl

theorem exec_uploadChunk_rejected (hw : Consistent cfg w) {v : Uuid} {version : FileVersionRecord}
    (hv : w.versions.lookup v = some version) {req : UploadChunkRequest} {body : Bytes}
    (h : ¬ Accepts cfg version req body) : ∃ e, exec cfg faults (uploadChunk cfg v req body) w =
      (.error e, if Puts cfg version req body then putFresh cfg w body version.nodeId else w) := by
  have hpart := (hw.version hv).part_size
  rw [uploadChunk, exec_query, answer_getVersion hv, repo_ok, pure_bind]
  dsimp only
  by_cases hs : version.state ≠ .staging
  · rw [if_pos hs, if_neg fun hputs : Puts cfg version req body => hs hputs.1]
    exact ⟨_, rfl⟩
  by_cases hsize : req.plaintextSize ≠ body.length
  · rw [if_neg hs, if_pos hsize, if_neg fun hputs : Puts cfg version req body => hsize hputs.2.1]
    exact ⟨_, rfl⟩
  by_cases hfits : version.partSize < body.length
  · rw [if_neg hs, if_neg hsize, if_pos hfits,
      if_neg fun hputs : Puts cfg version req body => (hpart ▸ hfits).not_ge hputs.2.2]
    exact ⟨_, rfl⟩
  have hputs : Puts cfg version req body := ⟨not_not.mp hs, not_not.mp hsize, hpart ▸ not_lt.mp hfits⟩
  have hhash : req.plaintextHash ≠ "" ∧ req.plaintextHash ≠ cfg.cipher.hashData body :=
    not_or.mp fun hhash => h ⟨hputs.1, hputs.2.1, hputs.2.2, hhash⟩
  rw [if_neg hs, if_neg hsize, if_neg hfits, if_pos hputs, exec_bind_ok (exec_putFresh faults hw body version.nodeId)]
  dsimp only
  rw [if_pos hhash]
  exact ⟨_, rfl⟩

theorem uploadChunk_grown (hw : Consistent cfg w) (v : Uuid) (req : UploadChunkRequest) (body : Bytes) {t : World}
    (ht : (exec cfg faults (uploadChunk cfg v req body) w).2 = t) : Consistent cfg t ∧ Grown v w t
      ∧ ((∀ version, w.versions.lookup v = some version → ¬Accepts cfg version req body) → t.chunks = w.chunks) := by
  subst ht
  cases hv : w.versions.lookup v with
  | none =>
    rw [exec_uploadChunk_missing faults hv]
    exact ⟨hw, .refl v w, fun _ => rfl⟩
  | some version =>
    by_cases h : Accepts cfg version req body
    · obtain ⟨response, row, t, hexec, hattached⟩ := exec_uploadChunk_accepted faults hw hv h
      rw [hexec]
      exact ⟨hattached.consistent, hattached.grown, fun hnone => absurd h (hnone version rfl)⟩
    · obtain ⟨e, hexec⟩ := exec_uploadChunk_rejected faults hw hv h
      rw [hexec]
      dsimp only
      split_ifs
      · exact ⟨putFresh_consistent hw _ _, putFresh_grown hw _ _ v, fun _ => rfl⟩
      · exact ⟨hw, .refl v w, fun _ => rfl⟩

structure Commits (cfg : Config) (w : World) (v : Uuid) (req : CommitVersionRequest)
    (version : FileVersionRecord) (node : NodeRecord) : Prop where
  lookup_version : w.versions.lookup v = some version
  lookup_node : w.nodes.lookup version.nodeId = some node
  total : manifestTotal 0 0 (w.rowsOf v) = .ok req.totalSize
  generation : node.generation = asI64 req.expectedGeneration
  current : node.currentVersionId = req.expectedCurrentVersion
  staging : cfg.backend = .postgres → version.state = .staging

theorem exec_commitVersion (hw : Consistent cfg w) (v : Uuid) (req : CommitVersionRequest) :
    (∃ e, exec cfg faults (commitVersion v req) w = (.error e, w)) ∨
      ∃ version node response, Commits cfg w v req version node
        ∧ exec cfg faults (commitVersion v req) w = (.ok response, w.switchTo cfg.backend version.nodeId v node
          (w.committed version (asI64 req.totalSize) req.plaintextHash)) := by
  rw [commitVersion, exec_query]
  cases hv : w.versions.lookup v with
  | none =>
    simp only [answer, World.getVersion, hv]
    exact .inl ⟨_, rfl⟩
  | some version =>
    have hchunks : answer cfg w (.getChunks v) = .ok (w.rowsOf v) := by
      simp only [answer, World.getChunks, hv, hw.chunks_eq hv]
      cases cfg.backend <;> rfl
    rw [answer_getVersion hv, repo_ok, pure_bind, exec_query, hchunks, repo_ok, pure_bind]
    cases htotal : manifestTotal 0 0 (w.rowsOf v) with
    | error message => exact .inl ⟨_, rfl⟩
    | ok total =>
      dsimp only
      by_cases hne : total ≠ req.totalSize
      · rw [if_pos hne]
        exact .inl ⟨_, rfl⟩
      rw [if_neg hne, exec_ask]
      simp only [perform, World.commitVersion]
      cases hnode : w.nodes.lookup version.nodeId with
      | none => exact .inl ⟨_, rfl⟩
      | some node =>
        dsimp only
        by_cases hguard : node.generation ≠ asI64 req.expectedGeneration
            ∨ node.currentVersionId ≠ req.expectedCurrentVersion
        · rw [if_pos hguard]
          exact .inl ⟨_, rfl⟩
        rw [if_neg hguard, hv]
        dsimp only
        by_cases hstate : cfg.backend = .postgres ∧ version.state ≠ .staging
        · rw [if_pos hstate]
          exact .inl ⟨_, rfl⟩
        rw [not_or, not_not, not_not] at hguard
        rw [if_neg hstate]
        refine .inr ⟨version, node, _, ⟨hv, hnode, ?_, hguard.1, hguard.2, fun hb => ?_⟩, rfl⟩
        · rw [htotal, not_not.mp hne]
        · exact not_not.mp fun hs => hstate ⟨hb, hs⟩

end Dcfs
