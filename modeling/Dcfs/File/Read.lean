import Dcfs.File.Content

namespace Dcfs

open Machine Tables World Request Exec Sparse

variable {cfg : Config} {faults : Faults} {w : World}

theorem length_resize (bytes : Bytes) (n : ℕ) : (resize bytes n).length = n := by
  simp only [resize, List.length_append, List.length_take, List.length_replicate]
  omega

theorem padded_resize (bytes : Bytes) {n q : ℕ} (hq : q < n) :
    padded (resize bytes n) q = padded bytes q := by
  rw [resize, padded_append, padded_take, padded_replicate, if_pos hq, List.length_take]
  split_ifs with h
  · rfl
  · exact (padded_of_le (by omega)).symm

theorem exec_query {α : Type} (q : Query) (f : q.Reply → Request α) :
    exec cfg faults (ask (.query q) >>= f) w = exec cfg faults (f (answer cfg w q)) w := rfl

theorem exec_readChunkPlaintext {file : Uuid} {row : FileChunkRecord} {plaintext : Bytes}
    (h : Sealed cfg w file row plaintext) :
    exec cfg faults (readChunkPlaintext cfg row) w = (.ok plaintext, w) := by
  have hget : answer cfg w (.get row.objectId) =
      .ok (cfg.cipher.sealedBytes cfg.keyId row.objectId plaintext) := by
    simp only [answer, World.get, h.stored]
  rw [readChunkPlaintext, exec_query, hget, store_ok, pure_bind, h.hash, cfg.cipher.openChunk_sealed]
  rfl

theorem exec_readChunkSlice {file : Uuid} {row : FileChunkRecord} {plaintext : Bytes}
    (h : Sealed cfg w file row plaintext) (hshort : plaintext.length < 2 ^ 31) {start stop : ℕ} :
    exec cfg faults (readChunkSlice cfg row start stop) w =
      (.ok ((List.range' start (stop - start)).map (padded plaintext)), w) := by
  have hlen : row.plaintextSize.toNat = plaintext.length := by
    rw [h.size, asI32_of_lt hshort]
    rfl
  rw [readChunkSlice, hlen]
  by_cases hpast : min stop plaintext.length ≤ start
  · rw [if_pos hpast]
    refine congrArg (fun bytes => (Except.ok bytes, w)) (eq_map_of_padded List.length_replicate ?_)
    intro q hq
    rw [padded_replicate, padded_of_le (by omega)]
  · rw [if_neg hpast]
    generalize hrange : Crypto.ChunkRange.mk row.objectId plaintext.length start
      (min stop plaintext.length) = range
    have hget : answer cfg w (.getRange row.objectId range.toFetch.1
        (range.toFetch.2.1 - range.toFetch.1)) =
        .ok (((cfg.cipher.sealedBytes cfg.keyId row.objectId plaintext).drop range.toFetch.1).take
          (range.toFetch.2.1 - range.toFetch.1)) := by
      simp only [answer, World.getRange, h.stored]
    have hopen := cfg.cipher.openRange_sealed cfg.keyId row.objectId plaintext range
      (by rw [← hrange]) (by rw [← hrange]) (by rw [← hrange]; exact not_le.mp hpast)
      (by rw [← hrange]; exact min_le_right _ _)
    rw [exec_query, hget, store_ok, pure_bind, hopen]
    refine congrArg (fun bytes => (Except.ok bytes, w)) (eq_map_of_padded (length_resize _ _) ?_)
    intro q hq
    rw [padded_resize _ hq, padded_take, padded_drop, ← hrange]
    split_ifs with hin
    · rfl
    · exact (padded_of_le (by simp only at hin; omega)).symm

theorem exec_readPiece (hw : Consistent cfg w) (hsize : cfg.partSize < 2 ^ 31) {v : Uuid}
    {version : FileVersionRecord} (hv : w.versions.lookup v = some version)
    {rows : List FileChunkRecord} {offset size next : ℕ}
    (hrows : atIndex rows next = atIndex (w.rowsOf v) next) :
    exec cfg faults (readPiece cfg rows cfg.partSize offset size next) w =
      (.ok ((cut cfg.partSize offset size next).map (byteOf cfg w v)), w) := by
  generalize hs : cfg.partSize = partSize at hsize ⊢
  have hpos : 0 < partSize := hs ▸ cfg.partSize_pos
  have hbyte : ∀ q, q < partSize → byteOf cfg w v (next * partSize + q) =
      padded ((partsOf cfg w (w.rowsOf v) next).getD []) q := by
    intro q hq
    rw [byteOf, hs, byteAt_mul_add _ hq]
  have hposition : ∀ q, max offset (next * partSize) + q =
      next * partSize + (offset - next * partSize + q) := by omega
  have hlen : min (offset + size) (next * partSize + partSize) - next * partSize
      - (offset - next * partSize) =
      min (offset + size) (next * partSize + partSize) - max offset (next * partSize) := by omega
  rw [readPiece, hrows]
  cases hrow : atIndex (w.rowsOf v) next with
  | none =>
    refine congrArg (fun bytes => (Except.ok bytes, w)) (eq_map_of_padded ?_ fun q hq => ?_)
    · rw [List.length_replicate, hlen]
    · rw [padded_replicate, hposition, hbyte _ (by omega), partsOf, hrow]
      exact (padded_nil _).symm
  | some row =>
    obtain ⟨plaintext, hp⟩ := (hw.rows_ok hv).sealed row (mem_of_atIndex hrow)
    have hfits := hp.fits
    dsimp only
    rw [exec_readChunkSlice hp (by omega)]
    refine congrArg (fun bytes => (Except.ok bytes, w)) (eq_map_of_padded ?_ fun q hq => ?_)
    · rw [List.length_map, List.length_range', hlen]
    · rw [padded_map_range _ (by omega), hposition, hbyte _ (by omega), partsOf, hrow, Option.map_some,
        hp.plaintextOf_eq, Option.getD_some]

theorem exec_mapM' {α β ε : Type} {f : α → ExceptT ε (Effects.Program Api) β} {g : α → β} {xs : List α}
    (h : ∀ x ∈ xs, exec cfg faults (f x) w = (.ok (g x), w)) :
    exec cfg faults (xs.mapM' f) w = (.ok (xs.map g), w) := by
  induction xs with
  | nil => rfl
  | cons x xs ih =>
    rw [List.mapM'_cons, exec_bind_ok (h x List.mem_cons_self),
      exec_bind_ok (ih fun y hy => h y (List.mem_cons_of_mem _ hy))]
    rfl

theorem rowsBetween_atIndex (hw : Consistent cfg w) {v : Uuid} {version : FileVersionRecord}
    (hv : w.versions.lookup v = some version) {first last i : ℕ} (hf : first ≤ i) (hl : i ≤ last)
    (hlast : last < 2 ^ 63) :
    atIndex (w.rowsBetween v (asI64 first) (asI64 last)) i = atIndex (w.rowsOf v) i := by
  have hok := hw.rows_ok hv
  rw [rowsBetween, atIndex_eq_lookup (fun r hr => hok.index r (List.mem_of_mem_filter hr)) (by omega),
    atIndex_eq_lookup hok.index (by omega), Keyed.lookup_filter hok.ordered]
  cases hrow : Keyed.lookup FileChunkRecord.chunkIndex (asI64 i) (w.rowsOf v) with
  | none => rfl
  | some row =>
    have hkey := Keyed.key_of_lookup hrow
    rw [Option.filter_some, if_pos]
    rw [asI64_of_lt (by omega)] at hkey
    simp only [hkey, Bool.and_eq_true, decide_eq_true_eq]
    rw [asI64_of_lt (by omega), asI64_of_lt hlast]
    omega

theorem answer_getChunkRange (hw : Consistent cfg w) {v : Uuid} {version : FileVersionRecord}
    (hv : w.versions.lookup v = some version) (first last : ℤ) :
    answer cfg w (.getChunkRange v first last) = .ok (w.rowsBetween v first last) := by
  simp only [answer, World.getChunkRange, hw.chunks_eq hv]
  cases cfg.backend <;> rfl

theorem exec_readFrom_panicked (hw : Consistent cfg w) {v : Uuid} {version : FileVersionRecord}
    (hv : w.versions.lookup v = some version) {offset size : ℕ}
    (hparts : 2 ^ 63 ≤ partsSpanned cfg.partSize offset size * vecBytes) :
    exec cfg faults (readFrom cfg version offset size) w = (.error .panicked, w) := by
  have hok := hw.version hv
  rw [readFrom, hok.part_size, hok.id_eq, exec_step_query, answer_getChunkRange hw hv, step_repo_ok, pure_bind,
    if_pos hparts]
  rfl

theorem exec_readFrom (hw : Consistent cfg w) (hsize : cfg.partSize < 2 ^ 31) {v : Uuid}
    {version : FileVersionRecord} (hv : w.versions.lookup v = some version) {offset size : ℕ}
    (hpos : 0 < size) (hend : offset + size < 2 ^ 63)
    (hparts : partsSpanned cfg.partSize offset size * vecBytes < 2 ^ 63) :
    exec cfg faults (readFrom cfg version offset size) w =
      (.ok ((List.range' offset size).map (byteOf cfg w v)), w) := by
  have hok := hw.version hv
  have hcs := cfg.partSize_pos
  have hlast := Nat.div_mul_le_self (offset + size - 1) cfg.partSize
  have hlt := Nat.lt_div_mul_add hcs (a := offset + size - 1)
  have hfl : offset / cfg.partSize ≤ (offset + size - 1) / cfg.partSize :=
    Nat.div_le_div_right (by omega)
  have hbound := Nat.div_le_self (offset + size - 1) cfg.partSize
  have hpieces : ∀ next ∈ List.range' (offset / cfg.partSize) (partsSpanned cfg.partSize offset size),
      exec cfg faults (readPiece cfg (w.rowsBetween v (asI64 ↑(offset / cfg.partSize))
        (asI64 ↑((offset + size - 1) / cfg.partSize))) cfg.partSize offset size next) w =
        (.ok ((cut cfg.partSize offset size next).map (byteOf cfg w v)), w) := by
    intro next hnext
    rw [List.mem_range'_1, partsSpanned] at hnext
    exact exec_readPiece hw hsize hv (rowsBetween_atIndex hw hv hnext.1 (by omega) (by omega))
  rw [readFrom, hok.part_size, hok.id_eq, exec_step_query, answer_getChunkRange hw hv, step_repo_ok, pure_bind,
    if_neg (not_le.mpr hparts), exec_step, readPieces, exec_bind_ok (exec_mapM' hpieces), exec_pure,
    ← List.flatMap_def, ← List.map_flatMap, partsSpanned, flatMap_cut hcs]
  · rw [Nat.add_sub_cancel' hfl, min_eq_left (by omega), Nat.add_sub_cancel_left]
    rfl
  · rw [Nat.add_sub_cancel' hfl]
    omega

theorem answer_getNode {n : Uuid} {node : NodeRecord} (h : w.nodes.lookup n = some node) :
    answer cfg w (.getNode n) = .ok node := by
  simp only [answer, World.getNode, h]

theorem answer_getVersion {v : Uuid} {version : FileVersionRecord}
    (h : w.versions.lookup v = some version) : answer cfg w (.getVersion v) = .ok version := by
  simp only [answer, World.getVersion, h]

theorem answer_findOpen {n : Uuid} {version : FileVersionRecord}
    (h : newest (w.stagingOf n) = some version) :
    answer cfg w (.findOpenStagingVersion n) = .ok version := by
  simp only [answer, World.findOpenStagingVersion, h]

theorem answer_findOpen_none {n : Uuid} (h : newest (w.stagingOf n) = none) :
    answer cfg w (.findOpenStagingVersion n) = .error .notFound := by
  simp only [answer, World.findOpenStagingVersion, h]

theorem newest_lookup (hw : Consistent cfg w) {n : Uuid} {version : FileVersionRecord}
    (h : newest (w.stagingOf n) = some version) :
    w.versions.lookup version.id = some version ∧ version.nodeId = n ∧ version.state = .staging := by
  obtain ⟨⟨id, hid⟩, hn, hs⟩ := mem_stagingOf.mp (newest_mem h)
  exact ⟨(hw.version hid).id_eq.symm ▸ hid, hn, hs⟩

theorem visible_lookup (hw : Consistent cfg w) {n v : Uuid} (hv : visibleVersion w n = some v) :
    ∃ version, w.versions.lookup v = some version ∧ version.nodeId = n := by
  unfold visibleVersion at hv
  cases hnew : newest (w.stagingOf n) with
  | some version =>
    rw [hnew] at hv
    cases hv
    obtain ⟨hlook, hn, -⟩ := newest_lookup hw hnew
    exact ⟨version, hlook, hn⟩
  | none =>
    rw [hnew] at hv
    obtain ⟨node, hnode, hcur⟩ := Option.bind_eq_some_iff.mp hv
    obtain ⟨version, hlook, hn, -⟩ := hw.current hnode hcur
    exact ⟨version, hlook, hn⟩

def readLen (length offset : ℕ) (size : Option ℕ) : ℕ :=
  min (size.getD (length - offset)) (length - offset)

theorem exec_readVisible (hw : Consistent cfg w) (hsize : cfg.partSize < 2 ^ 31) {n v : Uuid}
    {node : NodeRecord} (hnode : w.nodes.lookup n = some node) (hv : visibleVersion w n = some v)
    {offset size : ℕ} (hpos : 0 < size) (hend : offset + size < 2 ^ 63)
    (hparts : partsSpanned cfg.partSize offset size * vecBytes < 2 ^ 63) :
    ∃ committed, exec cfg faults (readVisible cfg n node.currentVersionId offset size) w =
      (.ok ((List.range' offset size).map (visibleByte cfg w n), committed), w) := by
  have hbytes : visibleByte cfg w n = byteOf cfg w v := by
    funext p
    rw [visibleByte, hv]
  unfold readVisible
  rw [exec_step_query, hbytes]
  cases hnew : newest (w.stagingOf n) with
  | some working =>
    rw [visibleVersion, hnew] at hv
    cases hv
    rw [answer_findOpen hnew]
    exact ⟨false, exec_bind_ok (exec_readFrom hw hsize (newest_lookup hw hnew).1 hpos hend hparts)⟩
  | none =>
    rw [visibleVersion, hnew, hnode] at hv
    obtain ⟨version, hversion, -⟩ := hw.current hnode hv
    rw [answer_findOpen_none hnew, show node.currentVersionId = some v from hv]
    refine ⟨true, ?_⟩
    dsimp only
    rw [exec_step_query, answer_getVersion hversion, step_repo_ok, pure_bind]
    exact exec_bind_ok (exec_readFrom hw hsize hversion hpos hend hparts)

theorem exec_readVisible_panicked (hw : Consistent cfg w) {n v : Uuid} {node : NodeRecord}
    (hnode : w.nodes.lookup n = some node) (hv : visibleVersion w n = some v) {offset size : ℕ}
    (hparts : 2 ^ 63 ≤ partsSpanned cfg.partSize offset size * vecBytes) :
    exec cfg faults (readVisible cfg n node.currentVersionId offset size) w = (.error .panicked, w) := by
  unfold readVisible
  rw [exec_step_query]
  cases hnew : newest (w.stagingOf n) with
  | some working =>
    rw [answer_findOpen hnew]
    exact exec_bind_error (exec_readFrom_panicked hw (newest_lookup hw hnew).1 hparts)
  | none =>
    rw [visibleVersion, hnew, hnode] at hv
    obtain ⟨version, hversion, -⟩ := hw.current hnode hv
    rw [answer_findOpen_none hnew, show node.currentVersionId = some v from hv]
    dsimp only
    rw [exec_step_query, answer_getVersion hversion, step_repo_ok, pure_bind]
    exact exec_bind_error (exec_readFrom_panicked hw hversion hparts)

def readParts (cfg : Config) (length offset : ℕ) (size : Option ℕ) : ℕ :=
  partsSpanned cfg.partSize offset (readLen length offset size)

theorem readParts_zero {length offset : ℕ} {size : Option ℕ} (h : readLen length offset size = 0) :
    readParts cfg length offset size = 1 := by
  have hle : (offset - 1) / cfg.partSize ≤ offset / cfg.partSize := Nat.div_le_div_right (Nat.sub_le offset 1)
  simp only [readParts, partsSpanned, h, Nat.add_zero, Nat.sub_eq_zero_of_le hle]

section

variable {n v : Uuid} {node : NodeRecord} (hnode : w.nodes.lookup n = some node) (hkind : node.kind ≠ .directory)

include hnode hkind

variable (faults) in
theorem exec_readBytes_visible (offset size : Option ℕ) :
    exec cfg faults (readBytes cfg n offset size) w =
      if readLen node.length (offset.getD 0) size = 0 then (.ok ([], true), w)
      else exec cfg faults (readVisible cfg n node.currentVersionId (offset.getD 0)
        (readLen node.length (offset.getD 0) size)) w := by
  rw [readBytes, exec_step_query, answer_getNode hnode, step_repo_ok, pure_bind, if_neg hkind]
  dsimp only
  rw [← readLen]
  generalize offset.getD 0 = off
  by_cases hpast : node.length ≤ off
  · rw [if_pos hpast, if_pos (by rw [readLen, Nat.sub_eq_zero_of_le hpast, Nat.min_zero])]
    rfl
  · rw [if_neg hpast]
    split_ifs
    · rfl
    · rfl

theorem exec_readBytes (faults : Faults) (hw : Consistent cfg w) (hsize : cfg.partSize < 2 ^ 31)
    (hv : node.length = 0 ∨ visibleVersion w n = some v) (offset size : Option ℕ)
    (hparts : readParts cfg node.length (offset.getD 0) size * vecBytes < 2 ^ 63) :
    ∃ committed, exec cfg faults (readBytes cfg n offset size) w =
      (.ok ((List.range' (offset.getD 0) (readLen node.length (offset.getD 0) size)).map
        (visibleByte cfg w n), committed), w) := by
  rw [exec_readBytes_visible faults hnode hkind]
  generalize offset.getD 0 = off at hparts ⊢
  split_ifs with hzero
  · refine ⟨true, ?_⟩
    rw [hzero]
    rfl
  · have hlength := (hw.node hnode).size_range.2
    have hend : off + readLen node.length off size < 2 ^ 63 := by
      simp only [readLen, NodeRecord.length] at hzero ⊢
      omega
    have hlong : node.length ≠ 0 := by
      rw [readLen] at hzero
      omega
    exact exec_readVisible hw hsize hnode (hv.resolve_left hlong) (Nat.pos_of_ne_zero hzero) hend hparts

theorem exec_readBytes_panicked (faults : Faults) (hw : Consistent cfg w)
    (hv : node.length = 0 ∨ visibleVersion w n = some v) {offset size : Option ℕ}
    (hparts : 2 ^ 63 ≤ readParts cfg node.length (offset.getD 0) size * vecBytes) :
    exec cfg faults (readBytes cfg n offset size) w = (.error .panicked, w) := by
  rw [exec_readBytes_visible faults hnode hkind]
  generalize offset.getD 0 = off at hparts ⊢
  by_cases hzero : readLen node.length off size = 0
  · rw [readParts_zero hzero] at hparts
    exact absurd hparts (by decide)
  · have hlong : node.length ≠ 0 := by
      rw [readLen] at hzero
      omega
    rw [if_neg hzero]
    exact exec_readVisible_panicked hw hnode (hv.resolve_left hlong) hparts

end

end Dcfs
