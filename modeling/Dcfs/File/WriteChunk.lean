import Dcfs.File.Read

namespace Dcfs

open Exec Machine Request Sparse Tables World

theorem padded_splice {bytes patch : Bytes} {start : ℕ} (h : start + patch.length ≤ bytes.length)
    (q : ℕ) :
    padded (splice bytes start patch) q =
      if start ≤ q ∧ q < start + patch.length then padded patch (q - start) else padded bytes q := by
  rw [splice, List.append_assoc, padded_append, padded_append, padded_take, padded_drop,
    List.length_take, min_eq_left (by omega)]
  by_cases h1 : q < start
  · rw [if_pos h1, if_pos h1, if_neg (by omega)]
  · rw [if_neg h1]
    by_cases h2 : q < start + patch.length
    · rw [if_pos (by omega), if_pos (by omega)]
    · rw [if_neg (by omega), if_neg (by omega)]
      congr 1
      omega

namespace WritePlan

variable {plan : WritePlan} {body : Bytes}

def covers (plan : WritePlan) (p : ℕ) : Prop := plan.offset ≤ p ∧ p < plan.stop

instance (p : ℕ) : Decidable (plan.covers p) := inferInstanceAs (Decidable (_ ∧ _))

theorem patch_length (hbody : plan.stop ≤ plan.offset + body.length) (i : ℕ)
    (h : plan.overlapStart i < plan.overlapEnd i) :
    ((body.drop (plan.overlapStart i - plan.offset)).take
      (plan.overlapEnd i - plan.overlapStart i)).length = plan.overlapEnd i - plan.overlapStart i := by
  have h1 : plan.offset ≤ plan.overlapStart i := le_max_left _ _
  have h2 : plan.overlapEnd i ≤ plan.stop := min_le_left _ _
  rw [List.length_take, List.length_drop]
  omega

theorem overlap_fits (i : ℕ) (h : plan.overlapStart i < plan.overlapEnd i) :
    plan.overlapStart i - i * plan.partSize + (plan.overlapEnd i - plan.overlapStart i) ≤
      plan.chunkLen i := by
  have h1 : i * plan.partSize ≤ plan.overlapStart i := le_max_right _ _
  have h2 : plan.overlapEnd i ≤ i * plan.partSize + plan.chunkLen i := min_le_right _ _
  omega

theorem length_merge (hbody : plan.stop ≤ plan.offset + body.length) (old : Bytes) (i : ℕ) :
    (plan.merge body old i).length = plan.chunkLen i := by
  simp only [merge]
  split_ifs with h
  · have hfits := plan.overlap_fits i h
    rw [splice, List.length_append, List.length_append, List.length_take, List.length_drop,
      patch_length hbody i h, length_resize]
    omega
  · exact length_resize _ _

theorem padded_merge (hbody : plan.stop ≤ plan.offset + body.length) (old : Bytes) {i q : ℕ}
    (hq : q < plan.chunkLen i) :
    padded (plan.merge body old i) q =
      if plan.covers (i * plan.partSize + q) then padded body (i * plan.partSize + q - plan.offset)
      else padded old q := by
  have h1 : plan.overlapStart i = max plan.offset (i * plan.partSize) := rfl
  have h2 : plan.overlapEnd i = min plan.stop (i * plan.partSize + plan.chunkLen i) := rfl
  rw [merge]
  by_cases hlt : plan.overlapStart i < plan.overlapEnd i
  · have hpatch := patch_length hbody i hlt
    have hfits := plan.overlap_fits i hlt
    rw [if_pos hlt, padded_splice (by rw [hpatch, length_resize]; exact hfits), hpatch,
      padded_resize _ hq, padded_take, padded_drop]
    generalize i * plan.partSize = start at h1 h2 ⊢
    have hiff : plan.covers (start + q) ↔ plan.offset ≤ start + q ∧ start + q < plan.stop := Iff.rfl
    by_cases hcov : plan.covers (start + q)
    · have hin := hiff.mp hcov
      rw [if_pos hcov, if_pos (by omega), if_pos (by omega)]
      congr 1
      omega
    · have hout := mt hiff.mpr hcov
      rw [if_neg hcov, if_neg (by omega)]
  · have hcov : ¬ plan.covers (i * plan.partSize + q) := by
      unfold covers
      omega
    rw [if_neg hlt, if_neg hcov, padded_resize _ hq]

theorem covers_of_coversWhole {i q : ℕ} (h : plan.coversWhole i = true) (hq : q < plan.chunkLen i) :
    plan.covers (i * plan.partSize + q) := by
  have h1 : plan.offset ≤ plan.overlapStart i := le_max_left _ _
  have h2 : plan.overlapEnd i ≤ plan.stop := min_le_left _ _
  simp only [coversWhole, decide_eq_true_eq] at h
  unfold covers
  omega

end WritePlan

variable {cfg : Config} {faults : Faults} {w u : World}

structure Grown (v : Uuid) (w u : World) : Prop where
  nodes : u.nodes = w.nodes
  versions : u.versions = w.versions
  chunks : ∀ id, id ≠ v → u.chunks.lookup id = w.chunks.lookup id
  objects : ∀ o stored, w.objects.lookup o = some stored → u.objects.lookup o = some stored
  sweeping : u.sweeping = w.sweeping
  nodeLocks : u.nodeLocks = w.nodeLocks
  now : w.now ≤ u.now

namespace Grown

theorem refl (v : Uuid) (w : World) : Grown v w w :=
  ⟨rfl, rfl, fun _ _ => rfl, fun _ _ h => h, rfl, rfl, le_rfl⟩

theorem trans {v : Uuid} {w u t : World} (h : Grown v w u) (h' : Grown v u t) : Grown v w t where
  nodes := h'.nodes.trans h.nodes
  versions := h'.versions.trans h.versions
  chunks id hid := (h'.chunks id hid).trans (h.chunks id hid)
  objects o stored ho := h'.objects o stored (h.objects o stored ho)
  sweeping := h'.sweeping.trans h.sweeping
  nodeLocks := h'.nodeLocks.trans h.nodeLocks
  now := h.now.trans h'.now

end Grown

theorem atIndex_upsert {version : FileVersionRecord} {rows : List FileChunkRecord}
    (h : ManifestOk cfg w version rows) {row : FileChunkRecord} {i j : ℕ}
    (hi : i < 2 ^ 64) (hj : j < 2 ^ 64) (hrow : row.chunkIndex = asI64 i) :
    atIndex (Keyed.upsert FileChunkRecord.chunkIndex row rows) j =
      if j = i then some row else atIndex rows j := by
  have hindex : InI64 row.chunkIndex := hrow ▸ inI64_asI64 _
  have hall : ∀ r ∈ Keyed.upsert FileChunkRecord.chunkIndex row rows, InI64 r.chunkIndex :=
    fun r hr => (Keyed.mem_upsert hr).elim (fun e => e ▸ hindex) (h.index r)
  have hiff : asI64 j = row.chunkIndex ↔ j = i := by
    rw [hrow]
    refine ⟨fun e => ?_, fun e => e ▸ rfl⟩
    rw [← asU64_asI64 j hj, e, asU64_asI64 i hi]
  rw [atIndex_eq_lookup hall hj, Keyed.lookup_upsert h.ordered, atIndex_eq_lookup h.index hj]
  simp only [hiff]

def OldPart (cfg : Config) (u : World) (n : Uuid) (plan : WritePlan) (oldChunks : List FileChunkRecord)
    (i : ℕ) (old : Bytes) : Prop :=
  if plan.coversWhole i then old = []
  else match atIndex oldChunks i with
    | some row => Sealed cfg u n row old
    | none => old = []

theorem OldPart.grown {v n : Uuid} {plan : WritePlan} {oldChunks : List FileChunkRecord} {i : ℕ}
    {old : Bytes} (h : OldPart cfg w n plan oldChunks i old) (hg : Grown v w u) :
    OldPart cfg u n plan oldChunks i old := by
  unfold OldPart at h ⊢
  split_ifs at h ⊢
  · exact h
  · split at h
    · exact h.mono (hg.objects _)
    · exact h

def putFresh (cfg : Config) (u : World) (plaintext : Bytes) (file : Uuid) : World :=
  u.nextId.keepObject cfg.keepsLocators u.nextUuid ⟨cfg.cipher.sealedBytes cfg.keyId u.nextUuid plaintext, file⟩

theorem lookup_nextUuid (hu : Consistent cfg u) : u.objects.lookup u.nextUuid = none := by
  cases ho : u.objects.lookup u.nextUuid with
  | none => rfl
  | some stored => exact absurd (hu.object_lt ho) (lt_irrefl _)

variable (faults) in
theorem exec_putFresh (hu : Consistent cfg u) (plaintext : Bytes) (file : Uuid) :
    exec cfg faults (writeChunkPlaintext cfg plaintext file) u =
      (.ok (u.nextUuid, cfg.cipher.hashData plaintext), putFresh cfg u plaintext file) := by
  have hput : perform cfg faults u.nextId (.put u.nextUuid
      (cfg.cipher.sealedBytes cfg.keyId u.nextUuid plaintext) file) = (.ok (), putFresh cfg u plaintext file) := by
    simp only [perform, World.put, World.nextId, lookup_nextUuid hu]
    rfl
  rw [writeChunkPlaintext, exec_ask]
  change exec cfg faults (ask (.put u.nextUuid (cfg.cipher.sealedBytes cfg.keyId u.nextUuid plaintext)
    file) >>= _) u.nextId = _
  rw [exec_ask, hput]
  rfl

theorem putFresh_consistent (hu : Consistent cfg u) (plaintext : Bytes) (file : Uuid) :
    Consistent cfg (putFresh cfg u plaintext file) := by
  have hfresh := lookup_nextUuid hu
  exact hu.nextId.keepObject hfresh (Nat.lt_succ_self _) _ _

theorem putFresh_grown (hu : Consistent cfg u) (plaintext : Bytes) (file v : Uuid) :
    Grown v u (putFresh cfg u plaintext file) := by
  refine ⟨rfl, rfl, fun _ _ => rfl, fun o stored ho => ?_, rfl, rfl, Int.le.intro 1 rfl⟩
  have hne : o ≠ u.nextUuid := by
    rintro rfl
    simp [lookup_nextUuid hu] at ho
  rw [putFresh, World.keepObject, lookup_insert, if_neg hne]
  exact ho

theorem perform_attach {v : Uuid} {version : FileVersionRecord} {row : FileChunkRecord}
    (hu : Consistent cfg u) (hv : u.versions.lookup v = some version) (hrow : row.versionId = v) :
    perform cfg faults u (.attachChunk row) = (.ok (), u.setRows v
      (Keyed.upsert FileChunkRecord.chunkIndex row (u.rowsOf v))) := by
  subst hrow
  simp only [perform, World.attachChunk]
  cases cfg.backend <;> simp [hv, hu.chunks_eq hv]

theorem rowsOf_setRows (v : Uuid) (rows : List FileChunkRecord) : (u.setRows v rows).rowsOf v = rows := by
  simp [World.setRows, World.rowsOf]

theorem setRows_grown (v : Uuid) (rows : List FileChunkRecord) : Grown v u (u.setRows v rows) where
  nodes := rfl
  versions := rfl
  chunks id hid := by rw [World.setRows, lookup_insert, if_neg hid]
  objects _ _ h := h
  sweeping := rfl
  nodeLocks := rfl
  now := le_rfl

theorem exec_oldPlaintext {n : Uuid} {plan : WritePlan} {oldChunks : List FileChunkRecord} {i : ℕ}
    {old : Bytes} (h : OldPart cfg u n plan oldChunks i old) :
    exec cfg faults (oldPlaintext cfg plan oldChunks i) u = (.ok old, u) := by
  unfold OldPart at h
  unfold oldPlaintext
  split_ifs at h ⊢
  · rw [h, exec_pure]
  · cases hrow : atIndex oldChunks i with
    | some row =>
      rw [hrow] at h
      exact exec_readChunkPlaintext h
    | none =>
      rw [hrow] at h
      rw [h, exec_pure]

def putRow (cfg : Config) (u : World) (n : Uuid) (row : FileChunkRecord) (plaintext : Bytes) : World :=
  (putFresh cfg u plaintext n).setRows row.versionId
    (Keyed.upsert FileChunkRecord.chunkIndex row (u.rowsOf row.versionId))

/-- The plaintext is in a fresh object, and a row of the version names it. -/
structure Attached (cfg : Config) (n v : Uuid) (i : ℕ) (logical : ℤ) (plaintext : Bytes) (row : FileChunkRecord)
    (u t : World) : Prop where
  eq : t = putRow cfg u n row plaintext
  version : row.versionId = v
  index : row.chunkIndex = asI64 i
  offset : row.logicalOffset = logical
  size : row.plaintextSize = asI32 plaintext.length
  object : row.objectId = u.nextUuid
  consistent : Consistent cfg t
  grown : Grown v u t
  parts : i < 2 ^ 64 → ∀ j, j < 2 ^ 64 → partsOf cfg t (t.rowsOf v) j =
    if j = i then some plaintext else partsOf cfg u (u.rowsOf v) j

variable {n v : Uuid} {version : FileVersionRecord} {plan : WritePlan} {body : Bytes}
  {oldChunks : List FileChunkRecord}

variable (faults) in
theorem attach_fresh (hu : Consistent cfg u) (hv : u.versions.lookup v = some version) {plaintext : Bytes}
    (hfits : plaintext.length ≤ cfg.partSize) (i : ℕ) (logical : ℤ) :
    ∃ row t, perform cfg faults (putFresh cfg u plaintext version.nodeId) (.attachChunk ⟨v, asI64 i, logical,
        asI32 plaintext.length, cfg.cipher.hashData plaintext, u.nextUuid⟩) = (.ok (), t)
      ∧ Attached cfg version.nodeId v i logical plaintext row u t := by
  have hs := putFresh_consistent hu plaintext version.nodeId
  have hgrown := putFresh_grown hu plaintext version.nodeId v
  have hvs : (putFresh cfg u plaintext version.nodeId).versions.lookup v = some version := hv
  have hok := hs.rows_ok hvs
  have hid := (hu.version hv).id_eq
  generalize hrow : FileChunkRecord.mk v (asI64 i) logical (asI32 plaintext.length)
    (cfg.cipher.hashData plaintext) u.nextUuid = row
  have hown : row.versionId = v := by rw [← hrow]
  have hindex : row.chunkIndex = asI64 i := by rw [← hrow]
  have hobject : row.objectId = u.nextUuid := by rw [← hrow]
  have hsealed : Sealed cfg (putFresh cfg u plaintext version.nodeId) version.nodeId row plaintext :=
    ⟨by rw [hobject]; exact AList.lookup_insert _, by rw [← hrow], by rw [← hrow], hfits⟩
  have hnew := hok.add (hown.trans hid.symm) (hindex ▸ inI64_asI64 _) hsealed
    (Keyed.ordered_upsert hok.ordered) Keyed.mem_upsert
  have hfrom : FromRows (putFresh cfg u plaintext version.nodeId) (Keyed.upsert FileChunkRecord.chunkIndex row
      ((putFresh cfg u plaintext version.nodeId).rowsOf v)) := by
    refine ⟨row, fun r hr => ?_⟩
    rcases Keyed.mem_upsert hr with rfl | hold
    · exact .inr ⟨rfl, fun v other hother => hobject ▸ (hu.named_lt (v := v) hother).ne⟩
    · exact .inl ⟨v, r, hold, rfl⟩
  refine ⟨row, _, perform_attach hs hvs hown, by rw [putRow, hown]; rfl, hown, hindex, by rw [← hrow],
    by rw [← hrow], hobject, hs.setRows hvs hnew hfrom, hgrown.trans (setRows_grown v _), fun hi j hj => ?_⟩
  rw [rowsOf_setRows, partsOf, atIndex_upsert hok hi hj hindex]
  split_ifs with hji
  · exact congrArg some (hsealed.mono fun _ h => h).plaintextOf_eq
  · exact partsOf_mono (hu.rows_ok hv) (fun _ _ => hgrown.objects _) j

variable (faults) in
theorem exec_writeChunk {old : Bytes} {i : ℕ} (hu : Consistent cfg u) (hv : u.versions.lookup v = some version)
    (hn : version.nodeId = n) (hplan : plan.partSize = cfg.partSize) (hbody : plan.stop ≤ plan.offset + body.length)
    (hold : OldPart cfg u n plan oldChunks i old) :
    ∃ row t, exec cfg faults (writeChunk cfg n v plan body oldChunks i) u = (.ok (), t)
      ∧ Attached cfg n v i (asI64 ↑(i * plan.partSize)) (plan.merge body old i) row u t := by
  subst hn
  have hfits : (plan.merge body old i).length ≤ cfg.partSize := by
    rw [WritePlan.length_merge hbody, ← hplan]
    exact min_le_left _ _
  obtain ⟨row, t, hattach, hattached⟩ := attach_fresh faults hu hv hfits i (asI64 ↑(i * plan.partSize))
  refine ⟨row, t, ?_, hattached⟩
  rw [writeChunk, exec_bind_ok (exec_oldPlaintext hold), exec_bind_ok (exec_putFresh faults hu _ _)]
  dsimp only
  rw [exec_ask, hattach]
  rfl

/-- The chunks of a write, put and attached one after the other. -/
inductive Attaches (cfg : Config) (n v : Uuid) (plan : WritePlan) (body : Bytes) (old : ℕ → Bytes) :
    List ℕ → World → World → Prop
  | nil (u : World) : Attaches cfg n v plan body old [] u u
  | cons {i : ℕ} {indexes : List ℕ} {row : FileChunkRecord} {u s t : World} (short : i < 2 ^ 64)
      (first : Attached cfg n v i (asI64 ↑(i * plan.partSize)) (plan.merge body (old i) i) row u s)
      (rest : Attaches cfg n v plan body old indexes s t) : Attaches cfg n v plan body old (i :: indexes) u t

variable {indexes : List ℕ} {old : ℕ → Bytes} {t : World}

variable (faults) in
theorem exec_writeChunks (hu : Consistent cfg u) (hv : u.versions.lookup v = some version)
    (hn : version.nodeId = n) (hplan : plan.partSize = cfg.partSize) (hbody : plan.stop ≤ plan.offset + body.length)
    (hold : ∀ i ∈ indexes, OldPart cfg u n plan oldChunks i (old i)) (hi : ∀ i ∈ indexes, i < 2 ^ 64) :
    ∃ t, exec cfg faults (indexes.forM (writeChunk cfg n v plan body oldChunks)) u = (.ok (), t)
      ∧ Attaches cfg n v plan body old indexes u t := by
  induction indexes generalizing u with
  | nil => exact ⟨u, rfl, .nil u⟩
  | cons i rest ih =>
    obtain ⟨row, s, hexec, hfirst⟩ := exec_writeChunk faults hu hv hn hplan hbody (hold i List.mem_cons_self)
    obtain ⟨t, hexec', hrest⟩ := ih hfirst.consistent (by rw [hfirst.grown.versions, hv])
      (fun j hj => (hold j (List.mem_cons_of_mem _ hj)).grown hfirst.grown)
      (fun j hj => hi j (List.mem_cons_of_mem _ hj))
    refine ⟨t, ?_, .cons (hi i List.mem_cons_self) hfirst hrest⟩
    rw [List.forM_eq_forM, List.forM_cons, exec_bind_ok hexec]
    exact hexec'

namespace Attaches

theorem consistent (h : Attaches cfg n v plan body old indexes u t) (hu : Consistent cfg u) : Consistent cfg t := by
  induction h with
  | nil => exact hu
  | cons _ first _ ih => exact ih first.consistent

theorem grown (h : Attaches cfg n v plan body old indexes u t) : Grown v u t := by
  induction h with
  | nil => exact .refl v _
  | cons _ first _ ih => exact first.grown.trans ih

theorem short (h : Attaches cfg n v plan body old indexes u t) : ∀ i ∈ indexes, i < 2 ^ 64 := by
  induction h with
  | nil => simp
  | cons hi _ _ ih => exact List.forall_mem_cons.mpr ⟨hi, ih⟩

theorem parts (h : Attaches cfg n v plan body old indexes u t) {j : ℕ} (hj : j < 2 ^ 64) :
    partsOf cfg t (t.rowsOf v) j =
      if j ∈ indexes then some (plan.merge body (old j) j) else partsOf cfg u (u.rowsOf v) j := by
  induction h with
  | nil => rfl
  | @cons i rest _ _ _ _ short first _ ih =>
    rw [ih, first.parts short j hj]
    by_cases hrest : j ∈ rest
    · rw [if_pos hrest, if_pos (List.mem_cons_of_mem _ hrest)]
    · by_cases hji : j = i
      · rw [if_neg hrest, if_pos hji, if_pos (hji ▸ List.mem_cons_self), hji]
      · rw [if_neg hrest, if_neg hji, if_neg]
        simp [hji, hrest]

end Attaches

end Dcfs
