import Dcfs.State.Switch

namespace Dcfs

open Machine Tables World

variable {cfg : Config} {w u : World}

def weight (w : World) : ℕ := w.referencedObjects.length + w.storedObjects.keys.length

def Named (b : Backend) (w : World) (o : Uuid) : Prop :=
  o ∈ w.referencedObjects ∨ b = .postgres ∧ o ∈ w.storedObjects.keys

structure Swept (taken : List Uuid) (w u : World) : Prop where
  nodes : u.nodes = w.nodes
  versions : u.versions = w.versions
  chunks : ∀ id, u.chunks.lookup id = (w.chunks.lookup id).map (List.filter (fun c => c.objectId ∉ taken))
  objects : ∀ o, o ∉ taken → u.objects.lookup o = w.objects.lookup o
  objects_sub : ∀ {o stored}, u.objects.lookup o = some stored → w.objects.lookup o = some stored
  nextUuid : u.nextUuid = w.nextUuid
  now : w.now ≤ u.now
  weight_le : weight u ≤ weight w

namespace Swept

variable {taken : List Uuid}

theorem rowsOf (h : Swept taken w u) (v : Uuid) :
    u.rowsOf v = (w.rowsOf v).filter (fun c => c.objectId ∉ taken) := by
  rw [World.rowsOf, h.chunks, World.rowsOf]
  cases w.chunks.lookup v <;> rfl

theorem manifest (h : Swept taken w u) {version : FileVersionRecord} {rows : List FileChunkRecord}
    (hok : ManifestOk cfg w version rows) :
    ManifestOk cfg u version (rows.filter (fun c => c.objectId ∉ taken)) := by
  refine (hok.filter _).mono rfl rfl fun row hrow stored hs => ?_
  have hnot : row.objectId ∉ taken := by simpa using (List.mem_filter.mp hrow).2
  rw [h.objects _ hnot, hs]

theorem consistent (h : Swept taken w u) (hw : Consistent cfg w) : Consistent cfg u where
  version hv := (hw.version (h.versions ▸ hv)).later h.nextUuid.ge h.now
  distinct hv hv' := hw.distinct (h.versions ▸ hv) (h.versions ▸ hv')
  manifest hv := by
    obtain ⟨rows, hrows, hok⟩ := hw.manifest (h.versions ▸ hv)
    exact ⟨_, by rw [h.chunks, hrows, Option.map_some], h.manifest hok⟩
  chunk_version hrows := by
    rw [h.chunks] at hrows
    obtain ⟨rows, hrows, -⟩ := Option.map_eq_some_iff.mp hrows
    exact h.versions ▸ hw.chunk_version hrows
  shared hrow hrow' := by
    rw [h.rowsOf] at hrow hrow'
    exact hw.shared (List.mem_of_mem_filter hrow) (List.mem_of_mem_filter hrow')
  object_lt hs := h.nextUuid ▸ hw.object_lt (h.objects_sub hs)
  node hn := hw.node (h.nodes ▸ hn)
  current hn hc := h.versions ▸ hw.current (h.nodes ▸ hn) hc

theorem trans {more : List Uuid} {t : World} (h : Swept taken w u) (h' : Swept more u t) :
    Swept (taken ++ more) w t where
  nodes := h'.nodes.trans h.nodes
  versions := h'.versions.trans h.versions
  chunks id := by
    rw [h'.chunks, h.chunks, Option.map_map]
    congr 1
    funext rows
    simp [List.filter_filter, Bool.and_comm]
  objects o ho := by
    rw [List.mem_append, not_or] at ho
    rw [h'.objects o ho.2, h.objects o ho.1]
  objects_sub ho := h.objects_sub (h'.objects_sub ho)
  nextUuid := h'.nextUuid.trans h.nextUuid
  now := h.now.trans h'.now
  weight_le := h'.weight_le.trans h.weight_le

theorem of_idle (hn : u.nodes = w.nodes) (hv : u.versions = w.versions) (hc : u.chunks = w.chunks)
    (ho : u.objects = w.objects) (hs : u.storedObjects = w.storedObjects)
    (hnext : u.nextUuid = w.nextUuid) (hnow : w.now ≤ u.now) : Swept [] w u where
  nodes := hn
  versions := hv
  chunks id := by
    rw [hc]
    cases w.chunks.lookup id <;> simp
  objects o _ := by rw [ho]
  objects_sub h := ho ▸ h
  nextUuid := hnext
  now := hnow
  weight_le := by rw [weight, weight, World.referencedObjects, World.referencedObjects, hc, hs]

end Swept

theorem isCurrent_eq {version : FileVersionRecord} {node : NodeRecord}
    (hnode : w.nodes.lookup version.nodeId = some node) :
    w.isCurrent version = (node.currentVersionId == some version.id) := by
  rw [World.isCurrent, hnode]

theorem not_isDoomed (hw : Orderly w) (b : Backend) (cutoff : Time) {n v : Uuid} {node : NodeRecord}
    {version : FileVersionRecord} (hnode : w.nodes.lookup n = some node)
    (hcur : node.currentVersionId = some v) (hv : w.versions.lookup v = some version) :
    w.isDoomed b cutoff version = false := by
  obtain ⟨current, hc, hn, -⟩ := hw.current hnode hcur
  cases hv.symm.trans hc
  have hid := (hw.ids hv).1
  have hnamed : w.isNamed b version = true := by
    cases b with
    | memory =>
      rw [World.isNamed, isCurrent_eq (hn ▸ hnode), hcur, hid]
      exact beq_self_eq_true _
    | postgres =>
      rw [World.isNamed, List.any_eq_true]
      exact ⟨node, mem_values.mpr ⟨n, hnode⟩, by simp [hcur, hid]⟩
  simp [World.isDoomed, hnamed]

theorem mem_doomedVersions (hw : Orderly w) (b : Backend) (cutoff : Time) {id : Uuid}
    {version : FileVersionRecord} (hv : w.versions.lookup id = some version) :
    id ∈ w.doomedVersions b cutoff ↔ w.isDoomed b cutoff version = true := by
  simp only [World.doomedVersions, List.mem_map, List.mem_filter, mem_values]
  constructor
  · rintro ⟨other, ⟨⟨id', hid'⟩, hdoomed⟩, he⟩
    rw [(hw.ids hid').1] at he
    subst he
    cases hv.symm.trans hid'
    exact hdoomed
  · exact fun hdoomed => ⟨version, ⟨⟨id, hv⟩, hdoomed⟩, (hw.ids hv).1⟩

def purged (cfg : Config) (w : World) (cutoff : Time) : World :=
  (w.purgeEmptyDeadVersions cfg.backend cutoff).2

theorem lookup_purged (hw : Orderly w) (cutoff : Time) (id : Uuid) :
    (purged cfg w cutoff).versions.lookup id = (w.versions.lookup id).bind fun version =>
      if w.isDoomed cfg.backend cutoff version then none
      else some (unlinked cfg.backend (w.doomedVersions cfg.backend cutoff) version) := by
  rw [purged, World.purgeEmptyDeadVersions, lookup_mapValues, lookup_keep]
  cases hv : w.versions.lookup id with
  | none => rfl
  | some version =>
    have hiff := mem_doomedVersions hw cfg.backend cutoff hv
    rw [Option.filter_some, Option.bind_some]
    by_cases hd : w.isDoomed cfg.backend cutoff version = true
    · simp [hd, hiff.mpr hd]
    · simp [hd, mt hiff.mp hd]

theorem lookup_purged_chunks (cutoff : Time) (id : Uuid) :
    (purged cfg w cutoff).chunks.lookup id =
      if id ∈ w.doomedVersions cfg.backend cutoff then none else w.chunks.lookup id := by
  rw [purged, World.purgeEmptyDeadVersions, lookup_keep]
  by_cases hmem : id ∈ w.doomedVersions cfg.backend cutoff <;>
    cases w.chunks.lookup id <;> simp [hmem]

theorem unlinked_eq (b : Backend) (doomed : List Uuid) (version : FileVersionRecord) :
    ∃ base, unlinked b doomed version = { version with baseVersionId := base } := by
  unfold World.unlinked
  cases b
  · exact ⟨version.baseVersionId, rfl⟩
  · dsimp only
    split_ifs
    · exact ⟨none, rfl⟩
    · exact ⟨version.baseVersionId, rfl⟩

theorem lookup_purged_some (hw : Orderly w) {cutoff : Time} {id : Uuid} {version : FileVersionRecord}
    (h : (purged cfg w cutoff).versions.lookup id = some version) :
    ∃ old base, w.versions.lookup id = some old ∧ w.isDoomed cfg.backend cutoff old = false
      ∧ version = { old with baseVersionId := base } := by
  rw [lookup_purged hw] at h
  obtain ⟨old, hold, h⟩ := Option.bind_eq_some_iff.mp h
  split_ifs at h with hd
  cases h
  obtain ⟨base, hbase⟩ := unlinked_eq cfg.backend (w.doomedVersions cfg.backend cutoff) old
  exact ⟨old, base, hold, Bool.not_eq_true _ ▸ hd, hbase⟩

theorem lookup_purged_of_kept (hw : Orderly w) {cutoff : Time} {id : Uuid} {old : FileVersionRecord}
    (h : w.versions.lookup id = some old) (hd : w.isDoomed cfg.backend cutoff old = false) :
    ∃ base, (purged cfg w cutoff).versions.lookup id = some { old with baseVersionId := base } := by
  obtain ⟨base, hbase⟩ := unlinked_eq cfg.backend (w.doomedVersions cfg.backend cutoff) old
  exact ⟨base, by simp [lookup_purged hw, h, hd, hbase]⟩

theorem purged_consistent (hw : Consistent cfg w) (cutoff : Time) : Consistent cfg (purged cfg w cutoff) where
  version h := by
    obtain ⟨old, base, hold, -, rfl⟩ := lookup_purged_some hw.orderly h
    have hok := hw.version hold
    exact ⟨hok.id_eq, hok.id_lt, hok.size_range, hok.part_size, hok.staged, hok.created_past,
      hok.committed_past⟩
  distinct h h' hs hs' ht := by
    obtain ⟨old, base, hold, -, rfl⟩ := lookup_purged_some hw.orderly h
    obtain ⟨old', base', hold', -, rfl⟩ := lookup_purged_some hw.orderly h'
    exact hw.distinct hold hold' hs hs' ht
  manifest h := by
    obtain ⟨old, base, hold, hd, rfl⟩ := lookup_purged_some hw.orderly h
    obtain ⟨rows, hrows, hok⟩ := hw.manifest hold
    have hmem := mt (mem_doomedVersions hw.orderly cfg.backend cutoff hold).mp (Bool.eq_false_iff.mp hd)
    exact ⟨rows, by rw [lookup_purged_chunks, if_neg hmem, hrows], hok.mono rfl rfl fun _ _ _ h => h⟩
  chunk_version h := by
    rw [lookup_purged_chunks] at h
    split_ifs at h with hmem
    obtain ⟨old, hold⟩ := hw.chunk_version h
    obtain ⟨base, hbase⟩ := lookup_purged_of_kept hw.orderly hold
      (Bool.not_eq_true _ ▸ mt (mem_doomedVersions hw.orderly _ cutoff hold).mpr hmem)
    exact ⟨_, hbase⟩
  shared := by
    have hrows : ∀ {v row}, row ∈ (purged cfg w cutoff).rowsOf v → row ∈ w.rowsOf v := by
      intro v row hrow
      simp only [World.rowsOf, lookup_purged_chunks] at hrow
      split_ifs at hrow
      · simp at hrow
      · exact hrow
    intro v v' row row' h h'
    exact hw.shared (hrows h) (hrows h')
  object_lt := hw.object_lt
  node := hw.node
  current hn hc := by
    obtain ⟨version, hv, hrest⟩ := hw.current hn hc
    obtain ⟨base, hbase⟩ := lookup_purged_of_kept hw.orderly hv (not_isDoomed hw.orderly _ cutoff hn hc hv)
    exact ⟨_, hbase, hrest⟩

def resized (w : World) : World := w.reconcileNodeSizes.2

theorem lookup_resized (n : Uuid) : (resized w).nodes.lookup n = (w.nodes.lookup n).map w.reconciled := by
  rw [resized, World.reconcileNodeSizes, lookup_mapValues]

theorem reconciled_eq (node : NodeRecord) : ∃ size, w.reconciled node = { node with size := size } := by
  unfold World.reconciled
  split_ifs
  · exact ⟨_, rfl⟩
  · exact ⟨node.size, rfl⟩

theorem resized_consistent (hw : Consistent cfg w) : Consistent cfg (resized w) := by
  have hback : ∀ {id node}, (resized w).nodes.lookup id = some node →
      ∃ old, w.nodes.lookup id = some old ∧ node = w.reconciled old := fun h => by
    rw [lookup_resized] at h
    obtain ⟨old, hold, rfl⟩ := Option.map_eq_some_iff.mp h
    exact ⟨old, hold, rfl⟩
  refine hw.of_nodes rfl rfl rfl rfl le_rfl (fun h => ?_) fun h hc => ?_
  · obtain ⟨old, hold, rfl⟩ := hback h
    have hok := hw.node hold
    unfold World.reconciled
    split_ifs
    · refine ⟨hok.id_eq, ?_⟩
      simp only [World.committedSize]
      split
      · rename_i version hv
        obtain ⟨current, -, hv⟩ := Option.bind_eq_some_iff.mp hv
        exact (hw.version hv).size_range
      · exact inI64_zero
    · exact hok
  · obtain ⟨old, hold, rfl⟩ := hback h
    obtain ⟨size, hsize⟩ := reconciled_eq (w := w) old
    rw [hsize] at hc
    exact ⟨old, hold, hc⟩

end Dcfs
