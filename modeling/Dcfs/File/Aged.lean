import Dcfs.State.Reachable

namespace Dcfs

open Machine Tables World Exec

def currentObjects (w : World) (node : NodeRecord) : List Uuid :=
  match node.currentVersionId with
  | some c => (w.rowsOf c).map FileChunkRecord.objectId
  | none => []

structure Aged (cfg : Config) (n : Uuid) (node : NodeRecord) (w u : World) : Prop where
  sound : Sound cfg u
  now : w.now ≤ u.now
  lookup : ∃ size, u.nodes.lookup n = some { node with size := size }
    ∧ (u.stagingOf n ≠ [] ∨ node.kind ≠ .file → size = node.size)
  current : ∀ c version, node.currentVersionId = some c → w.versions.lookup c = some version →
    u.rowsOf c = w.rowsOf c ∧ ∃ base, u.versions.lookup c = some { version with baseVersionId := base }
  objects : ∀ o ∈ currentObjects w node, u.objects.lookup o = w.objects.lookup o
  staging : ∀ x ∈ u.stagingOf n, (∃ old ∈ w.stagingOf n, ∃ base, x = { old with baseVersionId := base })
    ∧ (u.rowsOf x.id).Sublist (w.rowsOf x.id)
  kept : ∀ x ∈ w.stagingOf n, ∀ row ∈ w.rowsOf x.id, row.objectId ∈ currentObjects w node →
    row ∈ u.rowsOf x.id ∧ ∃ base, { x with baseVersionId := base } ∈ u.stagingOf n

variable {cfg : Config} {n : Uuid} {node : NodeRecord} {w u : World}

theorem Aged.refl (hw : Sound cfg w) (hnode : w.nodes.lookup n = some node) : Aged cfg n node w w where
  sound := hw
  now := le_rfl
  lookup := ⟨node.size, hnode, fun _ => rfl⟩
  current _ version _ hv := ⟨rfl, version.baseVersionId, hv⟩
  objects _ _ := rfl
  staging x hx := ⟨⟨x, hx, x.baseVersionId, rfl⟩, List.Sublist.refl _⟩
  kept x hx _ hrow _ := ⟨hrow, x.baseVersionId, hx⟩

theorem Aged.currentObjects_eq (h : Aged cfg n node w u) (hw : Consistent cfg w)
    (hnode : w.nodes.lookup n = some node) (size : ℤ) :
    currentObjects u { node with size := size } = currentObjects w node := by
  unfold currentObjects
  cases hcur : node.currentVersionId with
  | none => rfl
  | some c =>
    obtain ⟨version, hv, -⟩ := hw.current hnode hcur
    exact congrArg _ (h.current c version hcur hv).1

theorem Aged.trans {t : World} {size : ℤ} (hw : Consistent cfg w) (hnode : w.nodes.lookup n = some node)
    (h : Aged cfg n node w u) (hu : u.nodes.lookup n = some { node with size := size })
    (h' : Aged cfg n { node with size := size } u t) : Aged cfg n node w t := by
  have hobjects := h.currentObjects_eq hw hnode size
  refine ⟨h'.sound, h.now.trans h'.now, ?_, ?_, ?_, ?_, ?_⟩
  · obtain ⟨size', hlook, hsame'⟩ := h'.lookup
    refine ⟨size', hlook, fun hne => ?_⟩
    obtain ⟨size'', hlook', hsame⟩ := h.lookup
    have hu' : u.stagingOf n ≠ [] ∨ node.kind ≠ .file := by
      refine hne.imp_left fun hne => ?_
      obtain ⟨x, hx⟩ := List.exists_mem_of_ne_nil _ hne
      obtain ⟨⟨old, hold, -⟩, -⟩ := h'.staging x hx
      exact List.ne_nil_of_mem hold
    have hsize : size = size'' := by
      have := hu.symm.trans hlook'
      simp only [Option.some.injEq, NodeRecord.mk.injEq] at this
      exact this.2.2.2.2.2.2.2.1
    rw [hsame' hne, ← hsame hu', hsize]
  · intro c version hc hv
    obtain ⟨hrows, base, hlook⟩ := h.current c version hc hv
    obtain ⟨hrows', base', hlook'⟩ := h'.current c _ hc hlook
    exact ⟨hrows'.trans hrows, base', hlook'⟩
  · intro o ho
    rw [h'.objects o (hobjects ▸ ho), h.objects o ho]
  · intro x hx
    obtain ⟨⟨mid, hmid, base, rfl⟩, hsub⟩ := h'.staging x hx
    obtain ⟨⟨old, hold, base', rfl⟩, hsub'⟩ := h.staging mid hmid
    exact ⟨⟨old, hold, base, rfl⟩, hsub.trans hsub'⟩
  · intro x hx row hrow ho
    obtain ⟨hrow', base, hmem⟩ := h.kept x hx row hrow ho
    obtain ⟨hrow'', base', hmem'⟩ := h'.kept _ hmem row hrow' (hobjects ▸ ho)
    exact ⟨hrow'', base', hmem'⟩

theorem currentObjects_not_picked (hw : Consistent cfg w) (hnode : w.nodes.lookup n = some node) {o : Uuid}
    (ho : o ∈ currentObjects w node) (cutoff : Time) : o ∉ picked cfg w cutoff := by
  intro hpicked
  unfold currentObjects at ho
  cases hcur : node.currentVersionId with
  | none =>
    rw [hcur] at ho
    cases ho
  | some c =>
    rw [hcur] at ho
    obtain ⟨row, hrow, rfl⟩ := List.mem_map.mp ho
    exact current_not_collectable hw.orderly hnode hcur hrow cfg.backend cutoff (mem_picked hpicked)

def afterSweep (cfg : Config) (cutoff : Time) (mid : World) : World :=
  { tidied cfg cutoff mid with sweeping := false }

section step

variable {taken : List Uuid} {mid : World} {cutoff : Time}

theorem rowsOf_afterSweep (v : Uuid) : (afterSweep cfg cutoff mid).rowsOf v =
    if v ∈ mid.doomedVersions cfg.backend cutoff then [] else mid.rowsOf v := by
  change (((tidied cfg cutoff mid).chunks.lookup v).getD []) = _
  rw [tidied_chunks, lookup_purged_chunks, World.rowsOf]
  split_ifs <;> rfl

theorem stagingOf_afterSweep (m : Uuid) :
    (afterSweep cfg cutoff mid).stagingOf m = (purged cfg mid cutoff).stagingOf m :=
  stagingOf_congr (tidied_versions cfg mid cutoff) m

theorem afterSweep_sound (hmid : Consistent cfg mid) : Sound cfg (afterSweep cfg cutoff mid) := by
  have htidied := tidied_consistent cutoff hmid
  exact ⟨htidied.of_nodes rfl rfl rfl rfl le_rfl htidied.node (fun h hc => ⟨_, h, hc⟩), rfl⟩

variable (cutoff) in
theorem lookup_afterSweep (hmid : Consistent cfg mid) (hnode : mid.nodes.lookup n = some node) :
    ∃ size, (afterSweep cfg cutoff mid).nodes.lookup n = some { node with size := size }
      ∧ ((afterSweep cfg cutoff mid).stagingOf n ≠ [] ∨ node.kind ≠ .file → size = node.size)
      ∧ (node.kind = .file → (afterSweep cfg cutoff mid).stagingOf n = [] →
        size = (purged cfg mid cutoff).committedSize node) := by
  have hlook : (afterSweep cfg cutoff mid).nodes.lookup n = some ((purged cfg mid cutoff).reconciled node) := by
    change (tidied cfg cutoff mid).nodes.lookup n = _
    rw [lookup_tidied, hnode, Option.map_some]
  have hstaging : (purged cfg mid cutoff).stagingOf node.id = (purged cfg mid cutoff).stagingOf n := by
    rw [(hmid.node hnode).id_eq]
  rw [hlook, stagingOf_afterSweep]
  unfold World.reconciled
  rw [hstaging]
  split_ifs with h
  · refine ⟨_, rfl, fun hne => ?_, fun _ _ => rfl⟩
    rcases hne with hne | hkind
    · simp [hne] at h
    · simp [hkind] at h
  · refine ⟨node.size, rfl, fun _ => rfl, fun hkind hnil => ?_⟩
    simp [hkind, hnil] at h

theorem committedSize_purged (hmid : Consistent cfg mid) (hnode : mid.nodes.lookup n = some node) :
    (purged cfg mid cutoff).committedSize node = mid.committedSize node := by
  unfold World.committedSize
  cases hcur : node.currentVersionId with
  | none => rfl
  | some c =>
    obtain ⟨version, hv, -⟩ := hmid.current hnode hcur
    have hkept := not_isDoomed hmid.orderly cfg.backend cutoff hnode hcur hv
    obtain ⟨base, hbase⟩ := lookup_purged_of_kept hmid.orderly hv hkept
    simp [hv, hbase]

theorem aged_step (hw : Sound cfg w) (hnode : w.nodes.lookup n = some node) (hswept : Swept taken w mid)
    (htaken : ∀ o ∈ taken, o ∉ currentObjects w node) :
    Aged cfg n node w (afterSweep cfg cutoff mid) := by
  have hmid := hswept.consistent hw.consistent
  have hkeep : ∀ {v row}, row ∈ w.rowsOf v → row.objectId ∈ currentObjects w node → row ∈ mid.rowsOf v := by
    intro v row hrow ho
    rw [hswept.rowsOf]
    exact List.mem_filter.mpr ⟨hrow, by simpa using fun hmem => htaken _ hmem ho⟩
  refine ⟨afterSweep_sound hmid, hswept.now.trans (tidied_now cfg mid cutoff), ?_, ?_, ?_, ?_, ?_⟩
  · obtain ⟨size, hlook, hsame, -⟩ := lookup_afterSweep cutoff hmid (hswept.nodes ▸ hnode)
    exact ⟨size, hlook, hsame⟩
  · intro c version hc hv
    have hvm : mid.versions.lookup c = some version := hswept.versions ▸ hv
    have hdoomed := not_isDoomed hmid.orderly cfg.backend cutoff (hswept.nodes ▸ hnode) hc hvm
    have hmem := mt (mem_doomedVersions hmid.orderly cfg.backend cutoff hvm).mp (Bool.eq_false_iff.mp hdoomed)
    refine ⟨?_, ?_⟩
    · rw [rowsOf_afterSweep, if_neg hmem, hswept.rowsOf, List.filter_eq_self]
      intro row hrow
      have ho : row.objectId ∈ currentObjects w node := by
        unfold currentObjects
        rw [hc]
        exact List.mem_map_of_mem hrow
      simpa using fun hmem => htaken _ hmem ho
    · obtain ⟨base, hbase⟩ := lookup_purged_of_kept hmid.orderly hvm hdoomed
      refine ⟨base, ?_⟩
      change (tidied cfg cutoff mid).versions.lookup c = _
      rw [tidied_versions, hbase]
  · intro o ho
    change (tidied cfg cutoff mid).objects.lookup o = _
    rw [tidied_objects, hswept.objects o fun hmem => htaken o hmem ho]
  · intro x hx
    rw [stagingOf_afterSweep] at hx
    obtain ⟨⟨id, hid⟩, hn, hs⟩ := mem_stagingOf.mp hx
    obtain ⟨old, base, hold, -, rfl⟩ := lookup_purged_some hmid.orderly hid
    refine ⟨⟨old, mem_stagingOf.mpr ⟨⟨id, hswept.versions ▸ hold⟩, hn, hs⟩, base, rfl⟩, ?_⟩
    rw [rowsOf_afterSweep]
    split_ifs
    · exact List.nil_sublist _
    · rw [hswept.rowsOf]
      exact List.filter_sublist
  · intro x hx row hrow ho
    obtain ⟨⟨id, hid⟩, hn, hs⟩ := mem_stagingOf.mp hx
    have hidm : mid.versions.lookup id = some x := hswept.versions ▸ hid
    have hrowm := hkeep hrow ho
    have hdoomed : mid.isDoomed cfg.backend cutoff x = false := by
      have hne : (mid.rowsOf x.id).isEmpty = false := List.isEmpty_eq_false_iff.mpr (List.ne_nil_of_mem hrowm)
      simp [World.isDoomed, hne]
    have hidx := (hmid.version hidm).id_eq
    have hmem := mt (mem_doomedVersions hmid.orderly cfg.backend cutoff hidm).mp (Bool.eq_false_iff.mp hdoomed)
    obtain ⟨base, hbase⟩ := lookup_purged_of_kept hmid.orderly hidm hdoomed
    refine ⟨?_, base, ?_⟩
    · rwa [rowsOf_afterSweep, if_neg (hidx ▸ hmem)]
    · rw [stagingOf_afterSweep]
      exact mem_stagingOf.mpr ⟨⟨id, hbase⟩, hn, hs⟩

end step

theorem aged_collectOnce (hw : Sound cfg w) (hnode : w.nodes.lookup n = some node) (faults : Faults)
    (retention : ℕ) : Aged cfg n node w (w.after cfg faults (.collectOnce retention)) := by
  obtain ⟨report, mid, taken, hexec, hswept, hsub, -⟩ := exec_collectOnce cfg faults hw.sweeping retention
  change Aged cfg n node w (exec cfg faults (collectOnce retention) w).2
  rw [hexec]
  exact aged_step hw hnode hswept fun o ho hcur =>
    currentObjects_not_picked hw.consistent hnode hcur _ (hsub.subset ho)

variable (cfg) in
theorem collectOnce_size (hw : Sound cfg w) (hnode : w.nodes.lookup n = some node) (hkind : node.kind = .file)
    (faults : Faults) (retention : ℕ) :
    ∃ size, (w.after cfg faults (.collectOnce retention)).nodes.lookup n = some { node with size := size }
      ∧ size = if (w.after cfg faults (.collectOnce retention)).stagingOf n = [] then w.committedSize node
        else node.size := by
  obtain ⟨report, mid, taken, hexec, hswept, -⟩ := exec_collectOnce cfg faults hw.sweeping retention
  have hafter : w.after cfg faults (.collectOnce retention) = afterSweep cfg (w.now - retention) mid :=
    congrArg Prod.snd hexec
  have hmid := hswept.consistent hw.consistent
  have hnodem : mid.nodes.lookup n = some node := hswept.nodes ▸ hnode
  obtain ⟨size, hlook, hsame, hsize⟩ := lookup_afterSweep (w.now - retention) hmid hnodem
  rw [hafter]
  refine ⟨size, hlook, ?_⟩
  split_ifs with hnil
  · rw [hsize hkind hnil, committedSize_purged hmid hnodem, World.committedSize, hswept.versions, World.committedSize]
  · exact hsame (.inl hnil)

end Dcfs
