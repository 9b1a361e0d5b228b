import Dcfs.File.Aged
import Dcfs.Library.Ranking

namespace Dcfs

open Machine Tables World Exec

variable {cfg : Config} {n : Uuid} {node : NodeRecord} {w u : World} {cutoff : Time}

def Expired (w : World) (n : Uuid) (cutoff : Time) : Prop := ∀ x ∈ w.stagingOf n, x.createdAt < cutoff

def Drained (w : World) (n : Uuid) (shared : List Uuid) : Prop :=
  ∀ x ∈ w.stagingOf n, ∀ row ∈ w.rowsOf x.id, row.objectId ∈ shared

theorem lastActive_of_staging (hw : Consistent cfg w) {x : FileVersionRecord} (hx : x ∈ w.stagingOf n) :
    x.lastActive = x.createdAt := by
  obtain ⟨⟨id, hid⟩, -, hs⟩ := mem_stagingOf.mp hx
  rw [FileVersionRecord.lastActive, (hw.version hid).staged.mp hs]
  rfl

theorem not_current_of_staging (hw : Consistent cfg w) {x : FileVersionRecord} (hx : x ∈ w.stagingOf n)
    {m : Uuid} {other : NodeRecord} (hm : w.nodes.lookup m = some other) :
    other.currentVersionId ≠ some x.id := by
  intro hc
  obtain ⟨⟨id, hid⟩, -, hs⟩ := mem_stagingOf.mp hx
  obtain ⟨version, hv, -, hcommitted⟩ := hw.current hm hc
  rw [(hw.version hid).id_eq, hid] at hv
  cases hv
  cases hs.symm.trans hcommitted

theorem isCurrent_of_staging (hw : Consistent cfg w) {x : FileVersionRecord} (hx : x ∈ w.stagingOf n) :
    w.isCurrent x = false := by
  unfold World.isCurrent
  cases hnode : w.nodes.lookup x.nodeId with
  | none => rfl
  | some other => simpa using not_current_of_staging hw hx hnode

theorem isNamed_of_staging (hw : Consistent cfg w) {x : FileVersionRecord} (hx : x ∈ w.stagingOf n)
    (b : Backend) : w.isNamed b x = false := by
  cases b with
  | memory => exact isCurrent_of_staging hw hx
  | postgres =>
    rw [World.isNamed, List.any_eq_false]
    intro other hother
    obtain ⟨m, hm⟩ := mem_values.mp hother
    simpa using not_current_of_staging hw hx hm

theorem doomed_of_empty (hw : Consistent cfg w) (hold : Expired w n cutoff) {x : FileVersionRecord}
    (hx : x ∈ w.stagingOf n) (hempty : w.rowsOf x.id = []) (b : Backend) :
    w.isDoomed b cutoff x = true := by
  simp [World.isDoomed, lastActive_of_staging hw hx, hold x hx, isNamed_of_staging hw hx, hempty]

theorem same_file (hw : Consistent cfg w) {v v' : Uuid} {version version' : FileVersionRecord}
    (hv : w.versions.lookup v = some version) (hv' : w.versions.lookup v' = some version')
    {row row' : FileChunkRecord} (hrow : row ∈ w.rowsOf v) (hrow' : row' ∈ w.rowsOf v')
    (ho : row.objectId = row'.objectId) : version.nodeId = version'.nodeId := by
  obtain ⟨plaintext, hp⟩ := (hw.rows_ok hv).sealed row hrow
  obtain ⟨plaintext', hp'⟩ := (hw.rows_ok hv').sealed row' hrow'
  have hsame := hp.stored.symm.trans (ho ▸ hp'.stored)
  simp only [Option.some.injEq, StoredObject.mk.injEq] at hsame
  exact hsame.2

theorem dead_of_loose (hw : Consistent cfg w) (hnode : w.nodes.lookup n = some node)
    (hold : Expired w n cutoff) {x : FileVersionRecord} (hx : x ∈ w.stagingOf n) {row : FileChunkRecord}
    (hrow : row ∈ w.rowsOf x.id) (hloose : row.objectId ∉ currentObjects w node) :
    row.objectId ∈ w.deadObjects cutoff := by
  obtain ⟨⟨id, hid⟩, hn, hs⟩ := mem_stagingOf.mp hx
  have hidx := (hw.version hid).id_eq
  refine mem_deadObjects.mpr ⟨mem_objectsIn.mpr ⟨x, ?_, row, hrow, rfl⟩, fun hlive => hloose ?_⟩
  · refine List.mem_filter.mpr ⟨mem_values.mpr ⟨id, hid⟩, ?_⟩
    have hlate : ¬cutoff ≤ x.createdAt := not_le.mpr (hold x hx)
    simp [World.isLive, isCurrent_of_staging hw hx, lastActive_of_staging hw hx, hold x hx, hlate]
  · obtain ⟨y, hy, row', hrow', ho⟩ := mem_objectsIn.mp hlive
    obtain ⟨hmem, hylive⟩ := List.mem_filter.mp hy
    obtain ⟨idy, hidy⟩ := mem_values.mp hmem
    have hidy' := (hw.version hidy).id_eq
    have hny : y.nodeId = n := (same_file hw hidy hid (hidy' ▸ hrow') (hidx ▸ hrow) ho).trans hn
    rcases Bool.or_eq_true_iff.mp hylive with hopen | hcurrent
    · simp only [Bool.and_eq_true, beq_iff_eq, decide_eq_true_eq] at hopen
      exact absurd (hold y (mem_stagingOf.mpr ⟨⟨idy, hidy⟩, hny, hopen.1⟩)) (not_lt.mpr hopen.2)
    · rw [isCurrent_eq (hny.symm ▸ hnode), beq_iff_eq] at hcurrent
      rw [currentObjects, hcurrent, ← ho]
      exact List.mem_map_of_mem hrow'

theorem picked_ne_nil (h : w.collectable cfg.backend cutoff ≠ []) : picked cfg w cutoff ≠ [] := by
  intro hnil
  rcases List.take_eq_nil_iff.mp hnil with hbatch | harrange
  · exact absurd hbatch (by decide)
  · exact h (List.Perm.nil_eq (harrange ▸ cfg.arrange_perm _)).symm

theorem collectable_of_dead {o : Uuid} (h : o ∈ w.deadObjects cutoff) (b : Backend) :
    o ∈ w.collectable b cutoff := by
  cases b with
  | memory => exact h
  | postgres => exact List.mem_append_left _ h

theorem exec_sweep (hw : Sound cfg w) (retention : ℕ) :
    ∃ mid, w.after cfg noFaults (.collectOnce retention) = afterSweep cfg (w.now - retention) mid
      ∧ Swept (picked cfg w (w.now - retention)) w mid
      ∧ (∀ o ∈ picked cfg w (w.now - retention), mid.objects.lookup o = none)
      ∧ (picked cfg w (w.now - retention) ≠ [] → weight mid < weight w) := by
  obtain ⟨report, mid, taken, hexec, hswept, -, hall⟩ := exec_collectOnce cfg noFaults hw.sweeping retention
  obtain ⟨rfl, hgone, hweight⟩ := hall fun _ _ => rfl
  exact ⟨mid, congrArg Prod.snd hexec, hswept, hgone, hweight⟩

theorem weight_afterSweep (mid : World) : weight (afterSweep cfg cutoff mid) ≤ weight mid :=
  weight_tidied cfg mid cutoff

theorem weight_sweep_lt (hw : Sound cfg w) (hnode : w.nodes.lookup n = some node) {retention : ℕ}
    (hold : Expired w n (w.now - retention)) (h : ¬Drained w n (currentObjects w node)) :
    weight (w.after cfg noFaults (.collectOnce retention)) < weight w := by
  unfold Drained at h
  push Not at h
  obtain ⟨x, hx, row, hrow, hloose⟩ := h
  have hdead := dead_of_loose hw.consistent hnode hold hx hrow hloose
  obtain ⟨mid, hafter, -, -, hweight⟩ := exec_sweep hw retention
  rw [hafter]
  exact (weight_afterSweep mid).trans_lt
    (hweight (picked_ne_nil (List.ne_nil_of_mem (collectable_of_dead hdead _))))

theorem sweep_purges (hw : Sound cfg w) (hnode : w.nodes.lookup n = some node) {retention : ℕ}
    (hold : Expired w n (w.now - retention)) :
    (∀ x ∈ (w.after cfg noFaults (.collectOnce retention)).stagingOf n,
        (w.after cfg noFaults (.collectOnce retention)).rowsOf x.id ≠ [])
      ∧ (node.kind = .file → (w.after cfg noFaults (.collectOnce retention)).stagingOf n = [] →
        ((w.after cfg noFaults (.collectOnce retention)).nodes.lookup n).map NodeRecord.size =
          some (w.committedSize node)) := by
  obtain ⟨mid, hafter, hswept, -⟩ := exec_sweep hw retention
  rw [hafter]
  have hmid := hswept.consistent hw.consistent
  have hnodem : mid.nodes.lookup n = some node := hswept.nodes ▸ hnode
  have holdm : Expired mid n (w.now - retention) := by
    unfold Expired
    rwa [stagingOf_congr hswept.versions]
  refine ⟨fun x hx hempty => ?_, fun hkind hnil => ?_⟩
  · rw [stagingOf_afterSweep] at hx
    obtain ⟨⟨id, hid⟩, hn, hs⟩ := mem_stagingOf.mp hx
    obtain ⟨old, base, hv, hdoomed, rfl⟩ := lookup_purged_some hmid.orderly hid
    have hmem := mt (mem_doomedVersions hmid.orderly cfg.backend _ hv).mp (Bool.eq_false_iff.mp hdoomed)
    rw [rowsOf_afterSweep, show FileVersionRecord.id { old with baseVersionId := base } = id from
      (hmid.version hv).id_eq, if_neg hmem] at hempty
    have hdead := doomed_of_empty hmid holdm (mem_stagingOf.mpr ⟨⟨id, hv⟩, hn, hs⟩)
      ((hmid.version hv).id_eq.symm ▸ hempty) cfg.backend
    rw [hdead] at hdoomed
    cases hdoomed
  · obtain ⟨size, hlook, -, hsize⟩ := lookup_afterSweep (w.now - retention) hmid hnodem
    rw [hlook, hsize hkind hnil, committedSize_purged hmid hnodem, World.committedSize, hswept.versions,
      World.committedSize]
    rfl

def World.sweeps (cfg : Config) (retention k : ℕ) (w : World) : World :=
  (fun u : World => u.after cfg noFaults (.collectOnce retention))^[k] w

def sharing (w : World) (n : Uuid) (node : NodeRecord) : List FileVersionRecord :=
  (w.stagingOf n).filter fun x => (w.rowsOf x.id).any fun row => (currentObjects w node).contains row.objectId

theorem mem_sharing {x : FileVersionRecord} : x ∈ sharing w n node ↔
    x ∈ w.stagingOf n ∧ ∃ row ∈ w.rowsOf x.id, row.objectId ∈ currentObjects w node := by
  simp [sharing]

/-- `u` is where sweeps of `w` end as far as node `n` goes. -/
structure Ebbed (cfg : Config) (n : Uuid) (node : NodeRecord) (w u : World) : Prop where
  aged : Aged cfg n node w u
  drained : Drained u n (currentObjects w node)
  rows : ∀ x ∈ u.stagingOf n, u.rowsOf x.id ≠ []
  size : node.kind = .file → u.stagingOf n = [] →
    (u.nodes.lookup n).map NodeRecord.size = some (w.committedSize node)

theorem Aged.committedSize_eq (h : Aged cfg n node w u) (hw : Consistent cfg w)
    (hnode : w.nodes.lookup n = some node) (size : ℤ) :
    u.committedSize { node with size := size } = w.committedSize node := by
  unfold World.committedSize
  cases hcur : node.currentVersionId with
  | none => rfl
  | some c =>
    obtain ⟨version, hv, -⟩ := hw.current hnode hcur
    obtain ⟨-, base, hbase⟩ := h.current c version hcur hv
    simp [hv, hbase]

theorem Aged.expired (h : Aged cfg n node w u) {retention : ℕ} (hold : Expired w n (w.now - retention)) :
    Expired u n (u.now - retention) := by
  intro x hx
  obtain ⟨⟨old, hmem, base, rfl⟩, -⟩ := h.staging x hx
  exact (hold old hmem).trans_le (Int.sub_le_sub_right h.now _)

theorem Aged.sweep (hw : Consistent cfg w) (hnode : w.nodes.lookup n = some node) (h : Aged cfg n node w u)
    (retention : ℕ) : Aged cfg n node w (u.after cfg noFaults (.collectOnce retention)) := by
  obtain ⟨size, hlook, -⟩ := h.lookup
  exact h.trans hw hnode hlook (aged_collectOnce h.sound hlook noFaults retention)

theorem Drained.sweep (h : Aged cfg n node w u) (hd : Drained u n (currentObjects w node)) (retention : ℕ) :
    Drained (u.after cfg noFaults (.collectOnce retention)) n (currentObjects w node) := by
  intro x hx row hrow
  obtain ⟨size, hlook, -⟩ := h.lookup
  obtain ⟨⟨old, hold, base, rfl⟩, hsub⟩ := (aged_collectOnce h.sound hlook noFaults retention).staging x hx
  exact hd old hold row (hsub.subset hrow)

theorem Ebbed.of_sweep (hw : Consistent cfg w) (hnode : w.nodes.lookup n = some node) {retention : ℕ}
    (hold : Expired w n (w.now - retention)) (h : Aged cfg n node w u)
    (hd : Drained u n (currentObjects w node)) :
    Ebbed cfg n node w (u.after cfg noFaults (.collectOnce retention)) := by
  obtain ⟨size, hlook, -⟩ := h.lookup
  obtain ⟨hrows, hsize⟩ := sweep_purges h.sound hlook (h.expired hold)
  refine ⟨h.sweep hw hnode retention, hd.sweep h retention, hrows, fun hkind hnil => ?_⟩
  rw [hsize hkind hnil, h.committedSize_eq hw hnode]

theorem ebbed_sweeps (hw : Sound cfg w) (hnode : w.nodes.lookup n = some node) {retention : ℕ}
    (hold : Expired w n (w.now - retention)) {k : ℕ} (hk : weight w + 1 < k) :
    Ebbed cfg n node w (w.sweeps cfg retention k) := by
  have hc := hw.consistent
  obtain ⟨j, rfl⟩ : ∃ j, k = j + 1 := ⟨k - 1, by omega⟩
  have haged : Aged cfg n node w (w.sweeps cfg retention j) :=
    Ranking.iterate_inv _ (Aged cfg n node w) (fun t ht => ht.sweep hc hnode retention) (Aged.refl hw hnode) j
  have hdrained : Drained (w.sweeps cfg retention j) n (currentObjects w node) := by
    refine Ranking.rest_of_rank_lt _ (Aged cfg n node w) (fun t => Drained t n (currentObjects w node)) weight
      (fun t ht => ht.sweep hc hnode retention) (fun t ht hd => hd.sweep ht retention)
      (fun t ht hd => ?_) (Aged.refl hw hnode) (Nat.lt_of_succ_lt_succ hk)
    obtain ⟨size, hlook, -⟩ := ht.lookup
    exact weight_sweep_lt ht.sound hlook (ht.expired hold) (ht.currentObjects_eq hc hnode size ▸ hd)
  rw [World.sweeps, Function.iterate_succ_apply']
  exact .of_sweep hc hnode hold haged hdrained

namespace Ebbed

variable (h : Ebbed cfg n node w u)

include h

theorem shares {x : FileVersionRecord} (hx : x ∈ u.stagingOf n) :
    ∃ old base, old ∈ sharing w n node ∧ x = { old with baseVersionId := base } := by
  obtain ⟨⟨old, hold, base, rfl⟩, hsub⟩ := h.aged.staging x hx
  obtain ⟨row, hrow⟩ := List.exists_mem_of_ne_nil _ (h.rows _ hx)
  exact ⟨old, base, mem_sharing.mpr ⟨hold, row, hsub.subset hrow, h.drained _ hx row hrow⟩, rfl⟩

theorem keeps {x : FileVersionRecord} (hx : x ∈ sharing w n node) :
    ∃ base, { x with baseVersionId := base } ∈ u.stagingOf n := by
  obtain ⟨hmem, row, hrow, ho⟩ := mem_sharing.mp hx
  exact (h.aged.kept x hmem row hrow ho).2

theorem nothing_open (hnone : sharing w n node = []) : u.stagingOf n = [] := by
  refine List.eq_nil_iff_forall_not_mem.mpr fun x hx => ?_
  obtain ⟨old, base, hold, -⟩ := h.shares hx
  rw [hnone] at hold
  cases hold

theorem newest_open {best : FileVersionRecord} (hbest : newest (sharing w n node) = some best) :
    ∃ base, newest (u.stagingOf n) = some { best with baseVersionId := base } := by
  obtain ⟨base, hmem⟩ := h.keeps (newest_mem hbest)
  refine ⟨base, newest_of_max h.aged.sound.consistent hmem fun other hother => ?_⟩
  obtain ⟨old, base', hold, rfl⟩ := h.shares hother
  exact newest_le hbest old hold

theorem mem_rowsOf {best : FileVersionRecord} (hbest : best ∈ sharing w n node) {row : FileChunkRecord} :
    row ∈ u.rowsOf best.id ↔ row ∈ w.rowsOf best.id ∧ row.objectId ∈ currentObjects w node := by
  obtain ⟨base, hmem⟩ := h.keeps hbest
  constructor
  · intro hrow
    exact ⟨(h.aged.staging _ hmem).2.subset hrow, h.drained _ hmem row hrow⟩
  · rintro ⟨hrow, ho⟩
    exact (h.aged.kept best (mem_sharing.mp hbest).1 row hrow ho).1

end Ebbed

end Dcfs
