import Dcfs.State.Forget

namespace Dcfs

open Machine Tables World Exec

variable {cfg : Config} {w u : World}

def picked (cfg : Config) (w : World) (cutoff : Time) : List Uuid :=
  (cfg.arrange (w.collectable cfg.backend cutoff)).take batch

theorem collectableObjects_batch (cutoff : Time) :
    w.collectableObjects cfg.backend cfg.arrange cutoff batch = .ok (picked cfg w cutoff) := by
  unfold World.collectableObjects picked
  cases cfg.backend <;> rfl

theorem mem_collectableObjects {cutoff : Time} {limit : ℤ} {ids : List Uuid} {o : Uuid}
    (h : w.collectableObjects cfg.backend cfg.arrange cutoff limit = .ok ids) (ho : o ∈ ids) :
    o ∈ w.collectable cfg.backend cutoff := by
  refine (cfg.arrange_perm _).mem_iff.mp ?_
  unfold World.collectableObjects at h
  split at h
  · cases h
    exact List.mem_of_mem_take ho
  · split_ifs at h
    cases h
    exact List.mem_of_mem_take ho

theorem referenced_of_row {v : Uuid} {row : FileChunkRecord} (hrow : row ∈ w.rowsOf v) :
    row.objectId ∈ w.referencedObjects := by
  cases hrows : w.chunks.lookup v with
  | none => simp [World.rowsOf, hrows] at hrow
  | some rows =>
    rw [World.rowsOf, hrows] at hrow
    exact List.mem_flatMap.mpr ⟨rows, mem_values.mpr ⟨v, hrows⟩, List.mem_map_of_mem hrow⟩

theorem mem_objectsIn {versions : List FileVersionRecord} {o : Uuid} :
    o ∈ w.objectsIn versions ↔ ∃ version ∈ versions, ∃ row ∈ w.rowsOf version.id, row.objectId = o := by
  simp [World.objectsIn]

theorem mem_deadObjects {cutoff : Time} {o : Uuid} : o ∈ w.deadObjects cutoff ↔
    o ∈ w.objectsIn (w.deadVersions cutoff) ∧ o ∉ w.objectsIn (w.liveVersions cutoff) := by
  simp [World.deadObjects]

theorem mem_unreferencedObjects {cutoff : Time} {o : Uuid} (h : o ∈ w.unreferencedObjects cutoff) :
    o ∈ w.storedObjects.keys ∧ o ∉ w.referencedObjects := by
  rw [World.unreferencedObjects, AList.mem_keys.symm, ← AList.lookup_isSome, lookup_keep] at h
  obtain ⟨createdAt, hsome⟩ := Option.isSome_iff_exists.mp h
  obtain ⟨hlook, hp⟩ := Option.filter_eq_some_iff.mp hsome
  refine ⟨?_, by simpa using (Bool.and_eq_true_iff.mp hp).2⟩
  rw [← AList.mem_keys, ← AList.lookup_isSome, hlook]
  rfl

theorem mem_collectable {b : Backend} {cutoff : Time} {o : Uuid} (h : o ∈ w.collectable b cutoff) :
    o ∈ w.deadObjects cutoff ∨ b = .postgres ∧ o ∈ w.unreferencedObjects cutoff := by
  cases b with
  | memory => exact .inl h
  | postgres => exact (List.mem_append.mp h).imp (fun h => h) fun h => ⟨rfl, h⟩

theorem mem_picked {cutoff : Time} {o : Uuid} (h : o ∈ picked cfg w cutoff) :
    o ∈ w.collectable cfg.backend cutoff :=
  (cfg.arrange_perm _).mem_iff.mp (List.mem_of_mem_take h)

theorem current_not_collectable (hw : Orderly w) {n c : Uuid} {node : NodeRecord} {row : FileChunkRecord}
    (hnode : w.nodes.lookup n = some node) (hcur : node.currentVersionId = some c) (hrow : row ∈ w.rowsOf c)
    (b : Backend) (cutoff : Time) : row.objectId ∉ w.collectable b cutoff := by
  intro hmem
  obtain ⟨version, hv, hn, -⟩ := hw.current hnode hcur
  have hid := (hw.ids hv).1
  have hlive : w.isLive cutoff version = true := by
    rw [World.isLive, isCurrent_eq (hn ▸ hnode), hcur, hid]
    simp
  rcases mem_collectable hmem with hdead | ⟨-, hloose⟩
  · refine (mem_deadObjects.mp hdead).2 (mem_objectsIn.mpr ⟨version, ?_, row, hid ▸ hrow, rfl⟩)
    exact List.mem_filter.mpr ⟨mem_values.mpr ⟨c, hv⟩, hlive⟩
  · exact (mem_unreferencedObjects hloose).2 (referenced_of_row hrow)

theorem named_of_picked {cutoff : Time} {o : Uuid} (h : o ∈ picked cfg w cutoff) :
    Named cfg.backend w o := by
  rcases mem_collectable (mem_picked h) with hdead | ⟨hb, hloose⟩
  · obtain ⟨version, -, row, hrow, rfl⟩ := mem_objectsIn.mp (mem_deadObjects.mp hdead).1
    exact .inl (referenced_of_row hrow)
  · exact .inr ⟨hb, (mem_unreferencedObjects hloose).1⟩

def tidied (cfg : Config) (cutoff : Time) (w : World) : World :=
  let cleared := ((purged cfg w cutoff).purgeDeletedNodes cfg.backend cutoff).2
  resized (cleared.tick.purgeExpiredSessions cleared.now).2

theorem purgeDeletedNodes_ok (b : Backend) (cutoff : Time) :
    ∃ count, w.purgeDeletedNodes b cutoff = (.ok count, (w.purgeDeletedNodes b cutoff).2) := by
  cases b <;> exact ⟨_, rfl⟩

variable (cfg) in
theorem exec_sweepLocked (faults : Faults) (w : World) (retention : ℕ) :
    ∃ report mid taken, exec cfg faults (sweepLocked retention) w =
        (.ok report, tidied cfg (w.now - retention) mid)
      ∧ Swept taken w mid ∧ taken.Sublist (picked cfg w (w.now - retention))
      ∧ ((∀ t o, faults t o = none) → taken = picked cfg w (w.now - retention)
        ∧ (∀ o ∈ taken, mid.objects.lookup o = none)
        ∧ (picked cfg w (w.now - retention) ≠ [] → weight mid < weight w)) := by
  obtain ⟨report, mid, taken, hexec, hswept, hsub, hall⟩ :=
    exec_collectObjects cfg faults (picked cfg w (w.now - retention)) .empty w.tick
  obtain ⟨count, hcount⟩ := purgeDeletedNodes_ok (w := purged cfg mid (w.now - retention)) cfg.backend
    (w.now - retention)
  have hrun : ∃ report', exec cfg faults (sweepLocked retention) w =
      (.ok report', tidied cfg (w.now - retention) mid) := by
    rw [sweepLocked, exec_sweepAsk]
    change ∃ report', exec cfg faults (Sweep.ask (.query (.collectableObjects (w.now - retention) batch)) >>= _)
      w.tick = _
    rw [exec_sweepAsk]
    simp only [perform, answer, collectableObjects_batch]
    change ∃ report', exec cfg faults (collectObjects (picked cfg w (w.now - retention)) .empty >>= _) w.tick
      = _
    rw [exec_bind_ok hexec, exec_sweepAsk]
    change ∃ report', exec cfg faults (Sweep.ask (.purgeDeletedNodes (w.now - retention)) >>= _)
      (purged cfg mid (w.now - retention)) = _
    rw [exec_sweepAsk]
    simp only [perform]
    rw [hcount]
    exact ⟨_, rfl⟩
  obtain ⟨report', hrun⟩ := hrun
  refine ⟨report', mid, taken, hrun, swept_tick.trans hswept, hsub, fun h => ⟨(hall h).1, ?_, fun hne => ?_⟩⟩
  · rw [(hall h).1]
    exact (hall h).2.1
  obtain ⟨o, rest, hpicked⟩ := List.exists_cons_of_ne_nil hne
  have hmem : o ∈ picked cfg w (w.now - retention) := hpicked ▸ List.mem_cons_self
  have hnamed : Named cfg.backend w o := named_of_picked hmem
  exact (hall h).2.2 o (by rw [hpicked]; rfl) hnamed

theorem purgeNodes_idle (cutoff : Time) (b : Backend) : Swept [] w (w.purgeDeletedNodes b cutoff).2 := by
  cases b <;> exact .of_idle rfl rfl rfl rfl rfl rfl le_rfl

section tidied

variable (cfg w) (cutoff : Time)

theorem tidied_versions : (tidied cfg cutoff w).versions = (purged cfg w cutoff).versions := by
  unfold tidied World.purgeDeletedNodes
  split <;> rfl

theorem tidied_chunks : (tidied cfg cutoff w).chunks = (purged cfg w cutoff).chunks := by
  unfold tidied World.purgeDeletedNodes
  split <;> rfl

theorem tidied_objects : (tidied cfg cutoff w).objects = w.objects := by
  unfold tidied World.purgeDeletedNodes
  split <;> rfl

theorem tidied_now : w.now ≤ (tidied cfg cutoff w).now := by
  unfold tidied World.purgeDeletedNodes
  split <;> exact Int.le.intro 1 rfl

theorem lookup_tidied (n : Uuid) :
    (tidied cfg cutoff w).nodes.lookup n = (w.nodes.lookup n).map (purged cfg w cutoff).reconciled := by
  unfold tidied World.purgeDeletedNodes
  split <;> exact lookup_resized n

theorem weight_tidied : weight (tidied cfg cutoff w) ≤ weight w := by
  have hrows : (purged cfg w cutoff).referencedObjects.length ≤ w.referencedObjects.length := by
    simp only [purged, World.purgeEmptyDeadVersions, World.referencedObjects, values, keep]
    exact ((List.filter_sublist.map _).flatMap _).length_le
  have hstored : (tidied cfg cutoff w).storedObjects = w.storedObjects := by
    unfold tidied World.purgeDeletedNodes
    split <;> rfl
  have hreferenced : (tidied cfg cutoff w).referencedObjects = (purged cfg w cutoff).referencedObjects := by
    rw [World.referencedObjects, tidied_chunks, World.referencedObjects]
  rw [weight, hreferenced, hstored, weight]
  exact Nat.add_le_add_right hrows _

variable {cfg w}

theorem tidied_consistent (hw : Consistent cfg w) : Consistent cfg (tidied cfg cutoff w) := by
  have hlate : ∃ late, Swept [] (purged cfg w cutoff) late ∧ tidied cfg cutoff w = resized late := by
    refine ⟨_, ?_, rfl⟩
    exact (purgeNodes_idle cutoff cfg.backend).trans (.of_idle rfl rfl rfl rfl rfl rfl (Int.le.intro 1 rfl))
  obtain ⟨late, hlate, heq⟩ := hlate
  rw [heq]
  exact resized_consistent (hlate.consistent (purged_consistent hw cutoff))

end tidied

theorem exec_collectOnce_taken (faults : Faults) (retention : ℕ)
    (h : (perform cfg faults w .tryLockGc).1 = true) :
    exec cfg faults (collectOnce retention) w =
      let swept := exec cfg faults (sweepLocked retention) (perform cfg faults w .tryLockGc).2
      (swept.1, { swept.2 with sweeping := false }) := by
  change Effects.Program.run (handle cfg faults) (if (perform cfg faults w .tryLockGc).1 = true then do
        let result ← (sweepLocked retention).run
        Effects.Program.ask (I := Api) .unlockGc
        pure result
      else pure (.ok .empty)) (perform cfg faults w .tryLockGc).2 = _
  rw [if_pos h, Effects.Program.run_bind]
  rfl

variable (cfg) in
theorem perform_tryLockGc (faults : Faults) (hs : w.sweeping = false) :
    (perform cfg faults w .tryLockGc).1 = true ∧ Swept [] w (perform cfg faults w .tryLockGc).2
      ∧ (perform cfg faults w .tryLockGc).2.now = w.now
      ∧ ∀ cutoff, picked cfg (perform cfg faults w .tryLockGc).2 cutoff = picked cfg w cutoff := by
  simp only [perform]
  cases cfg.backend with
  | memory => exact ⟨rfl, .of_idle rfl rfl rfl rfl rfl rfl le_rfl, rfl, fun _ => rfl⟩
  | postgres => exact ⟨by simp [hs], .of_idle rfl rfl rfl rfl rfl rfl le_rfl, rfl, fun _ => rfl⟩

variable (cfg) in
theorem exec_collectOnce (faults : Faults) (hs : w.sweeping = false) (retention : ℕ) :
    ∃ report mid taken, exec cfg faults (collectOnce retention) w =
        (.ok report, { tidied cfg (w.now - retention) mid with sweeping := false })
      ∧ Swept taken w mid ∧ taken.Sublist (picked cfg w (w.now - retention))
      ∧ ((∀ t o, faults t o = none) → taken = picked cfg w (w.now - retention)
        ∧ (∀ o ∈ taken, mid.objects.lookup o = none)
        ∧ (picked cfg w (w.now - retention) ≠ [] → weight mid < weight w)) := by
  obtain ⟨htaken, hlocked, hnow, hpicked⟩ := perform_tryLockGc cfg faults hs
  obtain ⟨report, mid, taken, hexec, hswept, hsub, hall⟩ :=
    exec_sweepLocked cfg faults (perform cfg faults w .tryLockGc).2 retention
  rw [hnow, hpicked] at hsub hall
  refine ⟨report, mid, taken, ?_, hlocked.trans hswept, hsub, fun h => ⟨(hall h).1, (hall h).2.1, fun hne =>
    ((hall h).2.2 hne).trans_le hlocked.weight_le⟩⟩
  rw [exec_collectOnce_taken faults retention htaken, hexec, hnow]

end Dcfs
