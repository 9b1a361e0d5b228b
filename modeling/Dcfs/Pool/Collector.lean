import Dcfs.Pool.Run
import Dcfs.Server.Sample

namespace Dcfs

open Effects Tables World

def Memo.Spares (m : Memo) (w : World) : Prop :=
  ∀ n c, w.currentOf n = some c → ∀ row ∈ w.rowsOf c, row.objectId ∉ m.picked

def World.Accepts (w : World) (guard : CommitGuard) : Prop :=
  ∃ node, w.nodes.lookup guard.nodeId = some node ∧ node.generation = guard.expectedGeneration
    ∧ node.currentVersionId = guard.expectedCurrentVersion

instance (w : World) (guard : CommitGuard) : Decidable (w.Accepts guard) :=
  inferInstanceAs (Decidable (∃ node ∈ w.nodes.lookup guard.nodeId, node.generation = guard.expectedGeneration
    ∧ node.currentVersionId = guard.expectedCurrentVersion))

instance (w : World) (v : Uuid) : Decidable (∃ n, w.currentOf n = some v) :=
  decidable_of_iff (∃ node ∈ values w.nodes, node.currentVersionId = some v) <| by
    simp only [currentOf_eq_some, mem_values]
    constructor
    · rintro ⟨node, ⟨n, hnode⟩, hv⟩
      exact ⟨n, node, hnode, hv⟩
    · rintro ⟨n, node, hnode, hv⟩
      exact ⟨node, ⟨n, hnode⟩, hv⟩

/--
The call makes no version current that holds an object which the memo's sweep has picked and is not
done with, and adds no such object to a version that is current.
-/
def Memo.Clear (m : Memo) (w : World) : Call → Prop
  | .commitVersion guard _ _ => w.Accepts guard → ∀ row ∈ w.rowsOf guard.versionId, row.objectId ∉ m.picked
  | .attachChunk row => (∃ n, w.currentOf n = some row.versionId) → row.objectId ∉ m.picked
  | .copyChunkRange source v first last => (∃ n, w.currentOf n = some v) →
      ∀ row ∈ w.rowsBetween source first last, row.objectId ∉ m.picked
  | _ => True

instance (m : Memo) (w : World) : DecidablePred (m.Clear w) := fun c => by
  unfold Memo.Clear
  split <;> infer_instance

def KeepsClear (p : Traffics) (i : ℕ) : Prop :=
  ∀ c, nextCall p i = some c → ∀ thread ∈ p.threads, thread.notes.Clear p.state c

instance (p : Traffics) (i : ℕ) : Decidable (KeepsClear p i) :=
  inferInstanceAs (Decidable (∀ c ∈ nextCall p i, ∀ thread ∈ p.threads, thread.notes.Clear p.state c))

variable {cfg : Config} {faults : Faults} {w t : World}

theorem mem_rowsOf_setRows {v c : Uuid} {rows : List FileChunkRecord} {row : FileChunkRecord}
    (h : row ∈ (w.setRows v rows).rowsOf c) : c = v ∧ row ∈ rows ∨ row ∈ w.rowsOf c := by
  rw [World.rowsOf, World.setRows, lookup_insert] at h
  split_ifs at h with hc
  · exact .inl ⟨hc, h⟩
  · exact .inr h

theorem Effect.row_origin {c : Call} (h : Effect cfg w c t) {n v : Uuid} (hcur : t.currentOf n = some v)
    {row : FileChunkRecord} (hrow : row ∈ t.rowsOf v) :
    (w.currentOf n = some v ∧ row ∈ w.rowsOf v)
      ∨ (∃ guard total hash, c = .commitVersion guard total hash ∧ w.Accepts guard
        ∧ row ∈ w.rowsOf guard.versionId)
      ∨ (c = .attachChunk row ∧ w.currentOf n = some row.versionId)
      ∨ ∃ source first last, c = .copyChunkRange source v first last ∧ w.currentOf n = some v
        ∧ ∃ old ∈ w.rowsBetween source first last, row.objectId = old.objectId := by
  cases h with
  | quiet h =>
    rw [World.rowsOf, h.chunks] at hrow
    exact .inl ⟨h.current n ▸ hcur, hrow⟩
  | staged hnode =>
    rw [currentOf_addVersion hnode] at hcur
    rw [World.rowsOf, World.addVersion, lookup_insert] at hrow
    split_ifs at hrow
    · cases hrow
    · exact .inl ⟨hcur, hrow⟩
  | touched v' size => exact .inl ⟨hcur, hrow⟩
  | attached row' =>
    rcases mem_rowsOf_setRows hrow with ⟨rfl, hmem⟩ | hold
    · rcases Keyed.mem_upsert hmem with rfl | hold
      · exact .inr (.inr (.inl ⟨rfl, hcur⟩))
      · exact .inl ⟨hcur, hold⟩
    · exact .inl ⟨hcur, hold⟩
  | copied source v' first last =>
    rcases mem_rowsOf_setRows hrow with ⟨rfl, hmem⟩ | hold
    · rcases mem_carry hmem with hnew | hold
      · obtain ⟨old, hmem', rfl⟩ := List.mem_map.mp hnew
        exact .inr (.inr (.inr ⟨source, first, last, rfl, hcur, old, hmem', rfl⟩))
      · exact .inl ⟨hcur, hold⟩
    · exact .inl ⟨hcur, hold⟩
  | committed hnode hguard hversion hstate =>
    rename_i guard total hash node version
    rw [currentOf_switchTo] at hcur
    split_ifs at hcur
    · cases hcur
      exact .inr (.inl ⟨guard, total, hash, rfl, ⟨node, hnode, hguard⟩, hrow⟩)
    · exact .inl ⟨hcur, hrow⟩
  | forgotten o =>
    refine .inl ⟨hcur, ?_⟩
    simp only [World.rowsOf, World.forgetObject, lookup_mapValues] at hrow ⊢
    cases hrows : w.chunks.lookup v with
    | none =>
      rw [hrows] at hrow
      cases hrow
    | some rows =>
      rw [hrows] at hrow
      exact List.mem_of_mem_filter hrow
  | purged cutoff =>
    refine .inl ⟨hcur, ?_⟩
    rw [World.rowsOf, lookup_purged_chunks] at hrow
    split_ifs at hrow
    · cases hrow
    · exact hrow
  | dropped o => exact .inl ⟨hcur, hrow⟩

theorem Effect.spares {c : Call} (h : Effect cfg w c t) {m : Memo} (hm : m.Spares w) (hclear : m.Clear w c) :
    m.Spares t := by
  intro n v hcur row hrow
  rcases h.row_origin hcur hrow with ⟨hold, hmem⟩ | ⟨guard, total, hash, rfl, haccepts, hmem⟩ | ⟨rfl, hold⟩ |
    ⟨source, first, last, rfl, hold, old, hmem, ho⟩
  · exact hm n v hold row hmem
  · exact hclear haccepts row hmem
  · exact hclear ⟨n, hold⟩
  · exact ho ▸ hclear ⟨n, hold⟩ old hmem

theorem picked_mark (m : Memo) (v : Uuid) (found : Bool) : (m.mark v found).picked = m.picked := by
  unfold Memo.mark
  split_ifs <;> rfl

theorem picked_note {c : Call} {r : c.Reply} {m : Memo} :
    (∀ o ∈ (Memo.note c r m).picked, o ∈ m.picked)
      ∨ ∃ cutoff limit, c = .query (.collectableObjects cutoff limit) := by
  unfold Memo.note
  split
  case h_1 => exact .inr ⟨_, _, rfl⟩
  case h_2 => exact .inl (by simp [picked_mark, Memo.meet])
  case h_3 => exact .inl (by simp [picked_mark, Memo.meet])
  case h_4 => exact .inl (by simp [picked_mark, Memo.meet])
  case h_5 =>
    refine .inl ?_
    split_ifs <;> exact fun _ h => h
  all_goals first
    | exact .inl fun _ h => h
    | exact .inl fun _ h => List.mem_of_mem_erase h

theorem spares_collectable (hw : Orderly w) (cutoff : Time) (limit : ℤ) {m : Memo} (hm : m.Spares w) :
    (Memo.note (.query (.collectableObjects cutoff limit))
      (answer cfg w (.collectableObjects cutoff limit)) m).Spares w := by
  simp only [answer]
  cases hids : w.collectableObjects cfg.backend cfg.arrange cutoff limit with
  | error e => exact hm
  | ok ids =>
    intro n v hcur row hrow hmem
    obtain ⟨node, hnode, hc⟩ := currentOf_eq_some.mp hcur
    exact current_not_collectable hw hnode hc hrow cfg.backend cutoff (mem_collectableObjects hids hmem)

theorem Run.spares {accepts : Traffic → Prop} {p : Traffics}
    (h : Run cfg (fun _ => True) accepts KeepsClear p) :
    Kept (fun _ => True) Memo.Spares p := by
  refine h.kept (fun _ _ _ => trivial) (fun _ _ _ => trivial) (fun m w time hm => hm)
    (fun _ _ _ _ _ _ _ _ => List.not_mem_nil) fun p q i faults hp hclear hq => ?_
  refine Kept.step hp hq fun thread hthread hadm _ _ hmine heffect => ⟨trivial, ?_, fun other hother hspares => ?_⟩
  · have hown := heffect.spares hmine
      (hclear _ (by rw [nextCall, hthread]; rfl) thread (List.mem_of_getElem? hthread))
    rcases picked_note (c := thread.call) (m := thread.notes)
        (r := (perform cfg faults p.state thread.call).1) with hsub | ⟨cutoff, limit, hcall⟩
    · exact fun n v hcur row hrow hpicked => hown n v hcur row hrow (hsub _ hpicked)
    · rw [hcall]
      exact spares_collectable hp.state.1 cutoff limit hmine
  · exact heffect.spares hspares
      (hclear _ (by rw [nextCall, hthread]; rfl) other (List.mem_of_mem_eraseIdx hother))

def World.Spared (w : World) : Call → Prop
  | .delete o => ∀ n c, w.currentOf n = some c → ∀ row ∈ w.rowsOf c, row.objectId ≠ o
  | .forgetObject o => ∀ n c, w.currentOf n = some c → ∀ row ∈ w.rowsOf c, row.objectId ≠ o
  | _ => True

theorem Memo.Spares.spared {m : Memo} (hm : m.Spares w) {c : Call} (hadm : Memo.Admits c m) : w.Spared c := by
  cases c with
  | delete o => exact fun n v hcur row hrow ho => hm n v hcur row hrow (ho ▸ hadm)
  | forgetObject o => exact fun n v hcur row hrow ho => hm n v hcur row hrow (ho ▸ hadm)
  | _ => trivial

/-- In `t` every object and every chunk of the current versions of `w` is still there. -/
def Preserves (w t : World) : Prop := ∀ n c, w.currentOf n = some c → ∀ row ∈ w.rowsOf c,
  (∀ stored, w.objects.lookup row.objectId = some stored → t.objects.lookup row.objectId = some stored)
    ∧ ∃ kept ∈ t.rowsOf c, kept.chunkIndex = row.chunkIndex

theorem Effect.preserves {c : Call} (h : Effect cfg w c t) (hw : Orderly w) (hspared : w.Spared c) :
    Preserves w t := by
  intro n v hcur row hrow
  obtain ⟨node, hnode, hc⟩ := currentOf_eq_some.mp hcur
  obtain ⟨version, hv, -⟩ := hw.current hnode hc
  cases h with
  | quiet h =>
    refine ⟨h.objects _, row, ?_, rfl⟩
    rwa [World.rowsOf, h.chunks]
  | staged hnode' =>
    refine ⟨fun _ h => h, row, ?_, rfl⟩
    rwa [World.rowsOf, World.addVersion, lookup_insert, if_neg (hw.ids hv).2.ne]
  | touched v' size => exact ⟨fun _ h => h, row, hrow, rfl⟩
  | attached row' =>
    refine ⟨fun _ h => h, ?_⟩
    rw [World.rowsOf, World.setRows, lookup_insert]
    split_ifs with hv'
    · exact Keyed.key_mem_upsert (hv' ▸ hrow)
    · exact ⟨row, hrow, rfl⟩
  | copied source v' first last =>
    refine ⟨fun _ h => h, row, ?_, rfl⟩
    rw [World.rowsOf, World.setRows, lookup_insert]
    split_ifs with hv'
    · exact mem_carry_of_mem (hv' ▸ hrow)
    · exact hrow
  | committed hnode' hguard hversion hstate => exact ⟨fun _ h => h, row, hrow, rfl⟩
  | forgotten o =>
    refine ⟨fun _ h => h, row, ?_, rfl⟩
    have hne := hspared n v hcur row hrow
    simp only [World.rowsOf, World.forgetObject, lookup_mapValues] at hrow ⊢
    cases hrows : w.chunks.lookup v with
    | none =>
      rw [hrows] at hrow
      cases hrow
    | some rows =>
      rw [hrows] at hrow
      exact List.mem_filter.mpr ⟨hrow, by simpa using hne⟩
  | purged cutoff =>
    refine ⟨fun _ h => h, row, ?_, rfl⟩
    have hkept := not_isDoomed hw cfg.backend cutoff hnode hc hv
    have hmem := mt (mem_doomedVersions hw cfg.backend cutoff hv).mp (Bool.eq_false_iff.mp hkept)
    rwa [World.rowsOf, lookup_purged_chunks, if_neg hmem]
  | dropped o =>
    refine ⟨fun stored hs => ?_, row, hrow, rfl⟩
    have hne := hspared n v hcur row hrow
    simp only [World.dropObject, lookup_erase]
    rw [if_neg hne]
    exact hs

variable (faults) in
theorem sweep_preserves_current {p q : Traffics} (h : Run cfg (fun _ => True) (fun _ => True) KeepsClear p)
    {i : ℕ} (hq : p.advance (server cfg faults) i = some q) : Preserves p.state q.state := by
  obtain ⟨thread, hthread, -, hstate, -⟩ := Pool.advance_cases hq
  have hkept := h.spares
  have hmem := List.mem_of_getElem? hthread
  have hadm := (hkept.promise thread hmem).1
  rw [hstate]
  exact (perform_effect cfg faults p.state hadm).preserves hkept.state.1
    ((hkept.notes thread hmem).2.spared hadm)

def overwritten : World :=
  (World.fresh 0).trace (sample .memory)
    [newFile 7, .writeBytes 7 0 [1, 2, 3, 4], .commitNode 7, .writeBytes 7 0 [5, 6, 7, 8], .commitNode 7, .wait 10]

def sweeping : Option Traffics :=
  Traffics.play (sample .memory) (fun p i => decide (KeepsClear p i))
    [.arrive (.collectOnce 0), .go 0 3, .arrive (.writeBytes 7 1 [9]), .go 1 14, .arrive (.commitNode 7), .go 1 6,
      .go 0 1] ⟨overwritten, []⟩

theorem sweep_preserves_current_synced : ∃ p q : Traffics,
    Run (sample .memory) (fun _ => True) (fun _ => True) KeepsClear p
      ∧ p.advance (server (sample .memory) noFaults) 0 = some q
      ∧ overwritten.currentOf 7 = some 3 ∧ p.state.currentOf 7 = some 5
      ∧ (overwritten.objects.lookup 2).isSome = true ∧ (p.state.objects.lookup 2).isSome = false
      ∧ (p.state.rowsOf 1).map FileChunkRecord.objectId = [2] ∧ q.state.rowsOf 1 = []
      ∧ (q.state.rowsOf 5).map FileChunkRecord.objectId = [6] ∧ Preserves p.state q.state := by
  obtain ⟨p, hp, q, hq, hcur, hgone, hrow, hforgotten, hkept⟩ :
      ∃ p ∈ sweeping, ∃ q ∈ p.advance (server (sample .memory) noFaults) 0, p.state.currentOf 7 = some 5
        ∧ (p.state.objects.lookup 2).isSome = false ∧ (p.state.rowsOf 1).map FileChunkRecord.objectId = [2]
        ∧ q.state.rowsOf 1 = [] ∧ (q.state.rowsOf 5).map FileChunkRecord.objectId = [6] := by
    decide +kernel
  have hstart : Run (sample .memory) (fun _ => True) (fun _ => True) KeepsClear ⟨overwritten, []⟩ :=
    .start ((Reachable.fresh 0).trace _) trivial
  have hrun := hstart.play (fun _ _ => of_decide_eq_true) (fun _ _ => trivial) hp
  exact ⟨p, q, hrun, hq, rfl, hcur, rfl, hgone, hrow, hforgotten, hkept, sweep_preserves_current noFaults hrun hq⟩

def expiredWrite : World :=
  (World.fresh 0).trace (sample .memory) [newFile 7, .writeBytes 7 0 [1, 2, 3, 4], .wait 10]

def racing : Option Traffics :=
  Traffics.play (sample .memory) (fun _ _ => true)
    [.arrive (.collectOnce 0), .go 0 3, .arrive (.commitNode 7), .go 1 6]
    ⟨expiredWrite, []⟩

theorem sweep_takes_committed_chunk : ∃ p q : Traffics,
    Run (sample .memory) (fun _ => True) (fun _ => True) (fun _ _ => True) p
      ∧ p.advance (server (sample .memory) noFaults) 0 = some q
      ∧ p.state.currentOf 7 = some 1 ∧ (p.state.rowsOf 1).map FileChunkRecord.objectId = [2]
      ∧ (p.state.objects.lookup 2).isSome = true ∧ (q.state.objects.lookup 2).isSome = false
      ∧ ¬Preserves p.state q.state := by
  -- The sweep then deletes the object of the current version.
  obtain ⟨p, hp, q, hq, hcur, hrows, hbefore, hafter⟩ :
      ∃ p ∈ racing, ∃ q ∈ p.advance (server (sample .memory) noFaults) 0, p.state.currentOf 7 = some 1
        ∧ (p.state.rowsOf 1).map FileChunkRecord.objectId = [2] ∧ (p.state.objects.lookup 2).isSome = true
        ∧ (q.state.objects.lookup 2).isSome = false := by
    decide +kernel
  have hstart : Run (sample .memory) (fun _ => True) (fun _ => True) (fun _ _ => True) ⟨expiredWrite, []⟩ :=
    .start ((Reachable.fresh 0).trace _) trivial
  refine ⟨p, q, hstart.play (fun _ _ _ => trivial) (fun _ _ => trivial) hp, hq, hcur, hrows, hbefore, hafter,
    fun hpres => ?_⟩
  have hmem : (2 : Uuid) ∈ (p.state.rowsOf 1).map FileChunkRecord.objectId := by
    rw [hrows]
    exact List.mem_singleton_self 2
  obtain ⟨row, hrow, ho⟩ := List.mem_map.mp hmem
  obtain ⟨stored, hstored⟩ := Option.isSome_iff_exists.mp hbefore
  have hkept := (hpres 7 1 hcur row hrow).1 stored (ho ▸ hstored)
  rw [ho] at hkept
  rw [hkept] at hafter
  cases hafter

end Dcfs
