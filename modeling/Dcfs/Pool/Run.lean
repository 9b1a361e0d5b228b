import Dcfs.Pool.Effect

namespace Dcfs

open Effects Tables World

variable {cfg : Config} {faults : Faults} {w t : World} {m : Memo}

namespace Memo

def met : (c : Call) → c.Reply → Option (Uuid × Uuid)
  | .query (.getVersion versionId), .ok version => some (versionId, version.nodeId)
  | .query (.findOpenStagingVersion nodeId), .ok version => some (version.id, nodeId)
  | .createStagingVersion nodeId _ _, .ok version => some (version.id, nodeId)
  | _, _ => none

def Known (m : Memo) (w : World) : Prop := ∀ v n, (v, n) ∈ m.owners →
  v < w.nextUuid ∧ ∀ version, w.versions.lookup v = some version → version.nodeId = n

theorem owners_mark (v : Uuid) (found : Bool) : (m.mark v found).owners = m.owners := by
  unfold mark
  split_ifs <;> rfl

theorem mem_owners_note {c : Call} {r : c.Reply} {v n : Uuid} (h : (v, n) ∈ (note c r m).owners) :
    (v, n) ∈ m.owners ∨ met c r = some (v, n) := by
  unfold note at h
  split at h
  all_goals try exact .inl h
  case h_2 => simpa [owners_mark, meet, met, or_comm, eq_comm] using h
  case h_3 => simpa [owners_mark, meet, met, or_comm, eq_comm] using h
  case h_4 => simpa [owners_mark, meet, met, or_comm, eq_comm] using h
  case h_5 =>
    split_ifs at h <;> exact .inl h

end Memo

theorem Effect.known {c : Call} (h : Effect cfg w c t) (hm : m.Known w) : m.Known t := by
  intro v n hmem
  obtain ⟨hlt, hnode⟩ := hm v n hmem
  refine ⟨hlt.trans_le h.nextUuid_le, fun version hv => ?_⟩
  rcases h.version_origin hv with ⟨old, hold, hn, -⟩ | ⟨rfl, -⟩
  · rw [hn, hnode old hold]
  · exact absurd hlt (lt_irrefl _)

theorem Effect.orderly {c : Call} (h : Effect cfg w c t) (hw : Orderly w)
    (hown : ∀ guard total hash, c = .commitVersion guard total hash →
      ∀ version, w.versions.lookup guard.versionId = some version → version.nodeId = guard.nodeId) :
    Orderly t where
  ids hv := by
    rcases h.version_origin hv with ⟨old, hold, -, hid⟩ | ⟨rfl, hid, hlt⟩
    · exact ⟨hid.trans (hw.ids hold).1, (hw.ids hold).2.trans_le h.nextUuid_le⟩
    · exact ⟨hid, hlt⟩
  current {n node c'} hnode hc := by
    have hcur : t.currentOf n = some c' := currentOf_eq_some.mpr ⟨node, hnode, hc⟩
    have hback : ∀ {id}, w.currentOf n = some id →
        ∃ version, w.versions.lookup id = some version ∧ version.nodeId = n ∧ version.state = .committed := by
      intro id hid
      obtain ⟨node', hnode', hc'⟩ := currentOf_eq_some.mp hid
      exact hw.current hnode' hc'
    cases h with
    | quiet h =>
      rw [h.versions]
      exact hback (h.current n ▸ hcur)
    | staged hnode' =>
      rw [currentOf_addVersion hnode'] at hcur
      obtain ⟨version, hv, hrest⟩ := hback hcur
      refine ⟨version, ?_, hrest⟩
      rw [lookup_addVersion, if_neg (hw.ids hv).2.ne, hv]
    | touched v size =>
      obtain ⟨version, hv, hn, hs⟩ := hback hcur
      refine ⟨version, ?_, hn, hs⟩
      simp only [World.touchStagingVersion, lookup_modify]
      split_ifs
      · simp [hv, hs]
      · exact hv
    | committed hnode' hguard hversion hstate =>
      rename_i guard total hash node' version
      rw [currentOf_switchTo] at hcur
      split_ifs at hcur with hn
      · cases hcur
        exact ⟨w.committed version total hash, by rw [lookup_switch, if_pos rfl],
          (hown _ _ _ rfl version hversion).trans hn.symm, rfl⟩
      · obtain ⟨version', hv', hn', hs'⟩ := hback hcur
        have hne : c' ≠ guard.versionId := by
          rintro rfl
          cases hversion.symm.trans hv'
          exact hn (hn'.symm.trans (hown _ _ _ rfl version hversion))
        have hne' : node'.currentVersionId ≠ some c' := by
          intro hcur'
          obtain ⟨version'', hv'', hn'', -⟩ := hw.current hnode' hcur'
          cases hv'.symm.trans hv''
          exact hn (hn'.symm.trans hn'')
        exact ⟨version', by rw [lookup_switch, if_neg hne, if_neg hne', hv'], hn', hs'⟩
    | purged cutoff =>
      obtain ⟨node', hnode', hc'⟩ := currentOf_eq_some.mp hcur
      obtain ⟨version, hv, hrest⟩ := hw.current hnode' hc'
      obtain ⟨base, hbase⟩ := lookup_purged_of_kept hw hv (not_isDoomed hw cfg.backend cutoff hnode' hc' hv)
      exact ⟨_, hbase, hrest⟩
    | attached row => exact hback hcur
    | copied source v first last => exact hback hcur
    | forgotten o => exact hback hcur
    | dropped o => exact hback hcur

variable (cfg faults) in
theorem met_true (hw : Orderly w) {c : Call} {v n : Uuid} (h : Memo.met c (perform cfg faults w c).1 = some (v, n)) :
    v < (perform cfg faults w c).2.nextUuid
      ∧ ∀ version, (perform cfg faults w c).2.versions.lookup v = some version → version.nodeId = n := by
  cases c with
  | query q =>
    cases q with
    | getVersion id =>
      simp only [perform, answer, World.getVersion] at h ⊢
      cases hv : w.versions.lookup id with
      | none =>
        rw [hv] at h
        cases h
      | some version =>
        rw [hv] at h
        cases h
        refine ⟨(hw.ids hv).2, fun version' hv' => ?_⟩
        cases hv.symm.trans hv'
        rfl
    | findOpenStagingVersion id =>
      simp only [perform, answer, World.findOpenStagingVersion] at h ⊢
      cases hnew : newest (w.stagingOf id) with
      | none =>
        rw [hnew] at h
        cases h
      | some version =>
        rw [hnew] at h
        cases h
        obtain ⟨⟨key, hkey⟩, hn, -⟩ := mem_stagingOf.mp (newest_mem hnew)
        rw [(hw.ids hkey).1]
        refine ⟨(hw.ids hkey).2, fun version' hv' => ?_⟩
        cases hkey.symm.trans hv'
        exact hn
    | _ => cases h
  | createStagingVersion id base chunkSize =>
    simp only [perform, World.createStagingVersion] at h ⊢
    cases hnode : w.nodes.lookup id with
    | none =>
      rw [hnode] at h
      cases h
    | some node =>
      rw [hnode] at h
      dsimp only at h ⊢
      split_ifs at h ⊢
      · cases h
      · cases h
        refine ⟨Nat.lt_succ_self _, fun version' hv' => ?_⟩
        rw [lookup_addVersion] at hv'
        split_ifs at hv' with hid
        · cases hv'
          rfl
        · exact absurd rfl hid
  | _ => cases h

variable (cfg faults) in
theorem note_known (hw : Orderly w) {c : Call} (hadm : Memo.Admits c m) (hm : m.Known w) :
    (Memo.note c (perform cfg faults w c).1 m).Known (perform cfg faults w c).2 := by
  intro v n hmem
  rcases Memo.mem_owners_note hmem with hold | hnew
  · exact (perform_effect cfg faults w hadm).known hm v n hold
  · exact met_true cfg faults hw hnew

/--
Requests of the kinds that `accepts` arrive, the clock moves, and any running request issues its next
call if `allows` does not rule that out. Deletions may fail at any step.
-/
inductive Run (cfg : Config) (start : World → Prop) (accepts : Traffic → Prop)
    (allows : Traffics → ℕ → Prop) : Traffics → Prop
  | start {w : World} : Reachable cfg w → start w → Run cfg start accepts allows ⟨w, []⟩
  | arrive {p : Traffics} (request : Traffic) : accepts request → Run cfg start accepts allows p →
      Run cfg start accepts allows (p.spawn (request.program cfg) (Memo.start request))
  | wait {p : Traffics} (time : ℕ) : Run cfg start accepts allows p →
      Run cfg start accepts allows { p with state := p.state.pass time }
  | step {p q : Traffics} (faults : Faults) (i : ℕ) : Run cfg start accepts allows p → allows p i →
      p.advance (server cfg faults) i = some q → Run cfg start accepts allows q

variable {cfg : Config} {start : World → Prop} {accepts : Traffic → Prop} {allows : Traffics → ℕ → Prop}

def nextCall (p : Traffics) (i : ℕ) : Option Call := (p.threads[i]?).map Thread.call

abbrev Kept (extra : World → Prop) (mine : Memo → World → Prop) (p : Traffics) : Prop :=
  p.Holds Memo.note Memo.Admits (fun w => Orderly w ∧ extra w) (fun m w => m.Known w ∧ mine m w)

theorem Kept.step {extra : World → Prop} {mine : Memo → World → Prop} {p q : Traffics} {i : ℕ}
    {faults : Faults} (h : Kept extra mine p) (hq : p.advance (server cfg faults) i = some q)
    (hstep : ∀ thread, p.threads[i]? = some thread → Memo.Admits thread.call thread.notes →
      ready thread.call p.state = true → thread.notes.Known p.state → mine thread.notes p.state →
      Effect cfg p.state thread.call (perform cfg faults p.state thread.call).2 →
      extra (perform cfg faults p.state thread.call).2
        ∧ mine (Memo.note thread.call (perform cfg faults p.state thread.call).1 thread.notes)
          (perform cfg faults p.state thread.call).2
        ∧ ∀ other ∈ p.threads.eraseIdx i, mine other.notes p.state →
          mine other.notes (perform cfg faults p.state thread.call).2) : Kept extra mine q := by
  refine Pool.Holds.advance h hq fun thread hthread hadm hnotes hready => ?_
  have heffect := perform_effect cfg faults p.state hadm
  obtain ⟨hextra, hmine, hothers⟩ := hstep thread hthread hadm hready hnotes.1 hnotes.2 heffect
  refine ⟨⟨heffect.orderly h.state.1 ?_, hextra⟩, ⟨note_known cfg faults h.state.1 hadm hnotes.1, hmine⟩,
    fun other hother hknown => ⟨heffect.known hknown.1, hothers other hother hknown.2⟩⟩
  intro guard total hash hcall version hversion
  have hpair : (guard.versionId, guard.nodeId) ∈ thread.notes.owners := by
    rw [hcall] at hadm
    exact hadm.1
  exact (hnotes.1 _ _ hpair).2 version hversion

theorem Orderly.pass {w : World} (h : Orderly w) (time : ℕ) : Orderly (w.pass time) := ⟨h.ids, h.current⟩

theorem Run.kept {extra : World → Prop} {mine : Memo → World → Prop}
    (hstart : ∀ w, Reachable cfg w → start w → extra w)
    (hpass : ∀ w time, extra w → extra (World.pass w time))
    (hmine : ∀ m w time, mine m w → mine m (World.pass w time))
    (hnew : ∀ request w, accepts request → mine (Memo.start request) w)
    (hstep : ∀ p q i faults, Kept extra mine p → allows p i → p.advance (server cfg faults) i = some q →
      Kept extra mine q) {p : Traffics} (h : Run cfg start accepts allows p) : Kept extra mine p := by
  induction h with
  | start hw hs =>
    exact ⟨⟨hw.sound.consistent.orderly, hstart _ hw hs⟩, fun _ hmem => absurd hmem List.not_mem_nil,
      fun _ hmem => absurd hmem List.not_mem_nil⟩
  | arrive request hrequest _ ih =>
    exact ih.spawn ⟨fun _ _ hmem => absurd hmem List.not_mem_nil, hnew request _ hrequest⟩
      (Traffic.meets cfg request)
  | wait time _ ih =>
    exact ⟨⟨ih.state.1.pass time, hpass _ time ih.state.2⟩, fun thread hmem =>
      ⟨(ih.notes thread hmem).1, hmine _ _ time (ih.notes thread hmem).2⟩, ih.promise⟩
  | step faults i _ hallowed hq ih => exact hstep _ _ i faults ih hallowed hq

def Traffics.arrive (cfg : Config) (request : Traffic) (p : Traffics) : Traffics :=
  p.spawn (request.program cfg) (Memo.start request)

inductive Turn
  | arrive (request : Traffic)
  | go (i times : ℕ)

def Traffics.play (cfg : Config) (check : Traffics → ℕ → Bool) : List Turn → Traffics → Option Traffics
  | [], p => some p
  | .arrive request :: rest, p => play cfg check rest (p.arrive cfg request)
  | .go i times :: rest, p =>
    (p.schedule (server cfg noFaults) check (List.replicate times i)).bind (play cfg check rest)

theorem Run.play {p q : Traffics} (h : Run cfg start accepts allows p) {check : Traffics → ℕ → Bool}
    (hallows : ∀ p i, check p i = true → allows p i) {turns : List Turn}
    (haccepts : ∀ request, Turn.arrive request ∈ turns → accepts request)
    (hq : p.play cfg check turns = some q) : Run cfg start accepts allows q := by
  induction turns generalizing p with
  | nil =>
    cases hq
    exact h
  | cons turn rest ih =>
    have hrest : ∀ request, Turn.arrive request ∈ rest → accepts request :=
      fun request hmem => haccepts request (List.mem_cons_of_mem _ hmem)
    cases turn with
    | arrive request => exact ih (h.arrive request (haccepts request List.mem_cons_self)) hrest hq
    | go i times =>
      obtain ⟨mid, hmid, hq⟩ := Option.bind_eq_some_iff.mp hq
      have hrun : Run cfg start accepts allows mid :=
        Pool.schedule_induction (fun p _ i hp hcheck hstep => hp.step noFaults i (hallows p i hcheck) hstep) h hmid
      exact ih hrun hrest hq

end Dcfs
