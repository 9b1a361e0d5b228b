import Dcfs.Pool.LostCommit

namespace Dcfs

open Effects Tables World

def Memo.Apart (m : Memo) (w : World) : Prop := ∀ v ∈ m.writing, ∀ n, w.currentOf n ≠ some v

/--
A commit that the repository would accept is of a version that is not current already and that no
running request, having found it open, still has to attach chunks to.
-/
def Settled (p : Traffics) (i : ℕ) : Prop :=
  match nextCall p i with
  | some (.commitVersion guard _ _) => p.state.Accepts guard →
      p.state.currentOf guard.nodeId ≠ some guard.versionId
        ∧ ∀ other ∈ p.threads, guard.versionId ∉ other.notes.writing
  | _ => True

def Call.guard? : Call → Option CommitGuard
  | .commitVersion guard _ _ => some guard
  | _ => none

theorem settled_iff {p : Traffics} {i : ℕ} : Settled p i ↔ ∀ guard ∈ (nextCall p i).bind Call.guard?,
    p.state.Accepts guard → p.state.currentOf guard.nodeId ≠ some guard.versionId
      ∧ ∀ other ∈ p.threads, guard.versionId ∉ other.notes.writing := by
  unfold Settled
  cases nextCall p i with
  | none => simp
  | some c => cases c <;> simp [Call.guard?]

instance (p : Traffics) (i : ℕ) : Decidable (Settled p i) := decidable_of_iff _ settled_iff.symm

def Unaltered (w t : World) : Prop :=
  ∀ n c, w.currentOf n = some c → t.currentOf n = some c →
    (t.versions.lookup c).map FileVersionRecord.size = (w.versions.lookup c).map FileVersionRecord.size
      ∧ t.rowsOf c = w.rowsOf c

variable {cfg : Config} {faults : Faults} {w t : World} {m : Memo}

theorem Orderly.state_of_currentOf (h : Orderly w) {n c : Uuid} (hc : w.currentOf n = some c) :
    ∃ version, w.versions.lookup c = some version ∧ version.nodeId = n ∧ version.state = .committed := by
  obtain ⟨node, hnode, hcur⟩ := currentOf_eq_some.mp hc
  exact h.current hnode hcur

theorem rowsOf_setRows_of_ne {v c : Uuid} (h : c ≠ v) (rows : List FileChunkRecord) :
    (w.setRows v rows).rowsOf c = w.rowsOf c := by
  rw [World.rowsOf, World.setRows, lookup_insert, if_neg h]
  rfl

theorem Orderly.apart_of_staging (h : Orderly w) {v : Uuid} {version : FileVersionRecord}
    (hv : w.versions.lookup v = some version) (hs : version.state = .staging) (n : Uuid) :
    w.currentOf n ≠ some v := by
  intro hc
  obtain ⟨version', hv', -, hs'⟩ := h.state_of_currentOf hc
  rw [hv] at hv'
  cases hv'
  rw [hs] at hs'
  cases hs'

theorem Effect.apart {c : Call} (h : Effect cfg w c t) (hm : m.Apart w)
    (hcommit : ∀ guard total hash, c = .commitVersion guard total hash → w.Accepts guard →
      guard.versionId ∉ m.writing) : m.Apart t := by
  intro v hv n hcur
  cases h with
  | quiet h => exact hm v hv n (h.current n ▸ hcur)
  | staged hnode =>
    rw [currentOf_addVersion hnode] at hcur
    exact hm v hv n hcur
  | committed hnode hguard hversion hstate =>
    rw [currentOf_switchTo] at hcur
    split_ifs at hcur
    · cases hcur
      exact hcommit _ _ _ rfl ⟨_, hnode, hguard⟩ hv
    · exact hm v hv n hcur
  | _ => exact hm v hv n hcur

theorem Memo.Apart.mark (h : m.Apart w) {v : Uuid} {found : Bool}
    (hv : found = true → ∀ n, w.currentOf n ≠ some v) : (m.mark v found).Apart w := by
  unfold Memo.mark
  split_ifs with hfound
  · intro u hu
    rcases List.mem_cons.mp hu with rfl | hu
    · exact hv hfound
    · exact h u hu
  · exact h

theorem Memo.Apart.nil (h : m.writing = []) : m.Apart w := by
  intro v hv
  rw [h] at hv
  cases hv

variable (cfg faults) in
theorem note_apart (hw : Orderly w) {c : Call} (hm : m.Apart (perform cfg faults w c).2) :
    (Memo.note c (perform cfg faults w c).1 m).Apart (perform cfg faults w c).2 := by
  cases c with
  | query q =>
    cases q with
    | getVersion id =>
      simp only [perform, answer, World.getVersion] at hm ⊢
      cases hv : w.versions.lookup id with
      | none => exact hm
      | some version =>
        refine Memo.Apart.mark (m := m.meet id version.nodeId) hm fun hfound => ?_
        exact hw.apart_of_staging hv (eq_of_beq (Bool.and_eq_true_iff.mp hfound).2)
    | findOpenStagingVersion id =>
      simp only [perform, answer, World.findOpenStagingVersion] at hm ⊢
      cases hnew : newest (w.stagingOf id) with
      | none => exact hm
      | some version =>
        refine Memo.Apart.mark (m := m.meet version.id id) hm fun _ => ?_
        obtain ⟨⟨key, hkey⟩, -, hs⟩ := mem_stagingOf.mp (newest_mem hnew)
        rw [(hw.ids hkey).1]
        exact hw.apart_of_staging hkey hs
    | collectableObjects cutoff limit =>
      simp only [perform, answer] at hm ⊢
      cases w.collectableObjects cfg.backend cfg.arrange cutoff limit <;> exact hm
    | _ => exact hm
  | createStagingVersion id base chunkSize =>
    simp only [perform, World.createStagingVersion] at hm ⊢
    cases hnode : w.nodes.lookup id with
    | none =>
      rw [hnode] at hm
      exact hm
    | some node =>
      rw [hnode] at hm
      dsimp only at hm ⊢
      split_ifs at hm ⊢
      · exact hm
      · refine Memo.Apart.mark (m := m.meet w.nextUuid id) hm fun _ n hcur => ?_
        rw [currentOf_addVersion hnode] at hcur
        obtain ⟨version, hv, -⟩ := hw.state_of_currentOf hcur
        exact lt_irrefl _ (hw.ids hv).2
  | attachChunk row =>
    unfold Memo.note
    dsimp only
    split_ifs
    · exact .nil rfl
    · exact hm
  | touchStagingVersion v size => exact .nil rfl
  | delete o =>
    cases hreply : (perform cfg faults w (.delete o)).1 with
    | ok u => exact hm
    | error e => cases e <;> exact hm
  | forgetObject o => exact hm
  | _ => exact hm

theorem picked_note_nil {c : Call} {r : c.Reply} (hadm : Memo.Admits c m) (hsweep : m.request.isSweep = false)
    (hm : m.picked = []) : (Memo.note c r m).picked = [] := by
  unfold Memo.note
  split
  · rw [Memo.Admits, hsweep] at hadm
    cases hadm
  all_goals first
    | exact hm
    | (simp only [Memo.mark, Memo.meet]; split_ifs <;> exact hm)
    | (split_ifs <;> exact hm)
    | (simp only [hm]; rfl)

theorem Effect.unaltered {c : Call} (h : Effect cfg w c t) (hw : Orderly w) (hadm : Memo.Admits c m)
    (hsweep : m.request.isSweep = false) (hpicked : m.picked = []) (hm : m.Apart w)
    (hown : ∀ guard total hash, c = .commitVersion guard total hash →
      ∀ version, w.versions.lookup guard.versionId = some version → version.nodeId = guard.nodeId)
    (hcommit : ∀ guard total hash, c = .commitVersion guard total hash → w.Accepts guard →
      w.currentOf guard.nodeId ≠ some guard.versionId) : Unaltered w t := by
  intro n v hcur hcur'
  obtain ⟨version, hv, hn, hs⟩ := hw.state_of_currentOf hcur
  cases h with
  | quiet h =>
    rw [h.versions, World.rowsOf, h.chunks]
    exact ⟨rfl, rfl⟩
  | staged hnode =>
    have hne := (hw.ids hv).2.ne
    rw [lookup_addVersion, if_neg hne, World.rowsOf, World.addVersion, lookup_insert, if_neg hne]
    exact ⟨rfl, rfl⟩
  | touched v' size =>
    refine ⟨?_, rfl⟩
    simp only [World.touchStagingVersion, lookup_modify]
    split_ifs
    · simp [hv, hs]
    · rfl
  | attached row =>
    refine ⟨rfl, rowsOf_setRows_of_ne ?_ _⟩
    rintro rfl
    exact hm _ hadm n hcur
  | copied source v' first last =>
    refine ⟨rfl, rowsOf_setRows_of_ne ?_ _⟩
    rintro rfl
    exact hm _ hadm n hcur
  | committed hnode hguard hversion hstate =>
    rename_i guard total hash node version'
    refine ⟨?_, rfl⟩
    rw [currentOf_switchTo] at hcur'
    split_ifs at hcur' with heq
    · cases hcur'
      exact absurd (heq ▸ hcur) (hcommit _ _ _ rfl ⟨_, hnode, hguard⟩)
    · have hne : v ≠ guard.versionId := by
        rintro rfl
        exact heq (hn.symm.trans (hown _ _ _ rfl version hv))
      rw [lookup_switch, if_neg hne, hv]
      split_ifs
      · simp only [Option.map_some, supersededBy]
        split_ifs
        rfl
      · rfl
  | forgotten o =>
    rw [Memo.Admits, hpicked] at hadm
    cases hadm
  | purged cutoff =>
    rw [Memo.Admits, hsweep] at hadm
    cases hadm
  | dropped o =>
    rw [Memo.Admits, hpicked] at hadm
    cases hadm

theorem Run.apart {p : Traffics}
    (h : Run cfg (fun _ => True) (fun request => request.isSweep = false) Settled p) :
    Kept (fun _ => True) (fun m w => m.request.isSweep = false ∧ m.picked = [] ∧ m.Apart w) p := by
  refine h.kept (fun _ _ _ => trivial) (fun _ _ _ => trivial) (fun _ _ _ hm => hm)
    (fun _ _ hr => ⟨hr, rfl, .nil rfl⟩) fun p q i faults hp hset hq => ?_
  refine Kept.step hp hq fun thread hthread hadm _ _ hmine heffect => ?_
  obtain ⟨hsweep, hpicked, hapart⟩ := hmine
  have hnext : nextCall p i = some thread.call := by
    rw [nextCall, hthread]
    rfl
  have hclear : ∀ other ∈ p.threads, ∀ guard total hash, thread.call = .commitVersion guard total hash →
      p.state.Accepts guard → guard.versionId ∉ other.notes.writing := by
    intro other hother guard total hash hcall haccepts
    rw [Settled, hnext, hcall] at hset
    exact (hset haccepts).2 other hother
  refine ⟨trivial, ⟨?_, picked_note_nil hadm hsweep hpicked, note_apart cfg faults hp.state.1 ?_⟩, ?_⟩
  · rw [request_note]
    exact hsweep
  · exact heffect.apart hapart (hclear thread (List.mem_of_getElem? hthread))
  · rintro other hother ⟨hsweep', hpicked', hapart'⟩
    exact ⟨hsweep', hpicked', heffect.apart hapart' (hclear other (List.mem_of_mem_eraseIdx hother))⟩

theorem current_unaltered {p q : Traffics}
    (h : Run cfg (fun _ => True) (fun request => request.isSweep = false) Settled p) {i : ℕ}
    (hset : Settled p i) (hq : p.advance (server cfg faults) i = some q) : Unaltered p.state q.state := by
  obtain ⟨thread, hthread, -, hstate, -⟩ := Pool.advance_cases hq
  have hkept := h.apart
  have hmem := List.mem_of_getElem? hthread
  have hadm := (hkept.promise thread hmem).1
  obtain ⟨hknown, hsweep, hpicked, hapart⟩ := hkept.notes thread hmem
  have hnext : nextCall p i = some thread.call := by
    rw [nextCall, hthread]
    rfl
  rw [hstate]
  refine (perform_effect cfg faults p.state hadm).unaltered hkept.state.1 hadm hsweep hpicked hapart ?_ ?_
  · intro guard total hash hcall version hversion
    rw [hcall] at hadm
    exact (hknown _ _ hadm.1).2 version hversion
  · intro guard total hash hcall haccepts
    rw [Settled, hnext, hcall] at hset
    exact (hset haccepts).1

def rewritten : World :=
  (World.fresh 0).trace (sample .memory) [newFile 7, .writeBytes 7 0 [1, 2], .commitNode 7, .writeBytes 7 0 [3]]

def Call.isAttach : Call → Bool
  | .attachChunk _ => true
  | _ => false

def attaching : Option Traffics :=
  Traffics.play (sample .memory) (fun p i => decide (Settled p i)) [.arrive (.writeBytes 7 1 [8]), .go 0 7]
    ⟨rewritten, []⟩

theorem current_unaltered_write : ∃ p q : Traffics, p.state.currentOf 7 = some 1
    ∧ (nextCall p 0).map Call.isAttach = some true
    ∧ p.advance (server (sample .memory) noFaults) 0 = some q ∧ Unaltered p.state q.state := by
  obtain ⟨p, hp, q, hq, hcur, hattach, hset⟩ :
      ∃ p ∈ attaching, ∃ q ∈ p.advance (server (sample .memory) noFaults) 0, p.state.currentOf 7 = some 1
        ∧ (nextCall p 0).map Call.isAttach = some true ∧ Settled p 0 := by
    decide +kernel
  have hstart : Run (sample .memory) (fun _ => True) (fun request => request.isSweep = false) Settled
      ⟨rewritten, []⟩ := .start ((Reachable.fresh 0).trace _) trivial
  have hrun := hstart.play (fun _ _ => of_decide_eq_true) (by simp [Traffic.isSweep]) hp
  exact ⟨p, q, hcur, hattach, hq, current_unaltered hrun hset hq⟩

def lateUpload : Option Traffics :=
  Traffics.play (sample .memory) (fun _ _ => true)
    [.arrive (.stageVersion 7), .go 0 2, .arrive (.uploadChunk 1 ⟨0, 1, ""⟩ [5]), .go 0 4,
      .arrive (.uploadChunk 1 ⟨0, 1, ""⟩ [9]), .go 0 3, .arrive (.commitVersion 1 ⟨1, "", 1, none⟩), .go 1 3]
    ⟨emptyFile, []⟩

theorem upload_alters_committed : ∃ p q : Traffics,
    Run (sample .memory) (fun _ => True) (fun request => request.isSweep = false) (fun _ _ => True) p
      ∧ p.advance (server (sample .memory) noFaults) 0 = some q
      ∧ p.state.currentOf 7 = some 1 ∧ q.state.currentOf 7 = some 1
      ∧ (p.state.rowsOf 1).map FileChunkRecord.objectId = [2]
      ∧ (q.state.rowsOf 1).map FileChunkRecord.objectId = [3] ∧ ¬Unaltered p.state q.state := by
  -- The upload replaces the row of a version that is committed and current.
  obtain ⟨p, hp, q, hq, hbefore, hafter, hold, hnew⟩ :
      ∃ p ∈ lateUpload, ∃ q ∈ p.advance (server (sample .memory) noFaults) 0, p.state.currentOf 7 = some 1
        ∧ q.state.currentOf 7 = some 1 ∧ (p.state.rowsOf 1).map FileChunkRecord.objectId = [2]
        ∧ (q.state.rowsOf 1).map FileChunkRecord.objectId = [3] := by
    decide +kernel
  have hstart : Run (sample .memory) (fun _ => True) (fun request => request.isSweep = false) (fun _ _ => True)
      ⟨emptyFile, []⟩ := .start ((Reachable.fresh 0).trace _) trivial
  refine ⟨p, q, hstart.play (fun _ _ _ => trivial) ?_ hp, hq, hbefore, hafter, hold, hnew, fun halt => ?_⟩
  · intro request hmem
    simp only [List.mem_cons, Turn.arrive.injEq, reduceCtorEq, List.not_mem_nil, or_false, false_or] at hmem
    rcases hmem with rfl | rfl | rfl | rfl <;> rfl
  · rw [(halt 7 1 hbefore hafter).2, hold] at hnew
    cases hnew

end Dcfs
