import Dcfs.Pool.Collector

namespace Dcfs

open Effects Outcomes Tables World

def Based (n : Uuid) (w : World) : Prop := ∀ x ∈ w.stagingOf n, x.baseVersionId = w.currentOf n

/--
On node `n`, a version is made only from what is current when the repository makes it, and only the
one version that is open is committed.
-/
def InStep (n : Uuid) (p : Traffics) (i : ℕ) : Prop :=
  match nextCall p i with
  | some (.createStagingVersion nodeId base _) => nodeId = n → base = p.state.currentOf n
  | some (.commitVersion guard _ _) => guard.nodeId = n → p.state.Accepts guard →
      (p.state.stagingOf n).map FileVersionRecord.id = [guard.versionId]
  | _ => True

instance (n : Uuid) (p : Traffics) (i : ℕ) : Decidable (InStep n p i) := by
  unfold InStep
  split <;> infer_instance

variable {cfg : Config} {faults : Faults} {w t : World} {n : Uuid}

theorem request_note (c : Call) (r : c.Reply) (m : Memo) : (Memo.note c r m).request = m.request := by
  unfold Memo.note Memo.mark Memo.meet
  split <;> first | rfl | (split_ifs <;> rfl)

theorem Effect.staging_origin {c : Call} (h : Effect cfg w c t) (hpurge : ∀ cutoff, c ≠ .purgeEmptyDeadVersions cutoff)
    {x : FileVersionRecord} (hx : x ∈ t.stagingOf n) :
    (∃ old ∈ w.stagingOf n, x.id = old.id ∧ x.baseVersionId = old.baseVersionId)
      ∨ ∃ base chunkSize, c = .createStagingVersion n base chunkSize ∧ x.baseVersionId = base := by
  obtain ⟨⟨id, hid⟩, hn, hs⟩ := mem_stagingOf.mp hx
  cases h with
  | quiet h => exact .inl ⟨x, mem_stagingOf.mpr ⟨⟨id, h.versions ▸ hid⟩, hn, hs⟩, rfl, rfl⟩
  | staged hnode =>
    rw [lookup_addVersion] at hid
    split_ifs at hid
    · cases hid
      cases hn
      exact .inr ⟨_, _, rfl, rfl⟩
    · exact .inl ⟨x, mem_stagingOf.mpr ⟨⟨id, hid⟩, hn, hs⟩, rfl, rfl⟩
  | touched v size =>
    simp only [World.touchStagingVersion, lookup_modify] at hid
    split_ifs at hid
    · obtain ⟨old, hold, rfl⟩ := Option.map_eq_some_iff.mp hid
      split_ifs at hn hs ⊢ with hstate
      · exact .inl ⟨old, mem_stagingOf.mpr ⟨⟨id, hold⟩, hn, hstate⟩, rfl, rfl⟩
      · exact .inl ⟨old, mem_stagingOf.mpr ⟨⟨id, hold⟩, hn, hs⟩, rfl, rfl⟩
    · exact .inl ⟨x, mem_stagingOf.mpr ⟨⟨id, hid⟩, hn, hs⟩, rfl, rfl⟩
  | committed hnode hguard hversion hstate =>
    rw [lookup_switch] at hid
    split_ifs at hid
    · cases hid
      cases hs
    · obtain ⟨old, hold, rfl⟩ := Option.map_eq_some_iff.mp hid
      unfold supersededBy at hn hs ⊢
      split_ifs at hn hs ⊢
      exact .inl ⟨old, mem_stagingOf.mpr ⟨⟨id, hold⟩, hn, hs⟩, rfl, rfl⟩
    · exact .inl ⟨x, mem_stagingOf.mpr ⟨⟨id, hid⟩, hn, hs⟩, rfl, rfl⟩
  | purged cutoff => exact absurd rfl (hpurge cutoff)
  | attached row => exact .inl ⟨x, hx, rfl, rfl⟩
  | copied source v first last => exact .inl ⟨x, hx, rfl, rfl⟩
  | forgotten o => exact .inl ⟨x, hx, rfl, rfl⟩
  | dropped o => exact .inl ⟨x, hx, rfl, rfl⟩

theorem staging_of_commit (hw : Orderly w) {guard : CommitGuard} {node : NodeRecord}
    {version : FileVersionRecord} (honly : (w.stagingOf n).map FileVersionRecord.id = [guard.versionId])
    (total : ℤ) (hash : String) (b : Backend) :
    (w.switchTo b guard.nodeId guard.versionId node (w.committed version total hash)).stagingOf n = [] := by
  refine List.eq_nil_iff_forall_not_mem.mpr fun x hx => ?_
  obtain ⟨⟨id, hid⟩, hn, hs⟩ := mem_stagingOf.mp hx
  have hback : ∀ {old}, w.versions.lookup id = some old → old ∈ w.stagingOf n → id = guard.versionId := by
    intro old hold hmem
    have := List.mem_map_of_mem (f := FileVersionRecord.id) hmem
    rw [honly, List.mem_singleton, (hw.ids hold).1] at this
    exact this
  rw [lookup_switch] at hid
  split_ifs at hid with h1 h2
  · cases hid
    cases hs
  · obtain ⟨old, hold, rfl⟩ := Option.map_eq_some_iff.mp hid
    unfold supersededBy at hn hs
    split_ifs at hn hs
    exact h1 (hback hold (mem_stagingOf.mpr ⟨⟨id, hold⟩, hn, hs⟩))
  · exact h1 (hback hid (mem_stagingOf.mpr ⟨⟨id, hid⟩, hn, hs⟩))

theorem Based.advance {p : Traffics} {i : ℕ} {thread : Thread Api Memo} (hthread : p.threads[i]? = some thread)
    (hin : InStep n p i) (hw : Orderly p.state) (hb : Based n p.state)
    (hpurge : ∀ cutoff, thread.call ≠ .purgeEmptyDeadVersions cutoff)
    (h : Effect cfg p.state thread.call t) : Based n t := by
  have hnext : nextCall p i = some thread.call := by rw [nextCall, hthread]; rfl
  intro x hx
  rcases h.currentOf n with hsame | ⟨guard, total, hash, hcall, hn, -⟩
  · rw [hsame]
    rcases h.staging_origin hpurge hx with ⟨old, hold, -, hbase⟩ | ⟨base, chunkSize, hcall, hbase⟩
    · rw [hbase, hb old hold]
    · rw [InStep, hnext, hcall] at hin
      rw [hbase, hin rfl]
  · rw [InStep, hnext, hcall] at hin
    rw [hcall] at h
    cases h with
    | quiet hquiet =>
      rw [hquiet.current]
      obtain ⟨⟨id, hid⟩, hrest⟩ := mem_stagingOf.mp hx
      exact hb x (mem_stagingOf.mpr ⟨⟨id, hquiet.versions ▸ hid⟩, hrest⟩)
    | committed hnode hguard hversion hstate =>
      rw [staging_of_commit hw (hin hn.symm ⟨_, hnode, hguard⟩)] at hx
      cases hx

theorem Run.based {p : Traffics}
    (h : Run cfg (Based n) (fun request => request.isSweep = false) (InStep n) p) :
    Kept (Based n) (fun m _ => m.request.isSweep = false) p := by
  refine h.kept (fun _ _ hs => hs) (fun _ _ hb => hb) (fun _ _ _ hm => hm) (fun _ _ hr => hr)
    fun p q i faults hp hin hq => ?_
  refine Kept.step hp hq fun thread hthread hadm _ _ hmine heffect => ⟨?_, ?_, fun _ _ hother => hother⟩
  · refine Based.advance hthread hin hp.state.1 hp.state.2 (fun cutoff hcall => ?_) heffect
    rw [hcall] at hadm
    exact absurd hadm (by rw [Memo.Admits, hmine]; exact Bool.false_ne_true)
  · rw [request_note]
    exact hmine

theorem commit_replaces_base {p : Traffics}
    (h : Run cfg (Based n) (fun request => request.isSweep = false) (InStep n) p) {i : ℕ}
    {thread : Thread Api Memo} {guard : CommitGuard} {total : ℤ} {hash : String}
    (hthread : p.threads[i]? = some thread) (hcall : thread.call = .commitVersion guard total hash)
    (hnode : guard.nodeId = n) (hin : InStep n p i) {version : FileVersionRecord}
    (hok : (p.state.commitVersion cfg.backend guard total hash).1 = .ok version) :
    version.baseVersionId = p.state.currentOf n := by
  have hkept := h.based
  have hnext : nextCall p i = some (.commitVersion guard total hash) := by
    rw [nextCall, hthread, ← hcall]
    rfl
  rw [InStep, hnext] at hin
  unfold World.commitVersion at hok
  split at hok
  · cases hok
  · rename_i node hlook
    split_ifs at hok with hguard
    rw [not_or, not_not, not_not] at hguard
    have honly := hin hnode ⟨node, hlook, hguard⟩
    split at hok
    · cases hok
    · rename_i old hold
      split_ifs at hok
      cases hok
      have hmem : guard.versionId ∈ (p.state.stagingOf n).map FileVersionRecord.id := by
        rw [honly]
        exact List.mem_singleton_self _
      obtain ⟨x, hx, hid⟩ := List.mem_map.mp hmem
      obtain ⟨⟨key, hkey⟩, -⟩ := mem_stagingOf.mp hx
      rw [(hkept.state.1.ids hkey).1] at hid
      rw [hid, hold] at hkey
      cases hkey
      exact hkept.state.2 old hx

def emptyFile : World := (World.fresh 0).trace (sample .memory) [newFile 7]

theorem emptyFile_based : Based 7 emptyFile := by
  have hnone : emptyFile.stagingOf 7 = [] := rfl
  intro x hx
  rw [hnone] at hx
  cases hx

def Call.committing : Call → Option (CommitGuard × ℤ × String)
  | .commitVersion guard total hash => some (guard, total, hash)
  | _ => none

theorem Call.eq_of_committing {c : Call} {guard : CommitGuard} {total : ℤ} {hash : String}
    (h : c.committing = some (guard, total, hash)) : c = .commitVersion guard total hash := by
  cases c with
  | commitVersion guard' total' hash' =>
    cases h
    rfl
  | _ => cases h

def openWrite : World := (World.fresh 0).trace (sample .memory) [newFile 7, .writeBytes 7 0 [1]]

theorem openWrite_based : Based 7 openWrite := by
  have hbased : (openWrite.stagingOf 7).map FileVersionRecord.baseVersionId = [none] := rfl
  intro x hx
  have hmem := List.mem_map_of_mem (f := FileVersionRecord.baseVersionId) hx
  rw [hbased, List.mem_singleton] at hmem
  exact hmem

def syncing : Option Traffics :=
  Traffics.play (sample .memory) (fun p i => decide (InStep 7 p i)) [.arrive (.commitNode 7), .go 0 4]
    ⟨openWrite, []⟩

theorem commit_replaces_base_sync : ∃ (p : Traffics) (version : FileVersionRecord),
    (nextCall p 0).bind Call.committing = some (⟨7, 1, 1, none⟩, 1, version.plaintextHash)
      ∧ version.baseVersionId = p.state.currentOf 7 := by
  obtain ⟨p, hp, thread, hthread, ⟨guard, total, hash⟩, hcall, version, hok, rfl, rfl, rfl, hstep⟩ :
      ∃ p ∈ syncing, ∃ thread ∈ p.threads[0]?, ∃ commit ∈ thread.call.committing,
        ∃ version ∈ (p.state.commitVersion .memory commit.1 commit.2.1 commit.2.2).1.toOption,
          commit.1 = ⟨7, 1, 1, none⟩ ∧ commit.2.1 = 1 ∧ commit.2.2 = version.plaintextHash ∧ InStep 7 p 0 := by
    decide +kernel
  have hstart : Run (sample .memory) (Based 7) (fun request => request.isSweep = false) (InStep 7)
      ⟨openWrite, []⟩ := .start ((Reachable.fresh 0).trace _) openWrite_based
  have hrun := hstart.play (fun _ _ => of_decide_eq_true) (by simp [Traffic.isSweep]) hp
  refine ⟨p, version, by rw [nextCall, hthread]; exact hcall, ?_⟩
  exact commit_replaces_base hrun hthread (Call.eq_of_committing hcall) rfl hstep (ok_of_toOption hok)

def overtaken : Option Traffics :=
  Traffics.play (sample .memory) (fun _ _ => true)
    [.arrive (.writeBytes 7 0 [1]), .go 0 11, .arrive (.stageVersion 7), .go 0 2,
      .arrive (.uploadChunk 3 ⟨0, 1, ""⟩ [5]), .go 0 4, .arrive (.commitVersion 3 ⟨1, "", 2, none⟩), .go 0 3,
      .arrive (.commitNode 7), .go 0 4] ⟨emptyFile, []⟩

theorem commit_replaces_newer : ∃ (p : Traffics) (thread : Thread Api Memo) (guard : CommitGuard) (total : ℤ)
    (hash : String) (version : FileVersionRecord),
    Run (sample .memory) (Based 7) (fun request => request.isSweep = false) (fun _ _ => True) p
      ∧ p.threads[0]? = some thread ∧ thread.call = .commitVersion guard total hash ∧ guard.nodeId = 7
      ∧ (p.state.commitVersion .memory guard total hash).1 = .ok version
      ∧ p.state.currentOf 7 = some 3 ∧ version.baseVersionId = none := by
  obtain ⟨p, hp, thread, hthread, ⟨guard, total, hash⟩, hcall, version, hok, hnode, hcur, hbase⟩ :
      ∃ p ∈ overtaken, ∃ thread ∈ p.threads[0]?, ∃ commit ∈ thread.call.committing,
        ∃ version ∈ (p.state.commitVersion .memory commit.1 commit.2.1 commit.2.2).1.toOption,
          commit.1.nodeId = 7 ∧ p.state.currentOf 7 = some 3 ∧ version.baseVersionId = none := by
    decide +kernel
  have hstart : Run (sample .memory) (Based 7) (fun request => request.isSweep = false) (fun _ _ => True)
      ⟨emptyFile, []⟩ := .start ((Reachable.fresh 0).trace _) emptyFile_based
  refine ⟨p, thread, guard, total, hash, version, hstart.play (fun _ _ _ => trivial) ?_ hp, hthread,
    Call.eq_of_committing hcall, hnode, ok_of_toOption hok, hcur, hbase⟩
  intro request hmem
  simp only [List.mem_cons, Turn.arrive.injEq, reduceCtorEq, List.not_mem_nil, or_false, false_or] at hmem
  rcases hmem with rfl | rfl | rfl | rfl | rfl <;> rfl

end Dcfs
