import Dcfs.Fuse.Recording
import Dcfs.Fuse.Rollback
import Dcfs.Fuse.Upkeep

namespace Dcfs.Fuse

open Effects Fs Tables Routine

def RunsRecorded (m : Mount) (s : Recording) : Prop :=
  ∀ ino run path data, m.pending.lookup ino = some run → run.logPath = some path →
    s.log.files.lookup path = some data → data <+: run.data

structure Tracks (setup : Setup) (m : Mount) (s : Recording) : Prop where
  sane : m.Sane
  sound : s.Sound
  linked : ∀ {ino run path}, m.pending.lookup ino = some run → run.logPath = some path → setup.hasLog = true
    ∧ ∃ nodeId, m.byIno.lookup ino = some nodeId ∧ s.accepted.lookup path = some ⟨nodeId, run.offset, run.data⟩

def guardedRecording : Rules Client Recording := (recording NoGap).guarded Recording.Sound

variable {setup : Setup} {m m' : Mount} {s t : Recording} {ino : ℕ} {run run' : PendingWrite} {path : Path}
  {nodeId : Uuid}

theorem Tracks.recorded (h : Tracks setup m s) : RunsRecorded m s := by
  intro ino run path data hrun hpath hdata
  obtain ⟨-, nodeId, -, haccepted⟩ := h.linked hrun hpath
  exact (h.sound.upTo haccepted hdata).1

theorem Tracks.sanely (h : Tracks setup m s) (hsane : m'.Sane)
    (hpending : ∀ ino run, m'.pending.lookup ino = some run → m.pending.lookup ino = some run
      ∧ ∀ nodeId, m.byIno.lookup ino = some nodeId → m'.byIno.lookup ino = some nodeId) : Tracks setup m' s where
  sane := hsane
  sound := h.sound
  linked hrun hpath := by
    obtain ⟨hold, hbound⟩ := hpending _ _ hrun
    obtain ⟨hlog, nodeId, hid, haccepted⟩ := h.linked hold hpath
    exact ⟨hlog, nodeId, hbound nodeId hid, haccepted⟩

theorem Tracks.later (h : Tracks setup m s) (hm : m.Later m') : Tracks setup m' s :=
  h.sanely hm.sane fun _ _ hrun => ⟨hm.pending ▸ hrun, fun _ => hm.bound⟩

theorem Tracks.dropPending (h : Tracks setup m s) (ino : ℕ) : Tracks setup (m.dropPending ino) s := by
  apply h.sanely (h.sane.dropPending ino)
  intro i run hrun
  rw [Mount.dropPending, lookup_erase] at hrun
  split_ifs at hrun
  exact ⟨hrun, fun _ hid => hid⟩

theorem Tracks.drain (h : Tracks setup m s) : Tracks setup { m with pending := ∅ } s := by
  have hnone : ∀ {i run}, ({ m with pending := ∅ } : Mount).pending.lookup i ≠ some run := by
    intro i run hrun
    rw [AList.lookup_empty] at hrun
    cases hrun
  exact h.sanely ⟨⟨h.sane.pairs, h.sane.below⟩, fun hrun => absurd hrun hnone⟩ fun i run hrun => absurd hrun hnone

theorem Tracks.unbind (h : Tracks setup m s) (hid : m.byIno.lookup ino = some nodeId)
    (hnone : m.pending.lookup ino = none) : Tracks setup (m.unbind ino nodeId) s := by
  apply h.sanely (h.sane.unbind hid hnone)
  intro i run hrun
  refine ⟨hrun, fun id hid' => ?_⟩
  have hne : i ≠ ino := by
    rintro rfl
    exact Option.some_ne_none _ (hrun.symm.trans hnone)
  rw [Mount.unbind, lookup_erase, if_neg hne]
  exact hid'

theorem Tracks.path_ne (h : Tracks setup m s) {i : ℕ} (hne : i ≠ ino) (hrun : m.pending.lookup ino = some run)
    (hpath : run.logPath = some path) (hrun' : m.pending.lookup i = some run') : run'.logPath ≠ some path := by
  intro hpath'
  obtain ⟨-, id, hid, haccepted⟩ := h.linked hrun hpath
  obtain ⟨-, id', hid', haccepted'⟩ := h.linked hrun' hpath'
  have hsame : id' = id := congrArg PendingRun.nodeId (Option.some.inj (haccepted'.symm.trans haccepted))
  rw [hsame] at hid'
  exact hne (Option.some.inj ((h.sane.pairs.mp hid').symm.trans (h.sane.pairs.mp hid)))

theorem Tracks.setPending (h : Tracks setup m s) (hsound : t.Sound) (hid : m.byIno.lookup ino = some nodeId)
    (hown : ∀ path, run'.logPath = some path → setup.hasLog = true
      ∧ t.accepted.lookup path = some ⟨nodeId, run'.offset, run'.data⟩)
    (hothers : ∀ i run path, i ≠ ino → m.pending.lookup i = some run → run.logPath = some path →
      t.accepted.lookup path = s.accepted.lookup path) : Tracks setup (m.setPending ino run') t where
  sane := h.sane.setPending hid run'
  sound := hsound
  linked {i run path} hrun hpath := by
    rw [Mount.setPending, lookup_insert] at hrun
    split_ifs at hrun with hi
    · cases hrun
      subst hi
      obtain ⟨hlog, haccepted⟩ := hown path hpath
      exact ⟨hlog, nodeId, hid, haccepted⟩
    · obtain ⟨hlog, id, hid', haccepted⟩ := h.linked hrun hpath
      exact ⟨hlog, id, hid', (hothers i run path hi hrun hpath).trans haccepted⟩

theorem extend_taking {data : Bytes} {r : Bool} (ho : (recording NoGap).outcome (.extendRun path data) s r t)
    (h : s.Sound) : t.Sound ∧ t.accepted = s.taking path data := by
  cases r with
  | true =>
    obtain ⟨old, hold, hgap, rfl⟩ := ho
    exact ⟨h.appended hold hgap, rfl⟩
  | false =>
    obtain rfl : t = s.unappended path data := ho
    exact ⟨h.unappended path data, rfl⟩

theorem Tracks.extend (h : Tracks setup m s) (hrun : m.pending.lookup ino = some run) (data : Bytes) :
    Meets guardedRecording (extend setup run data)
      (fun out m' t => out = .ok () ∧ m' = m ∧ Tracks setup (m.setPending ino (run.grown data)) t) m s := by
  obtain ⟨nodeId, hid⟩ := h.sane.held hrun
  unfold Fuse.extend
  split
  · rename_i path hlog hpath
    refine .bind (.ask ⟨trivial, h.sound⟩ fun r t ho => .ok ⟨rfl, rfl, ?_⟩)
    obtain ⟨hsound, haccepted⟩ := extend_taking ho h.sound
    apply h.setPending hsound hid
    · intro path' hpath'
      cases hpath.symm.trans hpath'
      obtain ⟨-, id, hid', hold⟩ := h.linked hrun hpath
      cases hid.symm.trans hid'
      rw [haccepted, Recording.lookup_taking, if_pos rfl, hold]
      exact ⟨hlog, rfl⟩
    · intro i run' path' hi hrun' hpath'
      have hne : path' ≠ path := by
        rintro rfl
        exact h.path_ne hi hrun hpath hrun' hpath'
      rw [haccepted, Recording.lookup_taking, if_neg hne]
  · rename_i hnot
    refine .ok ⟨rfl, rfl, h.setPending h.sound hid (fun path hpath => ?_) fun _ _ _ _ _ _ => rfl⟩
    exact absurd hpath (hnot path (h.linked hrun hpath).1)

theorem Tracks.start (h : Tracks setup m s) (hid : m.byIno.lookup ino = some nodeId) (offset : ℕ) (data : Bytes) :
    Meets guardedRecording (startRun setup nodeId offset data)
      (fun out m' t => ∃ run, out = .ok run ∧ m' = m ∧ Tracks setup (m.setPending ino run) t) m s := by
  refine .bind ?_
  unfold beginRecord
  split_ifs with hlog
  · refine .ask ⟨trivial, h.sound⟩ fun r t ho => .ok ⟨_, rfl, rfl, ?_⟩
    cases r with
    | some path =>
      obtain ⟨new, rfl⟩ := ho
      apply h.setPending (h.sound.begun new _) hid
      · rintro _ ⟨⟩
        exact ⟨hlog, by rw [Recording.begun, lookup_insert, if_pos rfl]⟩
      · intro i run path' _ hrun hpath
        obtain ⟨-, id, -, haccepted⟩ := h.linked hrun hpath
        have hne : path' ≠ path := by
          rintro rfl
          exact Option.some_ne_none _ (haccepted.symm.trans new.accepted)
        rw [Recording.begun, lookup_insert, if_neg hne]
    | none =>
      rcases ho with rfl | ⟨path, bytes, new, rfl⟩
      · exact h.setPending h.sound hid (fun path hpath => by cases hpath) fun _ _ _ _ _ _ => rfl
      · exact h.setPending (h.sound.orphaned new bytes) hid (fun path hpath => by cases hpath) fun _ _ _ _ _ _ => rfl
  · exact .ok (.ok ⟨_, rfl, rfl, h.setPending h.sound hid (fun path hpath => by cases hpath) fun _ _ _ _ _ _ => rfl⟩)

theorem lookup_foldl_erase {files : Table Path Bytes} (paths : List Path) {data : Bytes}
    (h : (paths.foldl (fun files path => files.erase path) files).lookup path = some data) :
    files.lookup path = some data := by
  induction paths generalizing files with
  | nil => exact h
  | cons head rest ih =>
    have herased := ih h
    rw [lookup_erase] at herased
    split_ifs at herased
    exact herased

theorem Tracks.call {c : ClientCall} (hc : c.isRecord = false) : Allows guardedRecording (Tracks setup) c := by
  intro m s h
  refine ⟨⟨trivial, h.sound⟩, fun r t ho => ?_⟩
  cases c with
  | beginRun _ _ _ | extendRun _ _ => cases hc
  | finishRun path =>
    rcases ho with rfl | rfl
    · exact h
    · refine ⟨h.sane, h.sound.of_fewer (fun _ hentry => hentry) fun path' data hdata => ?_, h.linked⟩
      rw [WriteLog.finish, lookup_erase] at hdata
      split_ifs at hdata
      exact hdata
  | resetLog =>
    rcases ho with ⟨-, rfl⟩ | ⟨-, rfl⟩
    · exact ⟨h.sane, h.sound.of_fewer (fun _ hentry => absurd hentry List.not_mem_nil)
        fun _ _ hdata => lookup_foldl_erase _ hdata, h.linked⟩
    · exact h
  | _ =>
    obtain rfl : t = s := ho
    exact h

theorem tracks_upheld (setup : Setup) : Upheld setup guardedRecording (Tracks setup) where
  call _ hc _ := Tracks.call hc
  supplies nodeId versionId :=
    ⟨_, .of_aside (fun _ hc => Tracks.call (ClientCall.not_record_of_aside hc)) nodeId versionId⟩
  learns hlearns h := h.later (hlearns.later h.sane)
  drop ino h := h.dropPending ino
  drain h := h.drain
  unbind h := h.unbind
  extend data h hrun := h.extend hrun data
  start offset data h hid _ := h.start hid offset data

abbrev Logs (setup : Setup) (mayAppend : Recording → Path → Bytes → Prop) : Mount → Recording → Prop :=
  Lives setup (recording mayAppend) (fun _ _ => False) Recording.Opened

theorem Logs.tracks (h : Logs setup NoGap m s) : Tracks setup m s := by
  apply Lives.keeps (fun act m s hinv => Program.Meets.of_guarded ((tracks_upheld setup).act act m s hinv)) _ _ h
  · intro rootId s hopened
    refine ⟨Mount.fresh_sane rootId, hopened.sound, fun hrun => ?_⟩
    rw [Mount.fresh, AList.lookup_empty] at hrun
    cases hrun
  · intro _ _ _ _ hdrift
    exact hdrift.elim

theorem records_without_gaps (h : Logs setup NoGap m s) : RunsRecorded m s ∧ s.Replayable
    ∧ ∀ (act : Act) t, Program.Stops (recording NoGap) (act.run setup m) s t → t.Replayable := by
  have htracks := h.tracks
  refine ⟨htracks.recorded, htracks.sound.replayable, fun act t hstops => ?_⟩
  have hsound : t.Sound :=
    Program.Meets.stops ((tracks_upheld setup).act act m s htracks) (fun _ _ hend => hend.sound) hstops
  exact hsound.replayable

instance (s : Recording) (path : Path) : Decidable (s.Unused path) :=
  decidable_of_iff (s.accepted.lookup path = none ∧ path ∉ s.log.paths ∧ s.log.files.lookup path = none)
    ⟨fun h => ⟨h.1, h.2.1, h.2.2⟩, fun h => ⟨h.accepted, h.journal, h.files⟩⟩

def shaky (works : Bool) : (c : ClientCall) → Recording → c.Reply × Recording
  | .beginRun nodeId offset data, s =>
    if new : s.Unused 5 then (some 5, s.begun 5 new.journal ⟨nodeId, offset, data⟩) else (none, s)
  | .extendRun path data, s =>
    match works, s.log.files.lookup path with
    | true, some old => (true, s.appended path old data)
    | _, _ => (false, s.unappended path data)
  | .finishRun path, s => ((), s.finished path)
  | .resetLog, s => (.error "", s)
  | c, s => ((oneFile true c []).1, s)

theorem shaky_recording {mayAppend : Recording → Path → Bytes → Prop} {works : Bool}
    (h : works = true → ∀ s path data, mayAppend s path data) (c : ClientCall) (s : Recording) :
    (recording mayAppend).outcome c s (shaky works c s).1 (shaky works c s).2 := by
  cases c with
  | beginRun nodeId offset data =>
    by_cases new : s.Unused 5
    · simp only [shaky, new, dite_true]
      exact ⟨new, rfl⟩
    · simp only [shaky, new, dite_false]
      exact .inl rfl
  | extendRun path data =>
    cases works with
    | false => exact rfl
    | true =>
      cases hold : s.log.files.lookup path with
      | none =>
        simp only [shaky, hold]
        exact rfl
      | some old =>
        simp only [shaky, hold]
        exact ⟨old, hold, h rfl s path data, rfl⟩
  | finishRun path => exact .inr rfl
  | resetLog => exact .inr ⟨nofun, rfl⟩
  | _ => exact rfl

def wrote (works : Bool) (offset : ℕ) (data : Bytes) (at₀ : Mount × Recording) : Mount × Recording :=
  let ended := ((Act.op (.write 1 offset data)).run logging at₀.1).run (shaky works) at₀.2
  (ended.1.2, ended.2)

theorem Logs.wrote {mayAppend : Recording → Path → Bytes → Prop} {works : Bool}
    (hmay : works = true → ∀ s path data, mayAppend s path data) {at₀ : Mount × Recording}
    (h : Logs logging mayAppend at₀.1 at₀.2) (offset : ℕ) (data : Bytes) :
    Logs logging mayAppend (wrote works offset data at₀).1 (wrote works offset data at₀).2 :=
  .step h (Program.run_ends (shaky_recording hmay) _ _)

def emptyLog : Mount × Recording := (.fresh 7, ⟨.empty, ∅, []⟩)

theorem emptyLog_logs (mayAppend : Recording → Path → Bytes → Prop) : Logs logging mayAppend emptyLog.1 emptyLog.2 :=
  .start 7 ⟨rfl, fun _ => rfl, fun _ hentry => absurd hentry List.not_mem_nil⟩

def behind : Mount × Recording := wrote false 1 [2] (wrote false 0 [1] emptyLog)

theorem behind_without_gap : behind.1.pending.lookup 1 = some ⟨0, [1, 2], some 5⟩
    ∧ behind.2.log.files.lookup 5 = some [1] ∧ RunsRecorded behind.1 behind.2 :=
  ⟨by decide, by decide,
    (records_without_gaps (((emptyLog_logs NoGap).wrote nofun 0 [1]).wrote nofun 1 [2])).1⟩

theorem third_byte_misplaced : ∃ m s, Logs logging (fun _ _ _ => True) m s ∧ ¬ RunsRecorded m s ∧ ¬ s.Replayable := by
  -- The third byte gets to the log, and takes the place of the second.
  have hlogs : ∀ may, (∀ s path data, may s path data) → Logs logging may (wrote true 2 [3] behind).1
      (wrote true 2 [3] behind).2 := fun may hmay =>
    (((emptyLog_logs may).wrote nofun 0 [1]).wrote nofun 1 [2]).wrote (fun _ => hmay) 2 [3]
  refine ⟨_, _, hlogs _ fun _ _ _ => trivial, fun hrecorded => ?_, fun hreplayable => ?_⟩
  · exact absurd (hrecorded 1 ⟨0, [1, 2, 3], some 5⟩ 5 [1, 3] (by decide) rfl (by decide)) (by decide)
  · obtain ⟨whole, hwhole, hbytes⟩ := hreplayable 5 ⟨7, 0, [1, 3]⟩ ⟨by decide, by decide⟩
    have haccepted : (wrote true 2 [3] behind).2.accepted.lookup 5 = some ⟨7, 0, [1, 2, 3]⟩ := by decide
    cases haccepted.symm.trans hwhole
    exact absurd (hbytes 7 1 3 (by decide)) (by decide)

end Dcfs.Fuse
