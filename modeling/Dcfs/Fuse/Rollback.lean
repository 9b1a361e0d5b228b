import Dcfs.Fuse.Fsync
import Dcfs.Fuse.Survival

namespace Dcfs.Fuse

open Effects Fs Tables Sparse Outcomes

def succeeding : Rules Client Ledger := journaled fun _ => False

variable {setup : Setup} {own : Option PendingRun} {m : Mount} {s t : Ledger} {nodeId : Uuid} {bytes : Bytes}
  {p : ℕ} {b : UInt8}

structure Replays (nodeId : Uuid) (p : ℕ) (b : UInt8) (runs : List PendingRun) (s : Ledger) : Prop where
  agree : ∀ run ∈ runs, ∀ b', run.byteAt nodeId p = some b' → b' = b
  shown : ∃ bytes, s.files.lookup nodeId = some bytes
    ∧ ((∃ run ∈ runs, run.byteAt nodeId p = some b) ∨ bytes[p]? = some b)

theorem Replays.head {run : PendingRun} {rest : List PendingRun} (h : Replays nodeId p b (run :: rest) s)
    {answer : Served ℕ} (hanswer : succeeding.outcome (.writeFile run.nodeId run.offset run.data) s answer t) :
    Replays nodeId p b rest t := by
  refine ⟨fun r hr => h.agree r (List.mem_cons_of_mem _ hr), ?_⟩
  obtain ⟨bytes, hfile, hshown⟩ := h.shown
  have hlater : run.byteAt nodeId p ≠ some b → (∃ r ∈ run :: rest, r.byteAt nodeId p = some b) →
      ∃ r ∈ rest, r.byteAt nodeId p = some b := by
    rintro hne ⟨r, hmem, hb⟩
    rcases List.mem_cons.mp hmem with rfl | hr
    · exact absurd hb hne
    · exact ⟨r, hr, hb⟩
  cases answer with
  | error e =>
    obtain ⟨hnone, rfl⟩ := hanswer.resolve_right fun hrefused => hrefused.1
    refine ⟨bytes, hfile, hshown.imp_left (hlater fun hb => ?_)⟩
    obtain ⟨rfl, -⟩ := PendingRun.byteAt_eq_some.mp hb
    exact Option.some_ne_none _ (hfile.symm.trans hnone)
  | ok n =>
    obtain ⟨old, hold, rfl⟩ := hanswer
    by_cases hid : nodeId = run.nodeId
    · subst hid
      cases hold.symm.trans hfile
      refine ⟨_, (lookup_insert _ _ _ _).trans (if_pos rfl), ?_⟩
      cases hrun : run.byteAt run.nodeId p with
      | some c =>
        obtain rfl := h.agree run List.mem_cons_self c hrun
        obtain ⟨-, hp, hc⟩ := PendingRun.byteAt_eq_some.mp hrun
        exact .inr (getElem?_overlay_of_mem _ hp hc)
      | none =>
        have hsilent : ∀ b', run.byteAt run.nodeId p ≠ some b' := fun b' => hrun ▸ nofun
        exact hshown.imp (hlater (hsilent b)) (PendingRun.getElem?_overlay_of_byteAt hsilent)
    · refine ⟨bytes, (lookup_insert _ _ _ _).trans ((if_neg hid).trans hfile), hshown.imp_left (hlater fun hb => ?_)⟩
      exact hid (PendingRun.byteAt_eq_some.mp hb).1.symm

theorem replay_shows {runs : List PendingRun} (h : Replays nodeId p b runs s) :
    Routine.Meets succeeding (replay runs) (fun out _ t => (∃ n, out = .ok n) ∧ Replays nodeId p b [] t) m s := by
  induction runs generalizing s with
  | nil => exact .ok ⟨⟨0, rfl⟩, h⟩
  | cons run rest ih =>
    refine .bind (.ask trivial fun answer t hanswer => .bind ((ih (h.head hanswer)).mono ?_))
    rintro _ m' t' ⟨⟨n, rfl⟩, hend⟩
    cases answer with
    | error e => exact .ok ⟨⟨n, rfl⟩, hend⟩
    | ok _ => exact .ok ⟨⟨n + 1, rfl⟩, hend⟩

theorem Ledger.Sound.replays (h : s.Sound own) (hfile : s.files.lookup nodeId = some bytes)
    (hb : s.latest own nodeId p = some b) : Replays nodeId p b s.log.takePending s := by
  obtain ⟨hagree, hshown⟩ := h nodeId bytes p b hfile hb
  refine ⟨fun run hmem b' hb' => ?_, bytes, hfile, hshown.imp_left fun ⟨path, run, hholds, hrun⟩ => ?_⟩
  · obtain ⟨-, path, hholds⟩ := WriteLog.mem_takePending.mp hmem
    exact hagree b' ⟨path, run, hholds, hb'⟩
  · refine ⟨run, WriteLog.mem_takePending.mpr ⟨fun hnil => ?_, path, hholds⟩, hrun⟩
    obtain ⟨-, -, hc⟩ := PendingRun.byteAt_eq_some.mp hrun
    rw [hnil] at hc
    cases hc

theorem recover_shows (hlog : setup.hasLog = true) (h : Replays nodeId p b s.log.takePending s) :
    Routine.Meets succeeding (recover setup) (fun out _ t => (∃ n, out = .ok n)
      ∧ ∃ bytes, t.files.lookup nodeId = some bytes ∧ bytes[p]? = some b) m s := by
  have hdone : ∀ {t}, Replays nodeId p b [] t → ∃ bytes, t.files.lookup nodeId = some bytes ∧ bytes[p]? = some b := by
    intro t hend
    obtain ⟨bytes, hfile, hshown⟩ := hend.shown
    exact ⟨bytes, hfile, hshown.resolve_left fun ⟨_, hmem, _⟩ => absurd hmem List.not_mem_nil⟩
  rw [recover, hlog]
  refine .bind (.ask trivial ?_)
  rintro _ _ ⟨rfl, rfl⟩
  refine .bind (.ok ?_)
  dsimp only
  split_ifs with hempty
  · rw [List.isEmpty_iff] at hempty
    exact .ok ⟨⟨0, rfl⟩, hdone (hempty ▸ h)⟩
  · refine .bind ((replay_shows h).mono ?_)
    rintro _ m' t ⟨⟨n, rfl⟩, hend⟩
    refine .bind (.ask trivial ?_)
    rintro _ _ ⟨rfl, rfl⟩
    exact .bind (.ok (.ok ⟨⟨n, rfl⟩, hdone ⟨hend.agree, hend.shown⟩⟩))

/--
After a crash at any point of any run, recovery leaves at each position the byte of the latest
acknowledged write, or the one of the write that was in progress. Writes that overlap a run which could
not be sent, and writes that fail over acknowledged bytes, are the exception.
-/
theorem recover_restores {setup setup' : Setup} (hlog : setup.hasLog = true) (hlog' : setup'.hasLog = true)
    {m : Mount} {s crashed : Ledger} (hs : Mounted setup Agreeing Harmless m s) {op : Op} (hop : Agreeing m s op)
    (hcrash : Program.Stops (journaled (Harmless (op.own m))) (op.run setup m) s crashed)
    {rootId : Uuid} {out : Served ℕ} {m' : Mount} {t : Ledger}
    (hrecover : Program.Ends succeeding (recover setup' (.fresh rootId)) crashed (out, m') t)
    {nodeId : Uuid} {p : ℕ} {w : UInt8} (hfile : (crashed.files.lookup nodeId).isSome = true)
    (hw : crashed.wanted nodeId p = some w) :
    ∃ bytes, t.files.lookup nodeId = some bytes ∧ (bytes[p]? = some w
      ∨ ∃ run b, op.own m = some run ∧ run.byteAt nodeId p = some b ∧ bytes[p]? = some b) := by
  obtain ⟨hdurable, hrec⟩ := hs.durable hlog
  have hsound : crashed.Sound (op.own m) :=
    Program.Meets.stops (Op.durable hlog hdurable hrec hop) (fun _ _ hend => hend.1) hcrash
  obtain ⟨bytes, hbytes⟩ := Option.isSome_iff_exists.mp hfile
  have hends : ∀ b, crashed.latest (op.own m) nodeId p = some b →
      ∃ bytes, t.files.lookup nodeId = some bytes ∧ bytes[p]? = some b :=
    fun b hb => ((recover_shows hlog' (hsound.replays hbytes hb)).ends hrecover).2
  cases hown : ((if crashed.recorded then op.own m else none).bind fun run => run.byteAt nodeId p) with
  | none =>
    obtain ⟨bytes', hfound, hat⟩ := hends w (by rw [Ledger.latest, withRun, hown, Option.none_or, hw])
    exact ⟨bytes', hfound, .inl hat⟩
  | some b =>
    obtain ⟨bytes', hfound, hat⟩ := hends b (by rw [Ledger.latest, withRun, hown, Option.some_or])
    obtain ⟨run, hrun, hb⟩ := Option.bind_eq_some_iff.mp hown
    rw [Option.ite_none_right_eq_some] at hrun
    exact ⟨bytes', hfound, .inr ⟨run, b, hrun.2, hb, hat⟩⟩

def logging : Setup := { bare with hasLog := true }

def tracked (takes : Bool) : (c : ClientCall) → Ledger → c.Reply × Ledger
  | .writeFile nodeId offset data, s =>
    match s.files.lookup nodeId with
    | some bytes =>
      if takes then (.ok data.length, s.put nodeId (overlay bytes offset data)) else (.error .backendUnavailable, s)
    | none => (.error .notFound, s)
  | .patchNode nodeId req, s => (.ok emptyReport, s.cutAt nodeId req.size)
  | .beginRun nodeId offset data, s => (some s.log.unused,
      { s with log := s.log.begin s.log.unused s.log.unused_fresh nodeId offset data, recorded := true })
  | .extendRun path data, s =>
    ((s.log.extend path data).isSome, { s with log := (s.log.extend path data).getD s.log, recorded := true })
  | .finishRun path, s => ((), { s with log := s.log.finish path })
  | .takePending, s => (.ok s.log.takePending, s)
  | .resetLog, s => (.ok (), { s with log := s.log.reset })
  | c, s => ((oneFile takes c []).1, s)

theorem tracked_journaled {mayRefuse : Ledger → Prop} {takes : Bool} (h : takes = false → ∀ s, mayRefuse s)
    (c : ClientCall) (s : Ledger) :
    (journaled mayRefuse).outcome c s (tracked takes c s).1 (tracked takes c s).2 := by
  cases c with
  | writeFile nodeId offset data =>
    cases hfile : s.files.lookup nodeId with
    | none =>
      simp only [tracked, hfile]
      exact .inl ⟨hfile, rfl⟩
    | some bytes =>
      cases takes with
      | true =>
        simp only [tracked, hfile, if_true]
        exact ⟨bytes, hfile, rfl⟩
      | false =>
        simp only [tracked, hfile, Bool.false_eq_true, if_false]
        exact .inr ⟨h rfl s, .inl rfl⟩
  | patchNode nodeId req => exact .inl rfl
  | createNode _ | deleteNode _ | renameNode _ _ _ => exact .inl rfl
  | beginRun nodeId offset data => exact ⟨_, s.log.unused_fresh, rfl, rfl⟩
  | extendRun path data => exact ⟨rfl, rfl⟩
  | takePending => exact ⟨rfl, rfl⟩
  | resetLog => exact ⟨rfl, rfl⟩
  | _ => exact rfl

def advance (takes : Bool) (op : Op) (now : Mount × Ledger) : Mount × Ledger :=
  let ended := (op.run logging now.1).run (tracked takes) now.2
  (ended.1.2, ended.2.settle (op.own now.1) ended.1.1)

theorem Mounted.advance {allowed : Mount → Ledger → Op → Prop} {mayRefuse : Option PendingRun → Ledger → Prop}
    {now : Mount × Ledger} (h : Mounted logging allowed mayRefuse now.1 now.2) {takes : Bool} {op : Op}
    (hop : allowed now.1 now.2 op) (hrefuse : takes = false → ∀ s, mayRefuse (op.own now.1) s) :
    Mounted logging allowed mayRefuse (Fuse.advance takes op now).1 (Fuse.advance takes op now).2 :=
  .step h hop (Program.run_ends (tracked_journaled hrefuse) _ _)

def recovered (crashed : Ledger) : Ledger := ((recover logging (.fresh 0)).run (tracked true) crashed).2

theorem recovered_ends (crashed : Ledger) : ∃ out m',
    Program.Ends succeeding (recover logging (.fresh 0)) crashed (out, m') (recovered crashed) := by
  have hout : ∀ c s, succeeding.outcome c s (tracked true c s).1 (tracked true c s).2 :=
    tracked_journaled fun h => nomatch h
  exact ⟨_, _, Program.run_ends hout _ _⟩

def mounted : Mount × Ledger := (.fresh 0, ⟨AList.insert 7 [] ∅, .empty, fun _ _ => none, false⟩)

def found : Mount × Ledger := advance true (.lookup 1 [97]) mounted

def written : Mount × Ledger := advance true (.write 2 0 [5]) found

theorem found_mounted {allowed : Mount → Ledger → Op → Prop} {mayRefuse : Option PendingRun → Ledger → Prop}
    (h : ∀ m s parentIno name, allowed m s (.lookup parentIno name)) :
    Mounted logging allowed mayRefuse found.1 found.2 := by
  have hstart : Mounted logging allowed mayRefuse mounted.1 mounted.2 := .start 0 _
  exact hstart.advance (h _ _ _ _) fun hfalse => nomatch hfalse

def unsent : Mount × Ledger := advance false (.getattr 2) written

theorem unsent_holds {path : Path} {run : PendingRun} (h : unsent.2.log.Holds path run) : run = ⟨7, 0, [5]⟩ := by
  obtain ⟨nodeId, offset, data⟩ := run
  obtain ⟨hentry, hdata⟩ := h
  cases List.mem_singleton.mp hentry
  cases hdata
  rfl

def extended : Mount × Ledger := advance true (.write 2 0 [5, 6]) unsent

theorem unsent_agreeing : Agreeing unsent.1 unsent.2 (.write 2 0 [5, 6]) := by
  intro nodeId path run hid hholds _ p b b' hb hb'
  cases hid
  rw [unsent_holds hholds] at hb'
  cases p with
  | zero =>
    cases hb
    cases hb'
    rfl
  | succ p => cases hb'

theorem recover_restores_write : unsent.2.log.journal.length = 1 ∧ extended.2.wanted 7 1 = some 6
    ∧ ∃ bytes, (recovered extended.2).files.lookup 7 = some bytes ∧ (bytes[1]? = some 6
      ∨ ∃ run b, Op.own extended.1 (.flush 2) = some run ∧ run.byteAt 7 1 = some b ∧ bytes[1]? = some b) := by
  have hnone : found.2.log.journal = [] := rfl
  have hagree : Agreeing found.1 found.2 (.write 2 0 [5]) := by
    intro nodeId path run _ hholds
    rw [WriteLog.Holds, hnone] at hholds
    exact absurd hholds.1 List.not_mem_nil
  have hwritten : Mounted logging Agreeing Harmless written.1 written.2 :=
    (found_mounted fun _ _ _ _ => trivial).advance hagree fun hfalse => by cases hfalse
  have hunsent : Mounted logging Agreeing Harmless unsent.1 unsent.2 :=
    hwritten.advance trivial fun _ _ _ _ _ _ _ _ _ hown => by cases hown
  have hextended : Mounted logging Agreeing Harmless extended.1 extended.2 :=
    hunsent.advance unsent_agreeing fun hfalse => by cases hfalse
  have hw : extended.2.wanted 7 1 = some 6 := rfl
  obtain ⟨out, m', hends⟩ := recovered_ends extended.2
  have hop : Agreeing extended.1 extended.2 (.flush 2) := trivial
  exact ⟨rfl, hw, recover_restores rfl rfl hextended hop .here hends rfl hw⟩

def rewritten : Mount × Ledger := advance true (.fsync 2) (advance true (.write 2 0 [6]) unsent)

theorem recover_rolls_back : ∃ (m : Mount) (s crashed : Ledger) (op : Op) (out : Served ℕ) (m' : Mount) (t : Ledger),
    Mounted logging (fun _ _ _ => True) (fun _ _ => True) m s
      ∧ Program.Stops (journaled fun _ => True) (op.run logging m) s crashed
      ∧ Program.Ends succeeding (recover logging (.fresh 0)) crashed (out, m') t
      ∧ op.own m = none ∧ (crashed.files.lookup 7).isSome = true
      ∧ crashed.wanted 7 0 = some 6 ∧ t.files.lookup 7 = some [5] := by
  have hrun : Mounted logging (fun _ _ _ => True) (fun _ _ => True) rewritten.1 rewritten.2 :=
    ((((found_mounted fun _ _ _ _ => trivial).advance trivial fun _ _ => trivial).advance trivial
      fun _ _ => trivial).advance trivial fun _ _ => trivial).advance trivial fun _ _ => trivial
  obtain ⟨out, m', hends⟩ := recovered_ends rewritten.2
  exact ⟨rewritten.1, rewritten.2, rewritten.2, .flush 2, out, m', recovered rewritten.2, hrun, .here, hends, rfl,
    rfl, rfl, rfl⟩

end Dcfs.Fuse
