import Dcfs.Fuse.Rollback

namespace Dcfs.Fuse

open Effects Fs Tables

def WriteLog.records (log : WriteLog) : List (Path × PendingRun) :=
  log.journal.filterMap fun entry => (log.runOf entry).map fun run => (entry.localPath, run)

inductive Fate
  | answered
  | lost (e : ClientError)
  | failed (e : ClientError)

def Fate.arrives : Fate → Bool
  | .failed _ => false
  | _ => true

structure Relay where
  log : WriteLog
  requests : ℕ
  accepted : List ℕ

namespace Relay

variable (s : Relay)

def missed : Relay := { s with requests := s.requests + 1 }

def taken : Relay := { s with requests := s.requests + 1, accepted := s.requests :: s.accepted }

def arrived (there : Bool) : Relay := if there then s.taken else s.missed

end Relay

variable (live : Uuid → Bool) (fate : ℕ → Fate)

def relay : (c : ClientCall) → Relay → c.Reply × Relay
  | .writeFile nodeId _ data, s =>
    match fate s.requests with
    | .answered => (if live nodeId then .ok data.length else .error .notFound, s.arrived (live nodeId))
    | .lost e => (.error e, s.arrived (live nodeId))
    | .failed e => (.error e, s.missed)
  | .takePending, s => (.ok s.log.takePending, s)
  | .resetLog, s => (.ok (), { s with log := s.log.reset })
  | c, s => ((oneFile true c []).1, s)

def relaying : Rules Client Relay where
  admits _ _ := True
  outcome c s r t := (r, t) = relay live fate c s

/-- Every run of a file that is still there was accepted, or is in the log as it was. -/
def Spared (log : WriteLog) (t : Relay) : Prop :=
  ∀ i path run, log.records[i]? = some (path, run) → live run.nodeId = true → i ∈ t.accepted ∨ t.log.Holds path run

variable {live fate} {log : WriteLog} {m : Mount} {s : Relay}

theorem WriteLog.takePending_eq (log : WriteLog) : log.takePending = log.records.map Prod.snd := by
  rw [WriteLog.takePending, WriteLog.records, List.map_filterMap]
  congr 1
  funext entry
  simp

theorem relay_write (nodeId : Uuid) (offset : ℕ) (data : Bytes) :
    (relay live fate (.writeFile nodeId offset data) s).2
      = if (fate s.requests).arrives && live nodeId then s.taken else s.missed := by
  simp only [relay]
  cases fate s.requests with
  | answered => simp [Fate.arrives, Relay.arrived]
  | lost e => simp [Fate.arrives, Relay.arrived]
  | failed e => simp [Fate.arrives]

theorem replay_accepts (runs : List PendingRun) (m : Mount) (s : Relay) :
    Routine.Meets (relaying live fate) (replay runs) (fun out _ t => (∃ n, out = .ok n) ∧ t.log = s.log
      ∧ ∀ i, i ∈ t.accepted ↔ i ∈ s.accepted
        ∨ ∃ j run, runs[j]? = some run ∧ i = s.requests + j ∧ (fate i).arrives = true
          ∧ live run.nodeId = true) m s := by
  induction runs generalizing s with
  | nil => exact .ok ⟨⟨0, rfl⟩, rfl, fun i => by simp⟩
  | cons run rest ih =>
    refine .bind (.ask trivial fun answer t hanswer => ?_)
    have ht : t = if (fate s.requests).arrives && live run.nodeId then s.taken else s.missed := by
      rw [← relay_write run.nodeId run.offset run.data]
      exact congrArg Prod.snd hanswer
    have hlog : t.log = s.log := by
      rw [ht]
      split_ifs
      · rfl
      · rfl
    have hrequests : t.requests = s.requests + 1 := by
      rw [ht]
      split_ifs
      · rfl
      · rfl
    have haccepted : ∀ i, i ∈ t.accepted ↔ i ∈ s.accepted
        ∨ (i = s.requests ∧ (fate i).arrives = true ∧ live run.nodeId = true) := by
      intro i
      rw [ht]
      split_ifs with harrives
      · rw [Bool.and_eq_true] at harrives
        simp only [Relay.taken, List.mem_cons]
        constructor
        · rintro (rfl | hold)
          · exact .inr ⟨rfl, harrives⟩
          · exact .inl hold
        · rintro (hold | ⟨rfl, -⟩)
          · exact .inr hold
          · exact .inl rfl
      · simp only [Relay.missed]
        constructor
        · exact .inl
        · rintro (hold | ⟨rfl, hboth⟩)
          · exact hold
          · rw [Bool.and_eq_true] at harrives
            exact absurd hboth harrives
    refine .bind ((ih t).mono ?_)
    rintro _ m' u ⟨⟨n, rfl⟩, hlog', hrest⟩
    have hall : ∀ i, i ∈ u.accepted ↔ i ∈ s.accepted ∨ ∃ j r, (run :: rest)[j]? = some r ∧ i = s.requests + j
        ∧ (fate i).arrives = true ∧ live r.nodeId = true := by
      intro i
      rw [hrest, haccepted, hrequests, or_assoc]
      apply or_congr Iff.rfl
      constructor
      · rintro (⟨rfl, hboth⟩ | ⟨j, r, hr, rfl, hboth⟩)
        · exact ⟨0, run, rfl, rfl, hboth⟩
        · exact ⟨j + 1, r, hr, by omega, hboth⟩
      · rintro ⟨j, r, hr, rfl, hboth⟩
        cases j with
        | zero =>
          cases hr
          exact .inl ⟨rfl, hboth⟩
        | succ j => exact .inr ⟨j, r, hr, by omega, hboth⟩
    cases answer with
    | error e => exact .ok ⟨⟨n, rfl⟩, hlog'.trans hlog, hall⟩
    | ok _ => exact .ok ⟨⟨n + 1, rfl⟩, hlog'.trans hlog, hall⟩

theorem relay_relaying (live : Uuid → Bool) (fate : ℕ → Fate) (c : ClientCall) (s : Relay) :
    (relaying live fate).outcome c s (relay live fate c s).1 (relay live fate c s).2 :=
  rfl

theorem holds_reset {path : Path} {run : PendingRun} : ¬ log.reset.Holds path run := by
  rintro ⟨hentry, -⟩
  exact absurd hentry List.not_mem_nil

theorem recover_accepts {setup : Setup} (hlog : setup.hasLog = true) (m : Mount) :
    Routine.Meets (relaying live fate) (recover setup) (fun _ _ t => (log.records ≠ [] → t.log = log.reset)
      ∧ ∀ i, i ∈ t.accepted ↔
        ∃ path run, log.records[i]? = some (path, run) ∧ (fate i).arrives = true ∧ live run.nodeId = true)
      m ⟨log, 0, []⟩ := by
  simp only [recover, hlog, Bool.not_true, Bool.false_eq_true, if_false]
  refine .bind (.ask trivial fun answer t hanswer => ?_)
  obtain ⟨rfl, rfl⟩ := Prod.mk.inj hanswer
  refine .bind (.ok ?_)
  simp only [WriteLog.takePending_eq]
  by_cases hnone : log.records = []
  · simp only [hnone, List.map_nil, List.isEmpty_nil, if_true]
    exact .ok ⟨fun h => absurd rfl h, fun i => by simp⟩
  · rw [if_neg (by simpa using hnone)]
    refine .bind ((replay_accepts _ m _).mono ?_)
    rintro _ m' t ⟨⟨n, rfl⟩, hkept, haccepted⟩
    refine .bind (.ask trivial fun answer u hanswer => ?_)
    obtain ⟨rfl, rfl⟩ := Prod.mk.inj hanswer
    refine .bind (.ok (.ok ⟨fun _ => congrArg WriteLog.reset hkept, fun i => ?_⟩))
    rw [haccepted]
    simp only [List.not_mem_nil, false_or, List.getElem?_map, Option.map_eq_some_iff]
    constructor
    · rintro ⟨j, _, ⟨⟨path, run⟩, hrun, rfl⟩, rfl, hboth⟩
      rw [Nat.zero_add] at hboth ⊢
      exact ⟨path, run, hrun, hboth⟩
    · rintro ⟨path, run, hrun, hboth⟩
      exact ⟨i, run, ⟨(path, run), hrun, rfl⟩, (Nat.zero_add i).symm, hboth⟩

theorem recover_spares_iff {setup : Setup} (hlog : setup.hasLog = true) (m : Mount) (live : Uuid → Bool)
    (fate : ℕ → Fate) (log : WriteLog) :
    Spared live log ((recover setup m).run (relay live fate) ⟨log, 0, []⟩).2
      ↔ ∀ i path run, log.records[i]? = some (path, run) → live run.nodeId = true → (fate i).arrives = true := by
  obtain ⟨hreset, haccepted⟩ :=
    Program.Meets.ends (recover_accepts hlog m)
      (Program.run_ends (relay_relaying live fate) (recover setup m) ⟨log, 0, []⟩)
  constructor
  · intro hspared i path run hrun hlive
    rcases hspared i path run hrun hlive with hin | hheld
    · obtain ⟨_, _, -, harrives, -⟩ := (haccepted i).mp hin
      exact harrives
    · rw [hreset fun hnone => by simp [hnone] at hrun] at hheld
      exact absurd hheld holds_reset
  · intro hall i path run hrun hlive
    exact .inl ((haccepted i).mpr ⟨path, run, hrun, hall i path run hrun hlive, hlive⟩)

def twoRuns : WriteLog :=
  (WriteLog.empty.begin 0 (by decide) 7 0 [1]).begin 1 (by decide) 8 0 [2]

theorem both_runs_spared :
    Spared (fun _ => true) twoRuns ((recover logging (.fresh 0)).run (relay (fun _ => true) fun _ => .answered)
      ⟨twoRuns, 0, []⟩).2 :=
  (recover_spares_iff rfl (.fresh 0) _ _ twoRuns).mpr fun _ _ _ _ _ => rfl

theorem second_run_lost :
    ¬ Spared (fun _ => true) twoRuns ((recover logging (.fresh 0)).run
      (relay (fun _ => true) fun i => if i = 0 then .answered else .failed .backendUnavailable)
        ⟨twoRuns, 0, []⟩).2 := by
  -- The server is down for the second run, and the log is emptied.
  intro hspared
  rcases hspared 1 1 ⟨8, 0, [2]⟩ (by decide) rfl with hin | ⟨hentry, -⟩
  · exact absurd hin (by decide)
  · exact absurd hentry (by decide)

end Dcfs.Fuse
