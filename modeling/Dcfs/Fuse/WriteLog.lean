import Dcfs.Fuse.Client
import Dcfs.Fuse.Session
import Dcfs.Library.Sparse
import Dcfs.Library.Table

/-! The log of the writes not yet sent: a journal, and a file with the bytes of each run. -/

namespace Dcfs.Fuse

open Effects Sparse Tables

structure JournalEntry where
  nodeId : Uuid
  localPath : Path
  offset : ℕ
  deriving DecidableEq

structure WriteLog where
  journal : List JournalEntry
  files : Table Path Bytes
  distinct : (journal.map JournalEntry.localPath).Nodup

namespace WriteLog

def empty : WriteLog := ⟨[], ∅, List.nodup_nil⟩

def paths (log : WriteLog) : List Path := log.journal.map JournalEntry.localPath

def unused (log : WriteLog) : Path := log.paths.sum + 1

theorem unused_fresh (log : WriteLog) : log.unused ∉ log.paths := fun hmem =>
  Nat.not_succ_le_self _ (List.le_sum_of_mem hmem)

def begin (log : WriteLog) (path : Path) (fresh : path ∉ log.paths) (nodeId : Uuid) (offset : ℕ) (data : Bytes) :
    WriteLog where
  journal := log.journal ++ [⟨nodeId, path, offset⟩]
  files := log.files.insert path data
  distinct := by
    rw [List.map_append, List.map_singleton]
    exact log.distinct.append (List.nodup_singleton _) (List.disjoint_singleton.mpr fresh)

def extend (log : WriteLog) (path : Path) (data : Bytes) : Option WriteLog :=
  (log.files.lookup path).map fun old => { log with files := log.files.insert path (old ++ data) }

def finish (log : WriteLog) (path : Path) : WriteLog := { log with files := log.files.erase path }

def runOf (log : WriteLog) (entry : JournalEntry) : Option PendingRun :=
  match log.files.lookup entry.localPath with
  | some data => if data.isEmpty then none else some ⟨entry.nodeId, entry.offset, data⟩
  | none => none

def takePending (log : WriteLog) : List PendingRun := log.journal.filterMap log.runOf

def reset (log : WriteLog) : WriteLog where
  journal := []
  files := log.paths.foldl (fun files path => files.erase path) log.files
  distinct := List.nodup_nil

def Holds (log : WriteLog) (path : Path) (run : PendingRun) : Prop :=
  ⟨run.nodeId, path, run.offset⟩ ∈ log.journal ∧ log.files.lookup path = some run.data

variable {log log' : WriteLog} {path path' : Path} {run run' : PendingRun}

theorem Holds.inj (h : log.Holds path run) (h' : log.Holds path run') : run = run' := by
  have hentry := List.inj_on_of_nodup_map log.distinct h.1 h'.1 rfl
  have hdata := h.2.symm.trans h'.2
  cases run
  cases run'
  cases hentry
  cases hdata
  rfl

theorem Holds.mem_paths (h : log.Holds path run) : path ∈ log.paths := List.mem_map.mpr ⟨_, h.1, rfl⟩

theorem holds_begin {fresh : path ∉ log.paths} {nodeId : Uuid} {offset : ℕ} {data : Bytes} :
    (log.begin path fresh nodeId offset data).Holds path' run ↔
      path' = path ∧ run = ⟨nodeId, offset, data⟩ ∨ log.Holds path' run := by
  constructor
  · rintro ⟨hentry, hdata⟩
    rw [begin, lookup_insert] at hdata
    rcases List.mem_append.mp hentry with hold | hnew
    · have hne : path' ≠ path := by
        rintro rfl
        exact fresh (List.mem_map.mpr ⟨_, hold, rfl⟩)
      rw [if_neg hne] at hdata
      exact .inr ⟨hold, hdata⟩
    · cases List.mem_singleton.mp hnew
      rw [if_pos rfl] at hdata
      cases hdata
      exact .inl ⟨rfl, rfl⟩
  · rintro (⟨rfl, rfl⟩ | hold)
    · exact ⟨List.mem_append_right _ List.mem_cons_self, by rw [begin, lookup_insert, if_pos rfl]⟩
    · refine ⟨List.mem_append_left _ hold.1, ?_⟩
      have hne : path' ≠ path := by
        rintro rfl
        exact fresh hold.mem_paths
      rw [begin, lookup_insert, if_neg hne]
      exact hold.2

theorem holds_finish : (log.finish path).Holds path' run ↔ path' ≠ path ∧ log.Holds path' run := by
  simp only [Holds, finish, lookup_erase]
  split_ifs with h
  · simp [h]
  · simp [h]

theorem Holds.extend (h : log.Holds path run) (data : Bytes) : ∃ log', log.extend path data = some log'
    ∧ ∀ path' run', log'.Holds path' run' ↔
      path' = path ∧ run' = { run with data := run.data ++ data } ∨ path' ≠ path ∧ log.Holds path' run' := by
  refine ⟨_, by rw [WriteLog.extend, h.2]; rfl, fun path' run' => ?_⟩
  by_cases hp : path' = path
  · subst hp
    simp only [Holds, lookup_insert, if_pos, true_and, ne_eq, not_true_eq_false, false_and, or_false]
    constructor
    · rintro ⟨hentry, hdata⟩
      have hsame := List.inj_on_of_nodup_map log.distinct hentry h.1 rfl
      cases run'
      cases hsame
      cases hdata
      rfl
    · rintro rfl
      exact ⟨h.1, rfl⟩
  · simp only [Holds, lookup_insert, hp, ↓reduceIte, false_and, false_or, ne_eq, not_false_eq_true, true_and]

theorem mem_takePending : run ∈ log.takePending ↔ run.data ≠ [] ∧ ∃ path, log.Holds path run := by
  simp only [takePending, List.mem_filterMap]
  constructor
  · rintro ⟨entry, hentry, hrun⟩
    unfold runOf at hrun
    split at hrun
    · rename_i data hdata
      rw [Option.ite_none_left_eq_some] at hrun
      obtain ⟨hne, heq⟩ := hrun
      cases heq
      exact ⟨fun hnil => hne (List.isEmpty_iff.mpr hnil), entry.localPath, hentry, hdata⟩
    · cases hrun
  · rintro ⟨hne, path, hentry, hdata⟩
    refine ⟨_, hentry, ?_⟩
    simp only [runOf, hdata, List.isEmpty_iff, if_neg hne]

end WriteLog

def PendingRun.byteAt (run : PendingRun) (nodeId : Uuid) (p : ℕ) : Option UInt8 :=
  if run.nodeId = nodeId ∧ run.offset ≤ p then run.data[p - run.offset]? else none

structure Ledger where
  files : Table Uuid Bytes
  log : WriteLog
  wanted : Uuid → ℕ → Option UInt8
  recorded : Bool

def withRun (own : Option PendingRun) (wanted : Uuid → ℕ → Option UInt8) (nodeId : Uuid) (p : ℕ) : Option UInt8 :=
  (own.bind fun run => run.byteAt nodeId p).or (wanted nodeId p)

def resized (n : ℕ) (bytes : Bytes) : Bytes := bytes.take n ++ List.replicate (n - bytes.length) 0

def Partly (old new bytes : Bytes) : Prop := ∀ p : ℕ, bytes[p]? = old[p]? ∨ bytes[p]? = new[p]?

namespace Ledger

variable (s : Ledger)

def put (nodeId : Uuid) (bytes : Bytes) : Ledger := { s with files := s.files.insert nodeId bytes }

def created (nodeId : Uuid) : Ledger :=
  { s with
    files := s.files.insert nodeId []
    wanted := fun id p => if id = nodeId then none else s.wanted id p }

def dropped (nodeId : Uuid) : Ledger := { s with files := s.files.erase nodeId }

def cutOff (nodeId : Uuid) (n : ℕ) : Ledger :=
  { s with wanted := fun id p => if id = nodeId ∧ n ≤ p then none else s.wanted id p }

def cutAt (nodeId : Uuid) : Option ℕ → Ledger
  | some n => s.cutOff nodeId n
  | none => s

def settle (own : Option PendingRun) (out : Served Result) : Ledger :=
  match out with
  | .ok _ => { s with wanted := withRun own s.wanted, recorded := false }
  | .error _ => { s with recorded := false }

end Ledger

/--
A log that works and a server of which any request may fail, with or without having had its effect. A
write to a file that is there is refused only where `mayRefuse`.
-/
def journaled (mayRefuse : Ledger → Prop) : Rules Client Ledger where
  admits _ _ := True
  outcome c s r t :=
    match c, r with
    | .writeFile nodeId offset data, .ok _ =>
      ∃ bytes, s.files.lookup nodeId = some bytes ∧ t = s.put nodeId (overlay bytes offset data)
    | .writeFile nodeId offset data, .error _ => s.files.lookup nodeId = none ∧ t = s ∨ mayRefuse s ∧ (t = s
      ∨ ∃ bytes bytes', s.files.lookup nodeId = some bytes ∧ Partly bytes (overlay bytes offset data) bytes'
        ∧ t = s.put nodeId bytes')
    | .patchNode nodeId req, _ => t = s.cutAt nodeId req.size ∨ ∃ n bytes, req.size = some n
      ∧ s.files.lookup nodeId = some bytes ∧ t = (s.cutOff nodeId n).put nodeId (resized n bytes)
    | .createNode _, _ => t = s ∨ ∃ id, s.files.lookup id = none ∧ t = s.created id
    | .deleteNode _, _ => t = s ∨ ∃ id, t = s.dropped id
    | .renameNode _ _ _, _ => t = s ∨ ∃ id, t = s.dropped id
    | .beginRun nodeId offset data, r => ∃ path, ∃ fresh : path ∉ s.log.paths, r = some path
      ∧ t = { s with log := s.log.begin path fresh nodeId offset data, recorded := true }
    | .extendRun path data, r => r = (s.log.extend path data).isSome
      ∧ t = { s with log := (s.log.extend path data).getD s.log, recorded := true }
    | .finishRun path, _ => t = { s with log := s.log.finish path }
    | .takePending, r => r = .ok s.log.takePending ∧ t = s
    | .resetLog, r => r = .ok () ∧ t = { s with log := s.log.reset }
    | _, _ => t = s

def Op.own (m : Mount) : Op → Option PendingRun
  | .write ino offset data => (m.byIno.lookup ino).map fun nodeId => ⟨nodeId, offset, data⟩
  | _ => none

inductive Mounted (setup : Setup) (allowed : Mount → Ledger → Op → Prop)
    (mayRefuse : Option PendingRun → Ledger → Prop) : Mount → Ledger → Prop
  | start (rootId : Uuid) (files : Table Uuid Bytes) :
      Mounted setup allowed mayRefuse (.fresh rootId) ⟨files, .empty, fun _ _ => none, false⟩
  | step {m m' : Mount} {s t : Ledger} {op : Op} {out : Served Result} :
      Mounted setup allowed mayRefuse m s → allowed m s op →
      Program.Ends (journaled (mayRefuse (op.own m))) (op.run setup m) s (out, m') t →
      Mounted setup allowed mayRefuse m' (t.settle (op.own m) out)

/--
A write agrees with every run of its file that the log has, other than the one that is buffered for the
file: those runs could not be sent, and nothing but a later mount will send them.
-/
def Agreeing (m : Mount) (s : Ledger) : Op → Prop
  | .write ino offset data => ∀ nodeId path run, m.byIno.lookup ino = some nodeId → s.log.Holds path run →
      (m.pending.lookup ino).bind PendingWrite.logPath ≠ some path → ∀ p b b',
      (PendingRun.mk nodeId offset data).byteAt nodeId p = some b → run.byteAt nodeId p = some b' → b = b'
  | _ => True

def Harmless (own : Option PendingRun) (s : Ledger) : Prop :=
  s.recorded = true → ∀ run nodeId bytes p b w, own = some run → s.files.lookup nodeId = some bytes →
    run.byteAt nodeId p = some b → s.wanted nodeId p = some w → b = w

end Dcfs.Fuse
