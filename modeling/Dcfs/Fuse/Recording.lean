import Dcfs.Fuse.Upheld
import Dcfs.Fuse.WriteLog

namespace Dcfs.Fuse

open Effects Fs Tables Routine

structure Recording where
  log : WriteLog
  accepted : Table Path PendingRun
  failed : List Path

namespace Recording

variable (s : Recording)

structure Unused (path : Path) : Prop where
  accepted : s.accepted.lookup path = none
  journal : path ∉ s.log.paths
  files : s.log.files.lookup path = none

def begun (path : Path) (fresh : path ∉ s.log.paths) (run : PendingRun) : Recording :=
  { s with
    log := s.log.begin path fresh run.nodeId run.offset run.data
    accepted := s.accepted.insert path run }

def orphaned (path : Path) (data : Bytes) : Recording :=
  { s with log := { s.log with files := s.log.files.insert path data } }

def taking (path : Path) (data : Bytes) : Table Path PendingRun :=
  modify path (fun run => { run with data := run.data ++ data }) s.accepted

def appended (path : Path) (old data : Bytes) : Recording :=
  { s with
    log := { s.log with files := s.log.files.insert path (old ++ data) }
    accepted := s.taking path data }

def unappended (path : Path) (data : Bytes) : Recording :=
  { s with
    accepted := s.taking path data
    failed := if data = [] then s.failed else path :: s.failed }

def finished (path : Path) : Recording := { s with log := s.log.finish path }

structure Opened : Prop where
  failed : s.failed = []
  files : ∀ path, (s.accepted.lookup path).map PendingRun.data = s.log.files.lookup path
  journal : ∀ entry ∈ s.log.journal, ∀ run, s.accepted.lookup entry.localPath = some run →
    run.nodeId = entry.nodeId ∧ run.offset = entry.offset

/-- A replay of the log gives no position of a file another byte than one that was accepted for it. -/
def Replayable : Prop := ∀ path run, s.log.Holds path run → ∃ whole, s.accepted.lookup path = some whole
  ∧ ∀ nodeId p b, run.byteAt nodeId p = some b → whole.byteAt nodeId p = some b

structure Sound : Prop where
  upTo : ∀ {path run data}, s.accepted.lookup path = some run → s.log.files.lookup path = some data →
    data <+: run.data ∧ (path ∉ s.failed → data = run.data)
  journal : ∀ {entry data}, entry ∈ s.log.journal → s.log.files.lookup entry.localPath = some data →
    ∃ run, s.accepted.lookup entry.localPath = some run ∧ run.nodeId = entry.nodeId ∧ run.offset = entry.offset

end Recording

/--
The log's files may fail at any time: a run may get no record, an append may leave its file as it was, and
a file may stay that should go. `mayAppend` says which appends may succeed.
-/
def recording (mayAppend : Recording → Path → Bytes → Prop) : Rules Client Recording where
  admits _ _ := True
  outcome c s r t :=
    match c, r with
    | .beginRun nodeId offset data, some path =>
      ∃ new : s.Unused path, t = s.begun path new.journal ⟨nodeId, offset, data⟩
    | .beginRun _ _ _, none => t = s ∨ ∃ path bytes, s.Unused path ∧ t = s.orphaned path bytes
    | .extendRun path data, true =>
      ∃ old, s.log.files.lookup path = some old ∧ mayAppend s path data ∧ t = s.appended path old data
    | .extendRun path data, false => t = s.unappended path data
    | .finishRun path, _ => t = s ∨ t = s.finished path
    | .resetLog, r => r = .ok () ∧ t = { s with log := s.log.reset } ∨ r ≠ .ok () ∧ t = s
    | _, _ => t = s

/-- Once an append to a file has failed, no later one puts more bytes there. -/
def NoGap (s : Recording) (path : Path) (data : Bytes) : Prop := path ∈ s.failed → data = []

namespace Recording

variable {s : Recording} {path path' : Path} {run : PendingRun} {old data : Bytes}

theorem lookup_taking : (s.taking path data).lookup path'
    = if path' = path then (s.accepted.lookup path').map fun run => { run with data := run.data ++ data }
      else s.accepted.lookup path' :=
  lookup_modify path path' _ s.accepted

theorem Sound.replayable (h : s.Sound) : s.Replayable := by
  rintro path run ⟨hentry, hdata⟩
  obtain ⟨whole, hwhole, hnode, hoffset⟩ := h.journal hentry hdata
  obtain ⟨rest, hrest⟩ := (h.upTo hwhole hdata).1
  refine ⟨whole, hwhole, fun nodeId p b hb => ?_⟩
  unfold PendingRun.byteAt at hb ⊢
  rw [Option.ite_none_right_eq_some] at hb ⊢
  obtain ⟨⟨rfl, hp⟩, hb⟩ := hb
  have hlt : p - run.offset < run.data.length := (List.getElem?_eq_some_iff.mp hb).1
  refine ⟨⟨hnode, hoffset.trans_le hp⟩, ?_⟩
  rw [hoffset, ← hrest, List.getElem?_append_left hlt]
  exact hb

theorem Opened.sound (h : s.Opened) : s.Sound where
  upTo {path run data} hrun hdata := by
    have hsame := h.files path
    rw [hrun, hdata] at hsame
    cases hsame
    exact ⟨List.prefix_rfl, fun _ => rfl⟩
  journal {entry data} hentry hdata := by
    have hsame := h.files entry.localPath
    rw [hdata, Option.map_eq_some_iff] at hsame
    obtain ⟨run, hrun, -⟩ := hsame
    exact ⟨run, hrun, h.journal entry hentry run hrun⟩

theorem Sound.begun (h : s.Sound) (new : s.Unused path) (run : PendingRun) : (s.begun path new.journal run).Sound where
  upTo {path' run' data} hrun hdata := by
    simp only [Recording.begun, WriteLog.begin, lookup_insert] at hrun hdata
    split_ifs at hrun hdata with hpath
    · cases hrun
      cases hdata
      exact ⟨List.prefix_rfl, fun _ => rfl⟩
    · exact h.upTo hrun hdata
  journal {entry data} hentry hdata := by
    simp only [Recording.begun, WriteLog.begin, lookup_insert, List.mem_append, List.mem_singleton] at hentry hdata ⊢
    rcases hentry with hold | rfl
    · have hne : entry.localPath ≠ path := by
        rintro rfl
        exact new.journal (List.mem_map.mpr ⟨entry, hold, rfl⟩)
      rw [if_neg hne] at hdata ⊢
      exact h.journal hold hdata
    · rw [if_pos rfl]
      exact ⟨run, rfl, rfl, rfl⟩

theorem Sound.orphaned (h : s.Sound) (new : s.Unused path) (bytes : Bytes) : (s.orphaned path bytes).Sound where
  upTo {path' run data} hrun hdata := by
    have hne : path' ≠ path := by
      rintro rfl
      exact Option.some_ne_none _ (hrun.symm.trans new.accepted)
    rw [Recording.orphaned, lookup_insert, if_neg hne] at hdata
    exact h.upTo hrun hdata
  journal {entry data} hentry hdata := by
    have hne : entry.localPath ≠ path := by
      rintro rfl
      exact new.journal (List.mem_map.mpr ⟨entry, hentry, rfl⟩)
    rw [Recording.orphaned, lookup_insert, if_neg hne] at hdata
    exact h.journal hentry hdata

theorem Sound.journal_taking (h : s.Sound) {entry : JournalEntry} (hentry : entry ∈ s.log.journal) {bytes : Bytes}
    (hbytes : s.log.files.lookup entry.localPath = some bytes) (path : Path) (data : Bytes) :
    ∃ run, (s.taking path data).lookup entry.localPath = some run ∧ run.nodeId = entry.nodeId
      ∧ run.offset = entry.offset := by
  obtain ⟨run, hrun, hnode, hoffset⟩ := h.journal hentry hbytes
  rw [lookup_taking, hrun]
  split_ifs with hpath
  · exact ⟨_, rfl, hnode, hoffset⟩
  · exact ⟨run, rfl, hnode, hoffset⟩

theorem Sound.appended (h : s.Sound) (hold : s.log.files.lookup path = some old) (hgap : NoGap s path data) :
    (s.appended path old data).Sound where
  upTo {path' run bytes} hrun hbytes := by
    simp only [Recording.appended, lookup_taking, lookup_insert] at hrun hbytes
    split_ifs at hrun hbytes with hpath
    · subst hpath
      rw [Option.map_eq_some_iff] at hrun
      obtain ⟨before, hbefore, rfl⟩ := hrun
      cases hbytes
      obtain ⟨hpre, heq⟩ := h.upTo hbefore hold
      by_cases hfailed : path' ∈ s.failed
      · -- nothing is added to a file that is behind
        rw [hgap hfailed, List.append_nil, List.append_nil]
        exact ⟨hpre, fun hnot => absurd hfailed hnot⟩
      · rw [heq hfailed]
        exact ⟨List.prefix_rfl, fun _ => rfl⟩
    · exact h.upTo hrun hbytes
  journal {entry bytes} hentry hbytes := by
    rw [Recording.appended, lookup_insert] at hbytes
    split_ifs at hbytes with hpath
    · exact h.journal_taking hentry (hpath ▸ hold) path data
    · exact h.journal_taking hentry hbytes path data

theorem Sound.unappended (h : s.Sound) (path : Path) (data : Bytes) : (s.unappended path data).Sound where
  upTo {path' run bytes} hrun hbytes := by
    simp only [Recording.unappended, lookup_taking] at hrun hbytes ⊢
    split_ifs at hrun with hpath
    · subst hpath
      rw [Option.map_eq_some_iff] at hrun
      obtain ⟨before, hbefore, rfl⟩ := hrun
      obtain ⟨hpre, heq⟩ := h.upTo hbefore hbytes
      refine ⟨hpre.trans (List.prefix_append _ _), fun hnot => ?_⟩
      by_cases hnil : data = []
      · rw [if_pos hnil] at hnot
        rw [hnil, List.append_nil]
        exact heq hnot
      · rw [if_neg hnil] at hnot
        exact absurd List.mem_cons_self hnot
    · obtain ⟨hpre, heq⟩ := h.upTo hrun hbytes
      refine ⟨hpre, fun hnot => heq fun hin => hnot ?_⟩
      split_ifs
      · exact hin
      · exact List.mem_cons_of_mem _ hin
  journal hentry hbytes := h.journal_taking hentry hbytes path data

theorem Sound.of_fewer (h : s.Sound) {log : WriteLog} (hjournal : ∀ entry ∈ log.journal, entry ∈ s.log.journal)
    (hfiles : ∀ path data, log.files.lookup path = some data → s.log.files.lookup path = some data) :
    { s with log := log }.Sound where
  upTo hrun hdata := h.upTo hrun (hfiles _ _ hdata)
  journal hentry hdata := h.journal (hjournal _ hentry) (hfiles _ _ hdata)

end Recording

end Dcfs.Fuse
