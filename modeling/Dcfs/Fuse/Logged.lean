import Dcfs.Fuse.Upkeep
import Dcfs.Fuse.WriteLog

namespace Dcfs.Fuse

open Effects Fs Tables Sparse

variable {own : Option PendingRun} {s t : Ledger} {nodeId : Uuid} {path : Path} {bytes bytes' : Bytes}

namespace PendingRun

variable {run : PendingRun} {p : ℕ} {b : UInt8}

theorem byteAt_eq_some : run.byteAt nodeId p = some b ↔
    run.nodeId = nodeId ∧ run.offset ≤ p ∧ run.data[p - run.offset]? = some b := by
  rw [byteAt, Option.ite_none_right_eq_some, and_assoc]

theorem getElem?_overlay_of_byteAt (hrun : ∀ b', run.byteAt run.nodeId p ≠ some b') (hb : bytes[p]? = some b) :
    (overlay bytes run.offset run.data)[p]? = some b := by
  refine getElem?_overlay_of_not_mem (fun hp => ?_) hb
  have hlt : p - run.offset < run.data.length := by omega
  exact hrun _ (byteAt_eq_some.mpr ⟨rfl, hp.1, List.getElem?_eq_getElem hlt⟩)

theorem byteAt_append {offset : ℕ} {id : Uuid} {data more : Bytes} :
    (PendingRun.mk nodeId offset (data ++ more)).byteAt id p = some b ↔
      (PendingRun.mk nodeId offset data).byteAt id p = some b
        ∨ (PendingRun.mk nodeId (offset + data.length) more).byteAt id p = some b := by
  simp only [byteAt_eq_some]
  constructor
  · rintro ⟨hid, hp, hb⟩
    by_cases hend : p < offset + data.length
    · rw [List.getElem?_append_left (by omega)] at hb
      exact .inl ⟨hid, hp, hb⟩
    · rw [List.getElem?_append_right (by omega), Nat.sub_sub] at hb
      exact .inr ⟨hid, by omega, hb⟩
  · rintro (⟨hid, hp, hb⟩ | ⟨hid, hp, hb⟩)
    · have hlt := (List.getElem?_eq_some_iff.mp hb).1
      exact ⟨hid, hp, by rw [List.getElem?_append_left hlt]; exact hb⟩
    · refine ⟨hid, by omega, ?_⟩
      rw [List.getElem?_append_right (by omega), Nat.sub_sub]
      exact hb

end PendingRun

namespace Ledger

def latest (own : Option PendingRun) (s : Ledger) : Uuid → ℕ → Option UInt8 :=
  withRun (if s.recorded then own else none) s.wanted

def Tells (s : Ledger) (nodeId : Uuid) (p : ℕ) (b : UInt8) : Prop :=
  ∃ path run, s.log.Holds path run ∧ run.byteAt nodeId p = some b

/-- A replay of the log writes no byte but the latest, and that one wherever the server has not got it. -/
def Sound (own : Option PendingRun) (s : Ledger) : Prop :=
  ∀ nodeId bytes p b, s.files.lookup nodeId = some bytes → s.latest own nodeId p = some b →
    (∀ b', s.Tells nodeId p b' → b' = b) ∧ (s.Tells nodeId p b ∨ bytes[p]? = some b)

theorem Sound.put (h : s.Sound own) (hold : s.files.lookup nodeId = some bytes)
    (hkeep : ∀ (p : ℕ) b, bytes[p]? = some b → (∀ b', ¬ s.Tells nodeId p b') → bytes'[p]? = some b) :
    (s.put nodeId bytes').Sound own := by
  intro id found p b hfound hlatest
  rw [Ledger.put, lookup_insert] at hfound
  split_ifs at hfound with hid
  · cases hfound
    subst hid
    obtain ⟨hagree, hshown⟩ := h id bytes p b hold hlatest
    refine ⟨hagree, ?_⟩
    by_cases htells : s.Tells id p b
    · exact .inl htells
    · refine .inr (hkeep p b (hshown.resolve_left htells) fun b' hb' => ?_)
      exact htells (hagree b' hb' ▸ hb')
  · exact h id found p b hfound hlatest

theorem Sound.partly (h : s.Sound own) {run : PendingRun} (hholds : s.log.Holds path run)
    (hold : s.files.lookup run.nodeId = some bytes) (hpart : Partly bytes (overlay bytes run.offset run.data) bytes') :
    (s.put run.nodeId bytes').Sound own := by
  refine h.put hold fun p b hb hsilent => ?_
  rcases hpart p with heq | heq
  · rw [heq]
    exact hb
  · rw [heq]
    exact PendingRun.getElem?_overlay_of_byteAt (fun b' hb' => hsilent b' ⟨path, run, hholds, hb'⟩) hb

theorem Tells.of_finish {p : ℕ} {b : UInt8} (h : { s with log := s.log.finish path }.Tells nodeId p b) :
    s.Tells nodeId p b := by
  obtain ⟨path', run, hholds, hb⟩ := h
  exact ⟨path', run, (WriteLog.holds_finish.mp hholds).2, hb⟩

theorem Sound.finish (h : s.Sound own) {run : PendingRun} (hholds : s.log.Holds path run)
    (hsent : ∀ bytes p b, s.files.lookup run.nodeId = some bytes → run.byteAt run.nodeId p = some b →
      bytes[p]? = some b) :
    { s with log := s.log.finish path }.Sound own := by
  intro id found p b hfound hlatest
  obtain ⟨hagree, hshown⟩ := h id found p b hfound hlatest
  refine ⟨fun b' hb' => hagree b' hb'.of_finish, ?_⟩
  rcases hshown with ⟨path', run', hholds', hb⟩ | hbytes
  · by_cases hpath : path' = path
    · subst hpath
      cases hholds.inj hholds'
      obtain rfl := (PendingRun.byteAt_eq_some.mp hb).1
      exact .inr (hsent found p b hfound hb)
    · exact .inl ⟨path', run', WriteLog.holds_finish.mpr ⟨hpath, hholds'⟩, hb⟩
  · exact .inr hbytes

theorem Sound.record {run : PendingRun} {log : WriteLog} (h : s.Sound (some run)) (hrec : s.recorded = false)
    (htells : ∀ id p b, { s with log := log, recorded := true }.Tells id p b ↔
      s.Tells id p b ∨ run.byteAt id p = some b)
    (hagree : ∀ id p b b', run.byteAt id p = some b → s.Tells id p b' → b' = b) :
    { s with log := log, recorded := true }.Sound (some run) := by
  intro id found p b hfound hlatest
  have hold : s.latest (some run) id p = s.wanted id p := by
    rw [latest, hrec]
    rfl
  simp only [latest, withRun, if_true, Option.bind_some] at hlatest
  cases hrun : run.byteAt id p with
  | some c =>
    rw [hrun, Option.some_or] at hlatest
    cases hlatest
    refine ⟨fun b' hb' => ?_, .inl ((htells id p b).mpr (.inr hrun))⟩
    rcases (htells id p b').mp hb' with hs | hnew
    · exact hagree id p b b' hrun hs
    · exact Option.some.inj (hnew.symm.trans hrun)
  | none =>
    rw [hrun, Option.none_or] at hlatest
    obtain ⟨hold', hshown⟩ := h id found p b hfound (hold.trans hlatest)
    refine ⟨fun b' hb' => hold' b' (((htells id p b').mp hb').resolve_right ?_), ?_⟩
    · rw [hrun]
      exact nofun
    · exact hshown.imp_left fun hs => (htells id p b).mpr (.inl hs)

end Ledger

def PendingWrite.toRun (run : PendingWrite) (nodeId : Uuid) : PendingRun := ⟨nodeId, run.offset, run.data⟩

structure LoggedAt (m : Mount) (s : Ledger) (ino : ℕ) (run : PendingWrite) (nodeId : Uuid) (path : Path) : Prop where
  logPath : run.logPath = some path
  bound : m.byIno.lookup ino = some nodeId
  holds : s.log.Holds path (run.toRun nodeId)

structure Durable (own : Option PendingRun) (m : Mount) (s : Ledger) : Prop where
  sane : m.Sane
  sound : s.Sound own
  logged : ∀ {ino run}, m.pending.lookup ino = some run → ∃ nodeId path, LoggedAt m s ino run nodeId path

def durably (own : Option PendingRun) : Rules Client Ledger :=
  (journaled (Harmless own)).guarded (Ledger.Sound own)

structure Sent (own : Option PendingRun) (s : Ledger) (nodeId : Uuid) (path : Path) (out : Served Unit)
    (t : Ledger) : Prop where
  sound : t.Sound own
  wanted : t.wanted = s.wanted
  recorded : t.recorded = s.recorded
  log : out = .ok () ∧ t.log = s.log.finish path
    ∨ (∃ e, out = .error e) ∧ (Harmless own t ∨ t.files.lookup nodeId = none) ∧ t.log = s.log

variable {setup : Setup} {own : Option PendingRun} {m m' : Mount} {s t : Ledger} {ino ino' : ℕ}
  {run run' : PendingWrite} {nodeId nodeId' : Uuid} {path path' : Path} {out : Served Unit}

theorem Harmless.put (h : Harmless own s) {bytes bytes' : Bytes} (hold : s.files.lookup nodeId = some bytes) :
    Harmless own (s.put nodeId bytes') := by
  intro hrec run id found p b w hown hfound
  rw [Ledger.put, lookup_insert] at hfound
  split_ifs at hfound with hid
  · subst hid
    exact h hrec run id bytes p b w hown hold
  · exact h hrec run id found p b w hown hfound

theorem durably_attends (h : s.Sound own) : Attends (durably own) s := by
  intro c hc
  refine ⟨⟨trivial, h⟩, fun r t hr => ?_⟩
  cases c with
  | getNode _ | findChild _ _ | listChildren _ _ _ | readFile _ _ _ | readFileCacheable _ _ _ | syncFile _
  | newUuid | loadBlock _ | storeBlock _ _ | invalidateBlocks _ => exact hr
  | _ => cases hc

theorem Sent.holds (h : Sent own s nodeId path out t) {run : PendingRun} (hne : path' ≠ path)
    (hholds : s.log.Holds path' run) : t.log.Holds path' run := by
  rcases h.log with ⟨-, hlog⟩ | ⟨-, -, hlog⟩
  · rw [hlog]
    exact WriteLog.holds_finish.mpr ⟨hne, hholds⟩
  · rw [hlog]
    exact hholds

theorem LoggedAt.path_ne (hm : m.Sane) (h : LoggedAt m s ino run nodeId path)
    (h' : LoggedAt m s ino' run' nodeId' path')
    (hne : ino ≠ ino') : path ≠ path' := by
  rintro rfl
  have hsame : nodeId = nodeId' := congrArg PendingRun.nodeId (h.holds.inj h'.holds)
  subst hsame
  have hino := (hm.pairs.mp h.bound).symm.trans (hm.pairs.mp h'.bound)
  exact hne (Option.some.inj hino)

theorem LoggedAt.sent (hm : m.Sane) (h : LoggedAt m s ino run nodeId path)
    (h' : LoggedAt m s ino' run' nodeId' path') (hne : ino ≠ ino') (hsent : Sent own s nodeId' path' out t) :
    LoggedAt m t ino run nodeId path :=
  ⟨h.logPath, h.bound, hsent.holds (h.path_ne hm h' hne) h.holds⟩

theorem Durable.later (h : Durable own m s) (hm : m.Later m') : Durable own m' s := by
  refine ⟨hm.sane, h.sound, fun hp => ?_⟩
  rw [hm.pending] at hp
  obtain ⟨nodeId, path, hat⟩ := h.logged hp
  exact ⟨nodeId, path, hat.logPath, hm.bound hat.bound, hat.holds⟩

theorem Durable.drop_sent (h : Durable own m s) (hat : LoggedAt m s ino run nodeId path)
    (hsent : Sent own s nodeId path out t) : Durable own (m.dropPending ino) t := by
  refine ⟨h.sane.dropPending ino, hsent.sound, fun {i r} hp => ?_⟩
  rw [Mount.dropPending, lookup_erase] at hp
  split_ifs at hp with hi
  obtain ⟨nodeId', path', hat'⟩ := h.logged hp
  have hstill := hat'.sent h.sane hat hi hsent
  exact ⟨nodeId', path', hstill.logPath, hstill.bound, hstill.holds⟩

theorem finish_durable (hlog : setup.hasLog = true) (hpath : run.logPath = some path) (h : s.Sound own) :
    Routine.Meets (durably own) (finish setup run)
      (fun out m' t => out = .ok () ∧ m' = m ∧ t = { s with log := s.log.finish path }) m s := by
  rw [finish, hlog, hpath]
  exact .ask ⟨trivial, h⟩ fun _ _ ht => ⟨rfl, rfl, ht⟩

theorem send_durable (hlog : setup.hasLog = true) (hpath : run.logPath = some path) (h : s.Sound own)
    (hholds : s.log.Holds path (run.toRun nodeId)) :
    Routine.Meets (durably own) (send setup nodeId run)
      (fun out m' t => m' = m ∧ Sent own s nodeId path out t) m s := by
  refine .bind (.ask ⟨trivial, h⟩ fun answer t hanswer => ?_)
  cases answer with
  | error e =>
    obtain ⟨hnone, rfl⟩ | ⟨hharm, rfl | ⟨bytes, bytes', hold, hpart, rfl⟩⟩ := hanswer
    · exact .bind (.fail ⟨rfl, h, rfl, rfl, .inr ⟨⟨e, rfl⟩, .inr hnone, rfl⟩⟩)
    · exact .bind (.fail ⟨rfl, h, rfl, rfl, .inr ⟨⟨e, rfl⟩, .inl hharm, rfl⟩⟩)
    · refine .bind (.fail ⟨rfl, h.partly hholds hold hpart, rfl, rfl, .inr ⟨⟨e, rfl⟩, .inl ?_, rfl⟩⟩)
      exact hharm.put hold
  | ok n =>
    obtain ⟨bytes, hold, rfl⟩ := hanswer
    have hput := h.partly hholds hold fun p => .inr rfl
    refine .bind (.ok ((finish_durable hlog hpath hput).mono ?_))
    rintro _ _ _ ⟨rfl, rfl, rfl⟩
    refine ⟨rfl, hput.finish hholds fun found p b hfound hb => ?_, rfl, rfl, .inl ⟨rfl, rfl⟩⟩
    have heq : found = overlay bytes run.offset run.data := by
      have hput' : (s.put nodeId (overlay bytes run.offset run.data)).files.lookup nodeId = some _ :=
        (lookup_insert _ _ _ _).trans (if_pos rfl)
      exact Option.some.inj (hfound.symm.trans hput')
    obtain ⟨-, hp, hb⟩ := PendingRun.byteAt_eq_some.mp hb
    rw [heq]
    exact getElem?_overlay_of_mem bytes hp hb

theorem sendDrained_durable (hlog : setup.hasLog = true) (h : s.Sound own) (hat : LoggedAt m s ino run nodeId path) :
    Routine.Meets (durably own) (sendDrained setup ino run)
      (fun out m' t => m' = m ∧ Sent own s nodeId path out t) m s := by
  refine .bind ((idFor_bound hat.bound).mono ?_)
  rintro _ _ _ ⟨rfl, rfl, rfl⟩
  refine .bind ((send_durable hlog hat.logPath h hat.holds).mono ?_)
  rintro out m' t ⟨rfl, hsent⟩
  cases out with
  | error e => exact ⟨rfl, hsent⟩
  | ok _ =>
    refine (invalidate_still (durably_attends hsent.sound) setup nodeId m').mono ?_
    rintro _ _ _ ⟨rfl, rfl, rfl⟩
    exact ⟨rfl, hsent⟩

end Dcfs.Fuse
