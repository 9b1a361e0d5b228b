import Dcfs.Fuse.Crash

namespace Dcfs.Fuse

open Effects Fs Tables Sparse

variable {setup : Setup} {m m' : Mount} {s t : Ledger} {ino offset : ℕ} {nodeId : Uuid} {data : Bytes}
  {run run' : PendingWrite} {path : Path}

def Unopposed (s : Ledger) (spared : Option Path) (own : PendingRun) : Prop :=
  ∀ path run, s.log.Holds path run → spared ≠ some path → ∀ p b b',
    own.byteAt own.nodeId p = some b → run.byteAt own.nodeId p = some b' → b = b'

theorem Unopposed.tells {own : PendingRun} (h : Unopposed s none own) {id : Uuid} {p : ℕ} {b b' : UInt8}
    (hb : own.byteAt id p = some b) (htells : s.Tells id p b') : b' = b := by
  obtain ⟨path, run, hholds, hb'⟩ := htells
  obtain rfl := (PendingRun.byteAt_eq_some.mp hb).1
  exact (h path run hholds nofun p b b' hb hb').symm

theorem Durable.setPending {own : Option PendingRun} (h : Durable own m s) (hsound : t.Sound own)
    (hat : LoggedAt m t ino run' nodeId path)
    (hothers : ∀ i r id other, i ≠ ino → LoggedAt m s i r id other → t.log.Holds other (r.toRun id)) :
    Durable own (m.setPending ino run') t := by
  refine ⟨h.sane.setPending hat.bound run', hsound, fun {i r} hp => ?_⟩
  rw [Mount.setPending, lookup_insert] at hp
  split_ifs at hp with hi
  · cases hp
    subst hi
    exact ⟨nodeId, path, hat.logPath, hat.bound, hat.holds⟩
  · obtain ⟨id, other, hat'⟩ := h.logged hp
    exact ⟨id, other, hat'.logPath, hat'.bound, hothers i r id other hi hat'⟩

theorem startRun_durable (hlog : setup.hasLog = true) (h : Durable (some ⟨nodeId, offset, data⟩) m s)
    (hrec : s.recorded = false) (hid : m.byIno.lookup ino = some nodeId)
    (hagree : Unopposed s none ⟨nodeId, offset, data⟩) :
    Routine.Meets (durably (some ⟨nodeId, offset, data⟩)) (startRun setup nodeId offset data)
      (fun out m' t => ∃ run, out = .ok run ∧ m' = m ∧ t.recorded = true
        ∧ Durable (some ⟨nodeId, offset, data⟩) (m.setPending ino run) t) m s := by
  refine .bind ?_
  rw [beginRecord, hlog, if_pos rfl]
  refine .ask ⟨trivial, h.sound⟩ ?_
  rintro _ t ⟨path, fresh, rfl, rfl⟩
  have hholds : ∀ other r, (s.log.begin path fresh nodeId offset data).Holds other r ↔
      other = path ∧ r = ⟨nodeId, offset, data⟩ ∨ s.log.Holds other r := fun _ _ => WriteLog.holds_begin
  refine .ok ⟨_, rfl, rfl, rfl, ?_⟩
  refine h.setPending (h.sound.record hrec (fun id p b => ?_) fun id p b b' => hagree.tells)
    ⟨rfl, hid, (hholds path _).mpr (.inl ⟨rfl, rfl⟩)⟩ fun i r id other _ hat => (hholds other _).mpr (.inr hat.holds)
  constructor
  · rintro ⟨other, r, hr, hb⟩
    rcases (hholds other r).mp hr with ⟨-, rfl⟩ | hold
    · exact .inr hb
    · exact .inl ⟨other, r, hold, hb⟩
  · rintro (⟨other, r, hold, hb⟩ | hb)
    · exact ⟨other, r, (hholds other r).mpr (.inr hold), hb⟩
    · exact ⟨path, _, (hholds path _).mpr (.inl ⟨rfl, rfl⟩), hb⟩

theorem extend_durable (hlog : setup.hasLog = true)
    (h : Durable (some ⟨nodeId, run.offset + run.data.length, data⟩) m s) (hrec : s.recorded = false)
    (hat : LoggedAt m s ino run nodeId path)
    (hagree : Unopposed s run.logPath ⟨nodeId, run.offset + run.data.length, data⟩) :
    Routine.Meets (durably (some ⟨nodeId, run.offset + run.data.length, data⟩)) (extend setup run data)
      (fun out m' t => out = .ok () ∧ m' = m ∧ t.recorded = true
        ∧ Durable (some ⟨nodeId, run.offset + run.data.length, data⟩)
          (m.setPending ino { run with data := run.data ++ data }) t) m s := by
  rw [extend, hlog, hat.logPath]
  refine .bind (.ask ⟨trivial, h.sound⟩ ?_)
  rintro _ t ⟨-, rfl⟩
  refine .ok ⟨rfl, rfl, rfl, ?_⟩
  obtain ⟨log, hextend, hholds⟩ := hat.holds.extend data
  rw [hextend, Option.getD_some]
  have hbyte : ∀ id p b, ({ run.toRun nodeId with data := run.data ++ data } : PendingRun).byteAt id p = some b ↔
      (run.toRun nodeId).byteAt id p = some b
        ∨ (PendingRun.mk nodeId (run.offset + run.data.length) data).byteAt id p = some b :=
    fun id p b => PendingRun.byteAt_append
  refine h.setPending (h.sound.record hrec (fun id p b => ?_) fun id p b b' hb htells => ?_)
    ⟨rfl, hat.bound, (hholds path _).mpr (.inl ⟨rfl, rfl⟩)⟩ fun i r id other hi hat' =>
      (hholds other _).mpr (.inr ⟨hat'.path_ne h.sane hat hi, hat'.holds⟩)
  · constructor
    · rintro ⟨other, r, hr, hb⟩
      rcases (hholds other r).mp hr with ⟨-, rfl⟩ | ⟨-, hold⟩
      · exact ((hbyte id p b).mp hb).imp_left fun hold => ⟨path, _, hat.holds, hold⟩
      · exact .inl ⟨other, r, hold, hb⟩
    · rintro (⟨other, r, hold, hb⟩ | hb)
      · by_cases hother : other = path
        · subst hother
          cases hold.inj hat.holds
          exact ⟨other, _, (hholds other _).mpr (.inl ⟨rfl, rfl⟩), (hbyte id p b).mpr (.inl hb)⟩
        · exact ⟨other, r, (hholds other r).mpr (.inr ⟨hother, hold⟩), hb⟩
      · exact ⟨path, _, (hholds path _).mpr (.inl ⟨rfl, rfl⟩), (hbyte id p b).mpr (.inr hb)⟩
  · obtain ⟨other, r, hold, hb'⟩ := htells
    obtain ⟨rfl, hp, hb⟩ := PendingRun.byteAt_eq_some.mp hb
    by_cases hother : other = path
    · -- the run ends where the write begins
      subst hother
      cases hold.inj hat.holds
      obtain ⟨-, -, hb'⟩ := PendingRun.byteAt_eq_some.mp hb'
      have hlt : p - run.offset < run.data.length := (List.getElem?_eq_some_iff.mp hb').1
      have hge : run.offset + run.data.length ≤ p := hp
      omega
    · refine (hagree other r hold ?_ p b b' (PendingRun.byteAt_eq_some.mpr ⟨rfl, hp, hb⟩) hb').symm
      rw [hat.logPath]
      exact fun heq => hother (Option.some.inj heq).symm

theorem buffer_durable (hlog : setup.hasLog = true) (h : Durable (some ⟨nodeId, offset, data⟩) m s)
    (hrec : s.recorded = false) (hid : m.byIno.lookup ino = some nodeId)
    (hagree : Unopposed s ((m.pending.lookup ino).bind PendingWrite.logPath) ⟨nodeId, offset, data⟩) :
    Routine.Meets (durably (some ⟨nodeId, offset, data⟩)) (buffer setup ino nodeId offset data)
      (fun out m' t => Durable (some ⟨nodeId, offset, data⟩) m' t ∧ m'.byIno = m.byIno
        ∧ match out with
          | .ok run => t.recorded = true ∧ m'.pending.lookup ino = some run
          | .error _ => t.recorded = false) m s := by
  have hset : ∀ (m : Mount) run, (m.setPending ino run).pending.lookup ino = some run := fun m run =>
    (lookup_insert _ _ _ _).trans (if_pos rfl)
  refine .bind (.update ?_)
  dsimp only
  split
  · rename_i run hrun
    obtain ⟨id, path, hat⟩ := h.logged hrun
    cases hid.symm.trans hat.bound
    rw [hrun, Option.bind_some] at hagree
    split_ifs with hend
    · subst hend
      refine .bind ((extend_durable hlog h hrec hat hagree).mono ?_)
      rintro _ _ t ⟨rfl, rfl, hrec', hdurable⟩
      exact .bind (.update (.ok ⟨hdurable, rfl, hrec', hset _ _⟩))
    · refine .bind (.update (.bind ((send_durable hlog hat.logPath h.sound hat.holds).mono ?_)))
      rintro out _ t ⟨rfl, hsent⟩
      have hdurable := h.drop_sent hat hsent
      have hrec' := hsent.recorded.trans hrec
      cases out with
      | error e => exact ⟨hdurable, rfl, hrec'⟩
      | ok _ =>
        have hlog' : t.log = s.log.finish path := hsent.log.elim And.right fun ⟨⟨e, he⟩, _⟩ => nomatch he
        have hagree' : Unopposed t none ⟨nodeId, offset, data⟩ := by
          intro other r hholds _
          rw [hlog'] at hholds
          obtain ⟨hne, hold⟩ := WriteLog.holds_finish.mp hholds
          refine hagree other r hold ?_
          rw [hat.logPath]
          exact fun heq => hne (Option.some.inj heq).symm
        refine .bind ((startRun_durable hlog hdurable hrec' hid hagree').mono ?_)
        rintro _ _ t' ⟨run', rfl, rfl, hrec'', hdurable'⟩
        exact .bind (.update (.ok ⟨hdurable', rfl, hrec'', hset _ _⟩))
  · rename_i hnone
    rw [hnone, Option.bind_none] at hagree
    refine .bind ((startRun_durable hlog h hrec hid hagree).mono ?_)
    rintro _ _ t ⟨run, rfl, rfl, hrec', hdurable⟩
    exact .bind (.update (.ok ⟨hdurable, rfl, hrec', hset _ _⟩))

theorem sendDue_durable (hlog : setup.hasLog = true) {own : PendingRun} (h : Durable (some own) m s)
    (hrun : m.pending.lookup ino = some run) (hid : m.byIno.lookup ino = some own.nodeId) :
    Routine.Meets (durably (some own)) (sendDue setup ino own.nodeId run)
      (fun out m' t => Durable (some own) m' t ∧ t.recorded = s.recorded
        ∧ ∀ e, out = .error e → Harmless (some own) t) m s := by
  unfold sendDue
  split_ifs
  · obtain ⟨id, path, hat⟩ := h.logged hrun
    cases hid.symm.trans hat.bound
    refine .bind (.update ((send_durable hlog hat.logPath h.sound hat.holds).mono ?_))
    rintro out _ t ⟨rfl, hsent⟩
    refine ⟨h.drop_sent hat hsent, hsent.recorded, ?_⟩
    rintro e rfl
    obtain ⟨hok, -⟩ | ⟨-, hharm | hnone, -⟩ := hsent.log
    · cases hok
    · exact hharm
    · -- the file of the write is not there
      intro _ run nodeId found p b w hown hfound hb
      cases hown
      obtain ⟨rfl, -⟩ := PendingRun.byteAt_eq_some.mp hb
      exact absurd (hfound.symm.trans hnone) (Option.some_ne_none _)
  · exact .ok ⟨h, rfl, nofun⟩

theorem write_durable (hlog : setup.hasLog = true) (h : Durable (Op.own m (.write ino offset data)) m s)
    (hrec : s.recorded = false) (hagree : Agreeing m s (.write ino offset data)) :
    Routine.Meets (durably (Op.own m (.write ino offset data))) (write setup ino offset data)
      (fun out m' t => Durable (Op.own m (.write ino offset data)) m' t
        ∧ match out with
          | .ok _ => t.recorded = true
          | .error _ => Harmless (Op.own m (.write ino offset data)) t) m s := by
  refine .bind (.bind (.update ?_))
  dsimp only
  split
  · rename_i nodeId hid
    have hown : Op.own m (.write ino offset data) = some ⟨nodeId, offset, data⟩ := by rw [Op.own, hid]; rfl
    rw [hown] at h ⊢
    have hreach : m.Later (m.reach ino (offset + data.length)) := h.sane.later_of ⟨rfl, rfl, rfl⟩ rfl
    have hagree' : Unopposed s ((m.pending.lookup ino).bind PendingWrite.logPath) ⟨nodeId, offset, data⟩ :=
      fun path run hholds hspared => hagree nodeId path run hid hholds hspared
    refine .ok (.bind (.update (.bind ((buffer_durable hlog (h.later hreach) hrec hid hagree').mono ?_))))
    rintro (e | run) m₁ t₁ ⟨hd₁, hino, hout⟩
    · exact ⟨hd₁, fun hrec₁ => absurd (hout.symm.trans hrec₁) Bool.false_ne_true⟩
    · obtain ⟨hrec₁, hrun⟩ := hout
      have hid₁ : m₁.byIno.lookup ino = some nodeId := hino ▸ hid
      refine .bind ((sendDue_durable hlog hd₁ hrun hid₁).mono ?_)
      rintro (e | _) m₂ t₂ ⟨hd₂, hrec₂, hharm⟩
      · exact ⟨hd₂, hharm e rfl⟩
      · refine .bind ((invalidate_still (durably_attends hd₂.sound) setup nodeId m₂).mono ?_)
        rintro _ _ _ ⟨rfl, rfl, rfl⟩
        exact .ok ⟨hd₂, hrec₂.trans hrec₁⟩
  · rename_i hnone
    have hown : Op.own m (.write ino offset data) = none := by rw [Op.own, hnone]; rfl
    rw [hown] at h ⊢
    exact .fail ⟨h, fun _ _ _ _ _ _ _ hrun => nomatch hrun⟩

end Dcfs.Fuse
