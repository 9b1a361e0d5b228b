import Dcfs.Fuse.Recorded

namespace Dcfs.Fuse

open Effects Fs Tables Sparse Routine

variable {setup : Setup} {own own' : Option PendingRun} {m m' : Mount} {s t : Ledger} {ino : ℕ} {id : Uuid}

theorem Durable.settle (h : Durable own m t) {out : Served Result}
    (hout : ∀ id found p b, t.files.lookup id = some found → (t.settle own out).wanted id p = some b →
      t.latest own id p = some b) :
    Durable own' m (t.settle own out) := by
  have hsame : (t.settle own out).files = t.files ∧ (t.settle own out).log = t.log
      ∧ (t.settle own out).recorded = false := by
    cases out with
    | ok _ | error _ => exact ⟨rfl, rfl, rfl⟩
  refine ⟨h.sane, fun id found p b hfound hlatest => ?_, fun hp => ?_⟩
  · rw [Ledger.latest, hsame.2.2] at hlatest
    rw [hsame.1] at hfound
    have hshown := h.sound id found p b hfound (hout id found p b hfound hlatest)
    rw [Ledger.Tells, hsame.2.1]
    refine ⟨fun b' hb' => hshown.1 b' ?_, hshown.2⟩
    rwa [Ledger.Tells, hsame.2.1] at hb'
  · obtain ⟨nodeId, path, hat⟩ := h.logged hp
    exact ⟨nodeId, path, hat.logPath, hat.bound, hsame.2.1 ▸ hat.holds⟩

theorem Durable.settle_none (h : Durable none m t) (out : Served Result) : Durable own' m (t.settle none out) := by
  refine h.settle fun id found p b _ hb => ?_
  rw [Ledger.Sound.latest_none]
  cases out with
  | ok _ | error _ => exact hb

theorem Harmless.latest (h : Harmless own t) {found : Bytes} {p : ℕ} {b : UInt8}
    (hfound : t.files.lookup id = some found) (hb : t.wanted id p = some b) :
    t.latest own id p = some b := by
  cases hrec : t.recorded with
  | false =>
    rw [Ledger.latest, hrec]
    exact hb
  | true =>
    rw [Ledger.latest, hrec, if_pos rfl, withRun]
    cases hown : own.bind fun run => run.byteAt id p with
    | none =>
      rw [Option.none_or]
      exact hb
    | some c =>
      obtain ⟨run, hrun, hc⟩ := Option.bind_eq_some_iff.mp hown
      rw [Option.some_or, h hrec run id found p c b hrun hfound hc hb]

theorem Quiet.unbind (h : Quiet own m s) (hid : m.byIno.lookup ino = some id) : Quiet own (m.unbind ino id) s := by
  have hnone : ∀ i, m.pending.lookup i = none := fun i => by rw [h.empty, AList.lookup_empty]
  refine ⟨⟨h.sane.unbind hid (hnone ino), h.sound, fun {i run} hp => ?_⟩, h.empty⟩
  exact absurd (hp.symm.trans (hnone i)) (Option.some_ne_none _)

theorem flush_keeps (hlog : setup.hasLog = true) (ino : ℕ) : Keeps (durably own) (Durable own) (flush setup ino) :=
  fun _ _ h => flush_durable hlog h

theorem create_keeps (parentIno : ℕ) (name : Bytes) (kind : NodeKind) (mode uid gid : ℕ) :
    Keeps (durably none) (Durable none) (create parentIno name kind mode uid gid) := by
  refine .bind (Upkeep.idFor parentIno) fun parentId => ?_
  split
  · exact .fail _
  · refine Upkeep.request (durable_undisturbed.aside _ rfl rfl) fun key =>
      Upkeep.request (change_allows rfl) fun answer => ?_
    exact .bind (Upkeep.served answer) fun node => Upkeep.attrOf durable_undisturbed node

theorem lookup_quiet (hlog : setup.hasLog = true) (parentIno : ℕ) (name : Bytes) (h : Durable own m s) :
    Meets (durably own) (lookup setup parentIno name) (fun _ m' t => Quiet own m' t) m s := by
  refine .bind ((flushAll_durable hlog h).mono fun out m' t hquiet => ?_)
  cases out with
  | error e => exact hquiet
  | ok _ =>
    exact Upkeep.findName quiet_undisturbed parentIno name m' t hquiet

theorem discard_quiet (h : Quiet own m s) :
    Meets (durably own) (discard setup ino) (fun out m' t => out = .ok () ∧ m' = m ∧ t = s) m s := by
  refine .bind (.update ?_)
  dsimp only
  rw [h.empty, AList.lookup_empty]
  exact .ok ⟨rfl, rfl, rfl⟩

theorem Quiet.changed (h : Quiet none m s) {c : ClientCall} (hc : c.isChange = true) {r : c.Reply}
    (ho : (durably none).outcome c s r t) : Quiet none m t := ⟨h.toDurable.changed hc ho, h.empty⟩

theorem remove_durable (hlog : setup.hasLog = true) (parentIno : ℕ) (name : Bytes) (h : Durable none m s) :
    Meets (durably none) (remove setup parentIno name) (fun _ m' t => Durable none m' t) m s := by
  refine .bind ((lookup_quiet hlog parentIno name h).mono fun out m₁ t₁ hq => ?_)
  cases out with
  | error e => exact hq.toDurable
  | ok target =>
    refine .bind ((discard_quiet hq).mono ?_)
    rintro _ _ _ ⟨rfl, rfl, rfl⟩
    refine .bind (.bind (.update ?_))
    dsimp only
    split
    · rename_i id hid
      refine .ok (.bind (.ask ⟨trivial, hq.sound⟩ fun answer t₂ hanswer => ?_))
      have hq₂ := hq.changed rfl hanswer
      cases answer with
      | error e => exact .bind (.fail hq₂.toDurable)
      | ok _ =>
        refine .bind (.ok (.bind ((invalidate_still (durably_attends hq₂.sound) setup id _).mono ?_)))
        rintro _ _ _ ⟨rfl, rfl, rfl⟩
        exact .update (hq₂.unbind hid).toDurable
    · exact .fail hq.toDurable

theorem replacing_quiet (found : Served Attr) (h : Quiet own m s) :
    Meets (durably own) (replacing setup ino found) (fun _ m' t => Quiet own m' t) m s := by
  unfold replacing
  split
  · rename_i replaced
    split_ifs
    · refine .bind ((discard_quiet h).mono ?_)
      rintro _ _ _ ⟨rfl, rfl, rfl⟩
      refine .bind (.update ?_)
      dsimp only
      split
      · rename_i id hid
        refine .bind ((invalidate_still (durably_attends h.sound) setup id _).mono ?_)
        rintro _ _ _ ⟨rfl, rfl, rfl⟩
        exact .update (h.unbind hid)
      · exact .ok h
    · exact .ok h
  · exact .ok h

theorem rename_durable (hlog : setup.hasLog = true) (parentIno : ℕ) (name : Bytes) (newParentIno : ℕ) (newName : Bytes)
    (h : Durable none m s) : Meets (durably none) (rename setup parentIno name newParentIno newName)
      (fun _ m' t => Durable none m' t) m s := by
  refine .bind ((lookup_quiet hlog parentIno name h).mono fun out m₁ t₁ hq => ?_)
  cases out with
  | error e => exact hq.toDurable
  | ok target =>
    refine ((?hrest : Keeps (durably none) (Quiet none) _) m₁ t₁ hq).mono fun _ _ _ hend => hend.toDurable
    refine .bind (Upkeep.idFor _) fun id => .bind (Upkeep.idFor _) fun newParentId => ?_
    refine .bind (fun _ _ hq => .attempt (lookup_quiet hlog newParentIno newName hq.toDurable)) fun found => ?_
    refine .bind (fun _ _ hq => replacing_quiet found hq) fun _ => ?_
    split
    · exact .fail _
    · refine .bind (.ask fun _ _ hq => ⟨⟨trivial, hq.sound⟩, fun _ _ ho => hq.changed rfl ho⟩) fun answer => ?_
      exact .bind (Upkeep.served answer) fun _ => .ok _

theorem Op.keeps (hlog : setup.hasLog = true) {op : Op}
    (hop : ∀ ino offset data, op ≠ .write ino offset data) :
    Keeps (durably none) (Durable none) (op.run setup) := by
  have hafter : ∀ {α : Type} {x : Fs α} (ino : ℕ), Keeps (durably none) (Durable none) x →
      Keeps (durably none) (Durable none) (Fuse.flush setup ino >>= fun _ => x) :=
    fun ino hx => .bind (flush_keeps hlog ino) fun _ => hx
  cases op with
  | write ino offset data => exact absurd rfl (hop ino offset data)
  | read ino offset size =>
    exact .bind (hafter ino (Upkeep.readRest durable_undisturbed setup ino offset size)) fun _ => .ok _
  | getattr ino => exact .bind (hafter ino (Upkeep.stat durable_undisturbed ino)) fun _ => .ok _
  | lookup parentIno name =>
    exact .bind (fun _ _ h => (lookup_quiet hlog parentIno name h).mono fun _ _ _ hq => hq.toDurable) fun _ => .ok _
  | readdir ino =>
    refine .bind (.bind (fun _ _ h => (flushAll_durable hlog h).mono fun _ _ _ hq => hq.toDurable) fun _ => ?_)
      fun _ => .ok _
    exact Upkeep.readdirRest durable_undisturbed ino
  | setattr ino req =>
    exact .bind (hafter ino (Upkeep.patch durable_undisturbed (fun _ _ => change_allows rfl) setup ino req))
      fun _ => .ok _
  | flush ino => exact .bind (flush_keeps hlog ino) fun _ => .ok _
  | fsync ino => exact .bind (hafter ino (Upkeep.sync durable_undisturbed ino)) fun _ => .ok _
  | create parentIno name kind mode uid gid =>
    exact .bind (create_keeps parentIno name kind mode uid gid) fun _ => .ok _
  | remove parentIno name => exact .bind (fun _ _ h => remove_durable hlog parentIno name h) fun _ => .ok _
  | rename parentIno name newParentIno newName =>
    exact .bind (fun _ _ h => rename_durable hlog parentIno name newParentIno newName h) fun _ => .ok _

theorem Op.durable (hlog : setup.hasLog = true) {op : Op} (h : ∀ own, Durable own m s) (hrec : s.recorded = false)
    (hagree : Agreeing m s op) : Meets (durably (op.own m)) (op.run setup)
      (fun out m' t => t.Sound (op.own m) ∧ ∀ own', Durable own' m' (t.settle (op.own m) out)) m s := by
  by_cases hwrite : ∃ ino offset data, op = .write ino offset data
  · obtain ⟨ino, offset, data, rfl⟩ := hwrite
    refine .bind ((write_durable hlog (h _) hrec hagree).mono ?_)
    rintro (e | n) m' t ⟨hdurable, hout⟩
    · exact ⟨hdurable.sound, fun own' => hdurable.settle fun id found p b hfound hb => hout.latest hfound hb⟩
    · refine .ok ⟨hdurable.sound, fun own' => hdurable.settle fun id found p b _ hb => ?_⟩
      rw [Ledger.latest, hout]
      exact hb
  · have hown : op.own m = none := by
      cases op with
      | write ino offset data => exact absurd ⟨ino, offset, data, rfl⟩ hwrite
      | _ => rfl
    have hnot : ∀ ino offset data, op ≠ .write ino offset data := fun ino offset data heq =>
      hwrite ⟨ino, offset, data, heq⟩
    rw [hown]
    exact (Op.keeps hlog hnot m s (h none)).mono fun out m' t hdurable =>
      ⟨hdurable.sound, fun own' => hdurable.settle_none out⟩

theorem Mounted.durable (hlog : setup.hasLog = true) (h : Mounted setup Agreeing Harmless m s) :
    (∀ own, Durable own m s) ∧ s.recorded = false := by
  induction h with
  | start rootId files =>
    refine ⟨fun own => ⟨Mount.fresh_sane rootId, fun id found p b _ hlatest => ?_, fun hp => ?_⟩, rfl⟩
    · cases hlatest
    · rw [Mount.fresh, AList.lookup_empty] at hp
      cases hp
  | @step m m' s t op out _ hagree hends ih =>
    refine ⟨fun own => ?_, by cases out <;> rfl⟩
    exact ((Program.Meets.of_guarded (Op.durable hlog ih.1 ih.2 hagree)).ends hends).2 own

end Dcfs.Fuse
