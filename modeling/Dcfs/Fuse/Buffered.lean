import Dcfs.Fuse.Delivery

namespace Dcfs.Fuse

open Effects Fs Tables

variable {setup : Setup} {mayFail : Prop} {acked : List (ℕ × ℕ × Bytes)} {m m' : Mount}
  {accepted : List PendingRun} {ino offset : ℕ} {nodeId : Uuid} {data : Bytes}

structure Buffered (mayFail : Prop) (acked : List (ℕ × ℕ × Bytes)) (ino offset : ℕ) (data : Bytes) (m : Mount)
    (run : PendingWrite) (accepted : List PendingRun) : Prop where
  safe : Safe ((ino, offset, data) :: acked) m accepted
  run : m.buffers ino run
  alone : mayFail → Safe acked (m.dropPending ino) accepted

theorem startRun_still (nodeId : Uuid) (offset : ℕ) (data : Bytes) :
    Routine.Meets (delivery mayFail) (startRun setup nodeId offset data)
      (fun out m' t => (∃ path, out = .ok ⟨offset, data, path⟩) ∧ m' = m ∧ t = accepted) m accepted := by
  refine .bind ?_
  unfold beginRecord
  split_ifs
  · exact .ask trivial fun path _ ht => .ok ⟨⟨path, rfl⟩, rfl, ht⟩
  · exact .ok (.ok ⟨⟨none, rfl⟩, rfl, rfl⟩)

theorem extend_still (run : PendingWrite) (data : Bytes) :
    Routine.Meets (delivery mayFail) (extend setup run data)
      (fun out m' t => out = .ok () ∧ m' = m ∧ t = accepted) m accepted := by
  unfold extend
  split
  · exact .bind (.ask trivial fun _ _ ht => .ok ⟨rfl, rfl, ht⟩)
  · exact .ok ⟨rfl, rfl, rfl⟩

theorem buffers_setPending (m : Mount) (ino : ℕ) (run : PendingWrite) : (m.setPending ino run).buffers ino run := by
  rw [Mount.buffers, Mount.setPending, lookup_insert, if_pos rfl]

theorem Safe.begin (h : Safe acked m accepted) (hid : m.byIno.lookup ino = some nodeId)
    (hnone : m.pending.lookup ino = none) (path : Option Path) :
    Buffered mayFail acked ino offset data (m.setPending ino ⟨offset, data, path⟩) ⟨offset, data, path⟩ accepted := by
  have hother : ∀ i r, m.buffers i r → i ≠ ino := by
    rintro i r hr rfl
    rw [Mount.buffers, hnone] at hr
    cases hr
  have hsane := h.sane.setPending hid ⟨offset, data, path⟩
  refine ⟨⟨hsane, .ack (h.kept.mono fun i r hr => ?_) hid (buffers_setPending _ _ _) fun _ _ hp => hp⟩,
    buffers_setPending _ _ _, fun _ => ⟨hsane.dropPending ino, h.kept.mono fun i r hr => ?_⟩⟩
  · rw [Mount.buffers, Mount.setPending, lookup_insert, if_neg (hother i r hr)]
    exact hr
  · rw [Mount.buffers, Mount.dropPending, lookup_erase, if_neg (hother i r hr), Mount.setPending, lookup_insert,
      if_neg (hother i r hr)]
    exact hr

theorem Safe.grow (h : Safe acked m accepted) (hid : m.byIno.lookup ino = some nodeId) {run : PendingWrite}
    (hrun : m.buffers ino run) (hend : run.offset + run.data.length = offset) (hmay : ¬mayFail) :
    Buffered mayFail acked ino offset data (m.setPending ino { run with data := run.data ++ data })
      { run with data := run.data ++ data } accepted := by
  refine ⟨⟨h.sane.setPending hid _, .ack (h.kept.extended hrun fun _ _ hp => holdsAt_append hp) hid
    (buffers_setPending _ _ _) fun p b hp => ?_⟩, buffers_setPending _ _ _, fun hf => absurd hf hmay⟩
  rw [← hend] at hp
  exact holdsAt_append_right hp

theorem buffer_buffered (h : Safe acked m accepted) (hid : m.byIno.lookup ino = some nodeId)
    (hfail : mayFail → m.pending.lookup ino = none) :
    Routine.Meets (delivery mayFail) (buffer setup ino nodeId offset data)
      (fun out m' t => ∃ run, out = .ok run ∧ m'.byIno = m.byIno
        ∧ Buffered mayFail acked ino offset data m' run t) m accepted := by
  refine .bind (.update ?_)
  dsimp only
  split
  · rename_i run hrun
    have hmay : ¬mayFail := by
      intro hf
      rw [hfail hf] at hrun
      cases hrun
    split_ifs with hend
    · refine .bind ((extend_still run data).mono ?_)
      rintro _ _ _ ⟨rfl, rfl, rfl⟩
      exact .bind (.update (.ok ⟨_, rfl, rfl, h.grow hid hrun hend hmay⟩))
    · have hid' : (m.dropPending ino).byIno.lookup ino = some nodeId := hid
      refine .bind (.update (.bind ((send_delivers nodeId run).mono ?_)))
      rintro _ _ _ ⟨rfl, ⟨rfl, rfl⟩ | ⟨-, hf, -⟩⟩
      · refine .bind ((startRun_still nodeId offset data).mono ?_)
        rintro _ _ _ ⟨⟨path, rfl⟩, rfl, rfl⟩
        refine .bind (.update (.ok ⟨_, rfl, rfl, (h.drop_sent hid hrun).begin hid' ?_ path⟩))
        rw [Mount.dropPending, lookup_erase, if_pos rfl]
      · exact absurd hf hmay
  · rename_i hnone
    refine .bind ((startRun_still nodeId offset data).mono ?_)
    rintro _ _ _ ⟨⟨path, rfl⟩, rfl, rfl⟩
    exact .bind (.update (.ok ⟨_, rfl, rfl, h.begin hid hnone path⟩))

theorem Safe.tail {a : ℕ × ℕ × Bytes} (h : Safe (a :: acked) m accepted) : Safe acked m accepted :=
  ⟨h.sane, fun i o d hack => h.kept i o d (List.mem_cons_of_mem _ hack)⟩

theorem sendDue_safe {run : PendingWrite} (h : Buffered mayFail acked ino offset data m run accepted)
    (hid : m.byIno.lookup ino = some nodeId) :
    Routine.Meets (delivery mayFail) (sendDue setup ino nodeId run)
      (fun out m' t => Safe acked m' t ∧ (out = .ok () → Safe ((ino, offset, data) :: acked) m' t)) m accepted := by
  unfold sendDue
  split_ifs
  · refine .bind (.update ((send_delivers nodeId run).mono ?_))
    rintro _ _ _ ⟨rfl, ⟨rfl, rfl⟩ | ⟨⟨e, rfl⟩, hmay, rfl⟩⟩
    · have hsent := h.safe.drop_sent hid h.run
      exact ⟨hsent.tail, fun _ => hsent⟩
    · exact ⟨h.alone hmay, nofun⟩
  · exact .ok ⟨h.safe.tail, fun _ => h.safe⟩

theorem write_safe (h : Safe acked m accepted) (hfail : mayFail → m.pending.lookup ino = none) :
    Routine.Meets (delivery mayFail) (write setup ino offset data)
      (fun out m' t => Safe acked m' t ∧ ∀ n, out = .ok n → Safe ((ino, offset, data) :: acked) m' t) m accepted := by
  refine .bind (.bind (.update ?_))
  dsimp only
  split
  · rename_i nodeId hid
    have hreach : m.Later (m.reach ino (offset + data.length)) := h.sane.later_of ⟨rfl, rfl, rfl⟩ rfl
    refine .ok (.bind (.update (.bind ((buffer_buffered (h.later hreach) hid hfail).mono ?_))))
    rintro _ m₁ t₁ ⟨run, rfl, hino, hbuffered⟩
    have hid₁ : m₁.byIno.lookup ino = some nodeId := hino ▸ hid
    refine .bind ((sendDue_safe hbuffered hid₁).mono ?_)
    rintro out m₂ t₂ ⟨hold, hnew⟩
    cases out with
    | error e => exact ⟨hold, nofun⟩
    | ok _ =>
      refine .bind ((invalidate_still (delivery_attends mayFail t₂) setup nodeId m₂).mono ?_)
      rintro _ _ _ ⟨rfl, rfl, rfl⟩
      exact .ok ⟨hold, fun _ _ => hnew rfl⟩
  · exact .fail ⟨h, nofun⟩

theorem flush_then_safe {α : Type} {x : Unit → Fs α} (hx : ∀ t, Calm (delivery mayFail) t (x ()))
    (h : Safe acked m accepted) (hfail : mayFail → m.pending.lookup ino = none) :
    Routine.Meets (delivery mayFail) (flush setup ino >>= x)
      (fun out m' t => Safe acked m' t ∧ ∀ a, out = .ok a → m'.pending.lookup ino = none) m accepted := by
  refine .bind ((flush_safe h hfail).mono ?_)
  rintro out m₁ t₁ ⟨hsafe, hnone⟩
  cases out with
  | error e => exact ⟨hsafe, nofun⟩
  | ok _ =>
    refine ((hx t₁).safe hsafe).mono ?_
    rintro _ m₂ t₂ ⟨hsafe₂, hpending⟩
    exact ⟨hsafe₂, fun _ _ => hpending ▸ hnone rfl⟩

theorem flushAll_then_safe {α : Type} {x : Unit → Fs α} (hx : ∀ t, Calm (delivery mayFail) t (x ()))
    (h : Safe acked m accepted) (hfail : mayFail → ∀ ino, m.pending.lookup ino = none) :
    Routine.Meets (delivery mayFail) (flushAll setup >>= x) (fun _ m' t => Safe acked m' t) m accepted := by
  refine .bind ((flushAll_safe h hfail).mono ?_)
  rintro out m₁ t₁ ⟨hsafe, -⟩
  cases out with
  | error e => exact hsafe
  | ok _ => exact ((hx t₁).safe hsafe).mono fun _ _ _ hrest => hrest.1

theorem done_safe {α β : Type} {x : Fs α} {f : α → β}
    (h : Routine.Meets (delivery mayFail) x (fun _ m' t => Safe acked m' t) m accepted) :
    Routine.Meets (delivery mayFail) (x >>= fun a => pure (f a)) (fun _ m' t => Safe acked m' t) m accepted := by
  refine .bind (h.mono fun out m' t hsafe => ?_)
  cases out with
  | ok a => exact .ok hsafe
  | error e => exact hsafe

theorem Op.safe {op : Op} (hop : op.isData = true) (h : Safe acked m accepted) :
    Routine.Meets (delivery (Unbuffered m op)) (op.run setup)
      (fun out m' t => Safe (acknowledge op out acked) m' t) m accepted := by
  have hR := delivery_attends (Unbuffered m op)
  cases op with
  | write ino offset data =>
    refine .bind ((write_safe h fun hf => hf).mono ?_)
    rintro out m' t ⟨hold, hnew⟩
    cases out with
    | ok n => exact .ok (hnew n rfl)
    | error e => exact hold
  | read ino offset size =>
    exact done_safe
      ((flush_then_safe (fun t => readRest_calm (hR t) setup ino offset size) h fun hf => hf).mono
        fun _ _ _ hr => hr.1)
  | getattr ino =>
    exact done_safe ((flush_then_safe (fun t => stat_calm (hR t) ino) h fun hf => hf).mono fun _ _ _ hr => hr.1)
  | lookup parentIno name =>
    exact done_safe (flushAll_then_safe (fun t => findName_calm (hR t) parentIno name) h fun hf => hf)
  | readdir ino => exact done_safe (flushAll_then_safe (fun t => readdirRest_calm (hR t) ino) h fun hf => hf)
  | setattr ino req =>
    have hcalm := fun t => patch_calm (hR t) (fun _ _ => ⟨trivial, fun _ _ hr => hr⟩) setup ino req
    exact done_safe ((flush_then_safe hcalm h fun hf => hf).mono fun _ _ _ hr => hr.1)
  | flush ino => exact done_safe ((flush_safe h fun hf => hf).mono fun _ _ _ hr => hr.1)
  | fsync ino =>
    exact done_safe ((flush_then_safe (fun t => sync_calm (hR t) ino) h fun hf => hf).mono fun _ _ _ hr => hr.1)
  | create _ _ _ _ _ _ => cases hop
  | remove _ _ => cases hop
  | rename _ _ _ _ => cases hop

end Dcfs.Fuse
