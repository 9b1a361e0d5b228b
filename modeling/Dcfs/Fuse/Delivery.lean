import Dcfs.Fuse.Upkeep

namespace Dcfs.Fuse

open Effects Fs Tables

/--
The server has accepted the runs in the state. Any call may be answered in any way, except that a write
is refused only if `mayFail`.
-/
def delivery (mayFail : Prop) : Rules Client (List PendingRun) where
  admits _ _ := True
  outcome c s r t :=
    match c, r with
    | .writeFile nodeId offset data, .ok _ => t = ⟨nodeId, offset, data⟩ :: s
    | .writeFile _ _ _, .error _ => mayFail ∧ t = s
    | _, _ => t = s

structure Session where
  mount : Mount
  accepted : List PendingRun
  acked : List (ℕ × ℕ × Bytes)

def acknowledge (op : Op) (out : Served Result) (acked : List (ℕ × ℕ × Bytes)) : List (ℕ × ℕ × Bytes) :=
  match op, out with
  | .write ino offset data, .ok _ => (ino, offset, data) :: acked
  | _, _ => acked

def Op.isData : Op → Bool
  | .create _ _ _ _ _ _ => false
  | .remove _ _ => false
  | .rename _ _ _ _ => false
  | _ => true

inductive Session.Run (setup : Setup) (mayFail : Mount → Op → Prop) : Session → Prop
  | start (rootId : Uuid) : Run setup mayFail ⟨.fresh rootId, [], []⟩
  | step {s : Session} {op : Op} {out : Served Result} {m : Mount} {t : List PendingRun} :
      Run setup mayFail s → op.isData = true →
      Program.Ends (delivery (mayFail s.mount op)) (op.run setup s.mount) s.accepted (out, m) t →
      Run setup mayFail ⟨m, t, acknowledge op out s.acked⟩

/-- The operation has nothing to send that was buffered before it. -/
def Unbuffered (m : Mount) : Op → Prop
  | .write ino _ _ => m.pending.lookup ino = none
  | .read ino _ _ => m.pending.lookup ino = none
  | .getattr ino => m.pending.lookup ino = none
  | .setattr ino _ => m.pending.lookup ino = none
  | .flush ino => m.pending.lookup ino = none
  | .fsync ino => m.pending.lookup ino = none
  | _ => ∀ ino, m.pending.lookup ino = none

def holdsAt (offset : ℕ) (data : Bytes) (p : ℕ) (b : UInt8) : Prop := offset ≤ p ∧ data[p - offset]? = some b

def AcceptedAt (accepted : List PendingRun) (nodeId : Uuid) (p : ℕ) (b : UInt8) : Prop :=
  ∃ run ∈ accepted, run.nodeId = nodeId ∧ holdsAt run.offset run.data p b

def Delivered (accepted : List PendingRun) (nodeId : Uuid) (offset : ℕ) (data : Bytes) : Prop :=
  ∀ p b, holdsAt offset data p b → AcceptedAt accepted nodeId p b

def Kept (acked : List (ℕ × ℕ × Bytes)) (m : Mount) (buffered : ℕ → PendingWrite → Prop)
    (accepted : List PendingRun) : Prop :=
  ∀ ino offset data, (ino, offset, data) ∈ acked → ∃ nodeId, m.byIno.lookup ino = some nodeId
    ∧ ∀ p b, holdsAt offset data p b → AcceptedAt accepted nodeId p b
      ∨ ∃ run, buffered ino run ∧ holdsAt run.offset run.data p b

def Mount.buffers (m : Mount) (ino : ℕ) (run : PendingWrite) : Prop := m.pending.lookup ino = some run

theorem delivery_attends (mayFail : Prop) (accepted : List PendingRun) : Attends (delivery mayFail) accepted := by
  intro c hc
  refine ⟨trivial, fun r t hr => ?_⟩
  cases c with
  | writeFile _ _ _ => cases hc
  | _ => exact hr

variable {setup : Setup} {mayFail : Prop} {acked : List (ℕ × ℕ × Bytes)} {m m' : Mount}
  {buffered buffered' : ℕ → PendingWrite → Prop} {accepted : List PendingRun} {ino : ℕ} {nodeId : Uuid}
  {run : PendingWrite}

namespace Kept

theorem mono (h : Kept acked m buffered accepted) (hb : ∀ ino run, buffered ino run → buffered' ino run) :
    Kept acked m buffered' accepted := by
  intro ino offset data hack
  obtain ⟨nodeId, hbound, hbytes⟩ := h ino offset data hack
  refine ⟨nodeId, hbound, fun p b hp => ?_⟩
  exact (hbytes p b hp).imp_right fun ⟨run, hrun, hat⟩ => ⟨run, hb ino run hrun, hat⟩

theorem later (h : Kept acked m buffered accepted) (hm : m.Later m') : Kept acked m' buffered accepted := by
  intro ino offset data hack
  obtain ⟨nodeId, hbound, hbytes⟩ := h ino offset data hack
  exact ⟨nodeId, hm.bound hbound, hbytes⟩

theorem sent (h : Kept acked m buffered accepted) (hid : m.byIno.lookup ino = some nodeId)
    (hb : ∀ i r, buffered i r → buffered' i r ∨ i = ino ∧ r = run) :
    Kept acked m buffered' (⟨nodeId, run.offset, run.data⟩ :: accepted) := by
  intro i offset data hack
  obtain ⟨nodeId', hbound, hbytes⟩ := h i offset data hack
  refine ⟨nodeId', hbound, fun p b hp => ?_⟩
  rcases hbytes p b hp with ⟨sent, hsent, hrest⟩ | ⟨r, hr, hat⟩
  · exact .inl ⟨sent, List.mem_cons_of_mem _ hsent, hrest⟩
  · rcases hb i r hr with hr' | ⟨rfl, rfl⟩
    · exact .inr ⟨r, hr', hat⟩
    · rw [hid] at hbound
      cases hbound
      exact .inl ⟨_, List.mem_cons_self, rfl, hat⟩

theorem ack (h : Kept acked m buffered accepted) (hid : m.byIno.lookup ino = some nodeId)
    (hrun : buffered ino run) {offset : ℕ} {data : Bytes}
    (hdata : ∀ p b, holdsAt offset data p b → holdsAt run.offset run.data p b) :
    Kept ((ino, offset, data) :: acked) m buffered accepted := by
  intro i offset' data' hack
  rcases List.mem_cons.mp hack with heq | hold
  · cases heq
    exact ⟨nodeId, hid, fun p b hp => .inr ⟨run, hrun, hdata p b hp⟩⟩
  · exact h i offset' data' hold

theorem extended (h : Kept acked m m.buffers accepted) (hold : m.buffers ino run) {run' : PendingWrite}
    (hrun : ∀ p b, holdsAt run.offset run.data p b → holdsAt run'.offset run'.data p b) :
    Kept acked (m.setPending ino run') (m.setPending ino run').buffers accepted := by
  intro i offset data hack
  obtain ⟨nodeId, hbound, hbytes⟩ := h i offset data hack
  refine ⟨nodeId, hbound, fun p b hp => ?_⟩
  rcases hbytes p b hp with hsent | ⟨r, hr, hat⟩
  · exact .inl hsent
  · by_cases hi : i = ino
    · subst hi
      cases Option.some.inj (hold.symm.trans hr)
      exact .inr ⟨run', by rw [Mount.buffers, Mount.setPending, lookup_insert, if_pos rfl], hrun p b hat⟩
    · refine .inr ⟨r, ?_, hat⟩
      rw [Mount.buffers, Mount.setPending, lookup_insert, if_neg hi]
      exact hr

end Kept

theorem holdsAt_append {offset : ℕ} {data more : Bytes} {p : ℕ} {b : UInt8} (h : holdsAt offset data p b) :
    holdsAt offset (data ++ more) p b := by
  refine ⟨h.1, ?_⟩
  rw [List.getElem?_append_left]
  · exact h.2
  · exact (List.getElem?_eq_some_iff.mp h.2).1

theorem holdsAt_append_right {offset : ℕ} {data more : Bytes} {p : ℕ} {b : UInt8}
    (h : holdsAt (offset + data.length) more p b) : holdsAt offset (data ++ more) p b := by
  obtain ⟨hp, hb⟩ := h
  refine ⟨by omega, ?_⟩
  rw [List.getElem?_append_right (by omega), ← hb]
  congr 1
  omega

theorem finish_still (run : PendingWrite) : Routine.Meets (delivery mayFail) (finish setup run)
    (fun out m' t => out = .ok () ∧ m' = m ∧ t = accepted) m accepted := by
  unfold finish
  split
  · exact .ask trivial fun _ _ ht => ⟨rfl, rfl, ht⟩
  · exact .ok ⟨rfl, rfl, rfl⟩

theorem send_delivers (nodeId : Uuid) (run : PendingWrite) :
    Routine.Meets (delivery mayFail) (send setup nodeId run) (fun out m' t => m' = m
      ∧ (out = .ok () ∧ t = ⟨nodeId, run.offset, run.data⟩ :: accepted
        ∨ (∃ e, out = .error e) ∧ mayFail ∧ t = accepted)) m accepted := by
  refine .bind (.ask trivial fun answer t hanswer => ?_)
  cases answer with
  | error e => exact .bind (.fail ⟨rfl, .inr ⟨⟨e, rfl⟩, hanswer⟩⟩)
  | ok n =>
    refine .bind (.ok ((finish_still run).mono ?_))
    rintro _ _ _ ⟨rfl, rfl, rfl⟩
    exact ⟨rfl, .inl ⟨rfl, hanswer⟩⟩

theorem sendDrained_delivers (hid : m.byIno.lookup ino = some nodeId) (run : PendingWrite) :
    Routine.Meets (delivery mayFail) (sendDrained setup ino run) (fun out m' t => m' = m
      ∧ (out = .ok () ∧ t = ⟨nodeId, run.offset, run.data⟩ :: accepted
        ∨ (∃ e, out = .error e) ∧ mayFail ∧ t = accepted)) m accepted := by
  refine .bind ((idFor_bound hid).mono ?_)
  rintro _ _ _ ⟨rfl, rfl, rfl⟩
  refine .bind ((send_delivers nodeId run).mono ?_)
  rintro _ m' _ ⟨rfl, ⟨rfl, rfl⟩ | ⟨⟨e, rfl⟩, hfail, rfl⟩⟩
  · refine (invalidate_still (delivery_attends mayFail _) setup nodeId m').mono ?_
    rintro _ _ _ ⟨rfl, rfl, rfl⟩
    exact ⟨rfl, .inl ⟨rfl, rfl⟩⟩
  · exact ⟨rfl, .inr ⟨⟨e, rfl⟩, hfail, rfl⟩⟩

structure Safe (acked : List (ℕ × ℕ × Bytes)) (m : Mount) (accepted : List PendingRun) : Prop where
  sane : m.Sane
  kept : Kept acked m m.buffers accepted

theorem Safe.later (h : Safe acked m accepted) (hm : m.Later m') : Safe acked m' accepted := by
  refine ⟨hm.sane, (h.kept.later hm).mono fun i r hr => ?_⟩
  rw [Mount.buffers, hm.pending]
  exact hr

theorem Safe.drop_sent (h : Safe acked m accepted) (hid : m.byIno.lookup ino = some nodeId)
    (hrun : m.buffers ino run) :
    Safe acked (m.dropPending ino) (⟨nodeId, run.offset, run.data⟩ :: accepted) := by
  refine ⟨h.sane.dropPending ino, Kept.sent h.kept hid fun i r hr => ?_⟩
  by_cases hi : i = ino
  · subst hi
    exact .inr ⟨rfl, Option.some.inj (hr.symm.trans hrun)⟩
  · refine .inl ?_
    rw [Mount.buffers, Mount.dropPending, lookup_erase, if_neg hi]
    exact hr

theorem Calm.safe {α : Type} {x : Fs α} (hx : Calm (delivery mayFail) accepted x) (h : Safe acked m accepted) :
    Routine.Meets (delivery mayFail) x (fun _ m' t => Safe acked m' t ∧ m'.pending = m.pending) m accepted := by
  refine (hx m h.sane).mono ?_
  rintro _ m' _ ⟨hlater, rfl⟩
  exact ⟨h.later hlater, hlater.pending⟩

theorem flush_safe (h : Safe acked m accepted) (hfail : mayFail → m.pending.lookup ino = none) :
    Routine.Meets (delivery mayFail) (flush setup ino)
      (fun out m' t => Safe acked m' t ∧ (out = .ok () → m'.pending.lookup ino = none)) m accepted := by
  refine .bind (.update ?_)
  dsimp only
  split
  · rename_i run hrun
    obtain ⟨nodeId, hid⟩ := h.sane.held hrun
    have hid' : (m.dropPending ino).byIno.lookup ino = some nodeId := hid
    refine .bind (.update ((sendDrained_delivers hid' run).mono ?_))
    rintro _ _ _ ⟨rfl, ⟨rfl, rfl⟩ | ⟨-, hmay, -⟩⟩
    · refine ⟨h.drop_sent hid hrun, fun _ => ?_⟩
      rw [Mount.dropPending, lookup_erase, if_pos rfl]
    · rw [hfail hmay] at hrun
      cases hrun
  · rename_i hnone
    exact .ok ⟨h, fun _ => hnone⟩

theorem sendAll_safe {runs : List (ℕ × PendingWrite)} (hm : m.Sane) (hempty : m.pending = ∅)
    (hbound : ∀ ino run, (ino, run) ∈ runs → ∃ nodeId, m.byIno.lookup ino = some nodeId)
    (h : Kept acked m (fun ino run => (ino, run) ∈ runs) accepted) (hfail : mayFail → runs = []) :
    Routine.Meets (delivery mayFail) (sendAll setup runs)
      (fun _ m' t => Safe acked m' t ∧ ∀ ino, m'.pending.lookup ino = none) m accepted := by
  induction runs generalizing accepted with
  | nil =>
    refine .ok ⟨⟨hm, h.mono fun _ _ hmem => absurd hmem List.not_mem_nil⟩, fun ino => ?_⟩
    rw [hempty, AList.lookup_empty]
  | cons head rest ih =>
    obtain ⟨ino, run⟩ := head
    obtain ⟨nodeId, hid⟩ := hbound ino run List.mem_cons_self
    refine .bind ((sendDrained_delivers hid run).mono ?_)
    rintro _ _ _ ⟨rfl, ⟨rfl, rfl⟩ | ⟨-, hmay, -⟩⟩
    · refine ih (fun i r hmem => hbound i r (List.mem_cons_of_mem _ hmem)) (h.sent hid fun i r hmem => ?_)
        fun hmay => absurd (hfail hmay) (List.cons_ne_nil _ _)
      rcases List.mem_cons.mp hmem with heq | hrest
      · cases heq
        exact .inr ⟨rfl, rfl⟩
      · exact .inl hrest
    · exact absurd (hfail hmay) (List.cons_ne_nil _ _)

theorem flushAll_safe (h : Safe acked m accepted) (hfail : mayFail → ∀ ino, m.pending.lookup ino = none) :
    Routine.Meets (delivery mayFail) (flushAll setup)
      (fun _ m' t => Safe acked m' t ∧ ∀ ino, m'.pending.lookup ino = none) m accepted := by
  refine .bind (.update (.bind (.update ?_)))
  refine sendAll_safe ⟨⟨h.sane.pairs, h.sane.below⟩, fun hp => ?_⟩ rfl (fun ino run hmem => ?_)
    (h.kept.mono fun ino run hrun => Mount.mem_drain.mpr hrun) fun hmay => ?_
  · rw [AList.lookup_empty] at hp
    cases hp
  · exact h.sane.held (Mount.mem_drain.mp hmem)
  · refine List.eq_nil_iff_forall_not_mem.mpr ?_
    rintro ⟨ino, run⟩ hmem
    have hrun := Mount.mem_drain.mp hmem
    rw [hfail hmay] at hrun
    cases hrun

end Dcfs.Fuse
