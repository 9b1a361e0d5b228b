import Dcfs.Fuse.Logged

namespace Dcfs.Fuse

open Effects Fs Tables Sparse

structure Quiet (own : Option PendingRun) (m : Mount) (s : Ledger) : Prop extends Durable own m s where
  empty : m.pending = ∅

def ClientCall.isChange : ClientCall → Bool
  | .patchNode _ _ => true
  | .createNode _ => true
  | .deleteNode _ => true
  | .renameNode _ _ _ => true
  | _ => false

variable {setup : Setup} {own : Option PendingRun} {m m' : Mount} {s t : Ledger} {ino : ℕ} {nodeId : Uuid}
  {run : PendingWrite} {path : Path}

namespace Ledger.Sound

theorem latest_none (s : Ledger) : s.latest none = s.wanted := by
  funext nodeId p
  rw [latest, ite_self]
  rfl

theorem dropped (h : s.Sound own) (nodeId : Uuid) : (s.dropped nodeId).Sound own := by
  intro id found p b hfound hlatest
  rw [Ledger.dropped, lookup_erase] at hfound
  split_ifs at hfound
  exact h id found p b hfound hlatest

theorem created (h : s.Sound none) (nodeId : Uuid) : (s.created nodeId).Sound none := by
  intro id found p b hfound hlatest
  rw [latest_none] at hlatest
  simp only [Ledger.created, lookup_insert] at hfound hlatest
  split_ifs at hfound hlatest
  exact h id found p b hfound ((congrFun₂ (latest_none s) id p).trans hlatest)

theorem cutOff (h : s.Sound none) (nodeId : Uuid) (n : ℕ) : (s.cutOff nodeId n).Sound none := by
  intro id found p b hfound hlatest
  rw [latest_none] at hlatest
  simp only [Ledger.cutOff] at hlatest
  split_ifs at hlatest
  exact h id found p b hfound ((congrFun₂ (latest_none s) id p).trans hlatest)

theorem resized (h : s.Sound none) {nodeId : Uuid} {n : ℕ} {bytes : Bytes} (hold : s.files.lookup nodeId = some bytes) :
    ((s.cutOff nodeId n).put nodeId (resized n bytes)).Sound none := by
  intro id found p b hfound hlatest
  have hcut := h.cutOff nodeId n
  rw [Ledger.put, lookup_insert] at hfound
  split_ifs at hfound with hid
  · cases hfound
    subst hid
    have hlt : p < n := by
      rw [latest_none] at hlatest
      simp only [Ledger.put, Ledger.cutOff, true_and] at hlatest
      split_ifs at hlatest with hp
      exact not_le.mp hp
    obtain ⟨hagree, hshown⟩ := hcut id bytes p b hold hlatest
    refine ⟨hagree, hshown.imp_right fun hb => ?_⟩
    have hlen := (List.getElem?_eq_some_iff.mp hb).1
    rw [Fuse.resized, List.getElem?_append_left (by rw [List.length_take]; omega), List.getElem?_take_of_lt hlt]
    exact hb
  · exact hcut id found p b hfound hlatest

end Ledger.Sound

theorem Durable.changed (h : Durable none m s) {c : ClientCall} (hc : c.isChange = true) {r : c.Reply}
    (ho : (durably none).outcome c s r t) : Durable none m t := by
  have hboth : t.Sound none ∧ t.log = s.log := by
    cases c with
    | patchNode nodeId req =>
      rcases ho with rfl | ⟨n, bytes, -, hold, rfl⟩
      · cases hsize : req.size with
        | none => exact ⟨h.sound, rfl⟩
        | some n => exact ⟨h.sound.cutOff nodeId n, rfl⟩
      · exact ⟨h.sound.resized hold, rfl⟩
    | createNode req =>
      rcases ho with rfl | ⟨id, -, rfl⟩
      · exact ⟨h.sound, rfl⟩
      · exact ⟨h.sound.created id, rfl⟩
    | deleteNode id | renameNode _ _ _ =>
      rcases ho with rfl | ⟨id, rfl⟩
      · exact ⟨h.sound, rfl⟩
      · exact ⟨h.sound.dropped id, rfl⟩
    | _ => cases hc
  refine ⟨h.sane, hboth.1, fun hp => ?_⟩
  obtain ⟨nodeId, path, hat⟩ := h.logged hp
  exact ⟨nodeId, path, hat.logPath, hat.bound, hboth.2 ▸ hat.holds⟩

theorem durable_undisturbed : Undisturbed (durably own) (Durable own) := by
  refine .of_aside (fun c hc m s h => ?_) fun hlearns h => h.later (hlearns.later h.sane)
  obtain ⟨hadmits, hstill⟩ := durably_attends h.sound c hc
  exact ⟨hadmits, fun r t hr => hstill r t hr ▸ h⟩

theorem quiet_undisturbed : Undisturbed (durably own) (Quiet own) := by
  refine .of_aside (fun c hc m s h => ?_) fun hlearns h => ?_
  · obtain ⟨hadmits, hstill⟩ := durably_attends h.sound c hc
    exact ⟨hadmits, fun r t hr => hstill r t hr ▸ h⟩
  · have hlater := hlearns.later h.sane
    exact ⟨h.toDurable.later hlater, hlater.pending.trans h.empty⟩

theorem change_allows {c : ClientCall} (hc : c.isChange = true) : Allows (durably none) (Durable none) c :=
  fun _ _ h => ⟨⟨trivial, h.sound⟩, fun _ _ ho => h.changed hc ho⟩

theorem flush_durable (hlog : setup.hasLog = true) (h : Durable own m s) :
    Routine.Meets (durably own) (flush setup ino) (fun _ m' t => Durable own m' t) m s := by
  refine .bind (.update ?_)
  dsimp only
  split
  · rename_i run hrun
    obtain ⟨nodeId, path, hat⟩ := h.logged hrun
    have hat' : LoggedAt (m.dropPending ino) s ino run nodeId path := ⟨hat.logPath, hat.bound, hat.holds⟩
    refine .bind (.update ((sendDrained_durable hlog h.sound hat').mono ?_))
    rintro _ _ t ⟨rfl, hsent⟩
    exact h.drop_sent hat hsent
  · exact .ok h

theorem sendAll_durable (hlog : setup.hasLog = true) {runs : List (ℕ × PendingWrite)} (hm : m.Sane)
    (h : s.Sound own) (hnodup : (runs.map Prod.fst).Nodup)
    (hat : ∀ ino run, (ino, run) ∈ runs → ∃ nodeId path, LoggedAt m s ino run nodeId path) :
    Routine.Meets (durably own) (sendAll setup runs) (fun _ m' t => m' = m ∧ t.Sound own) m s := by
  induction runs generalizing s with
  | nil => exact .ok ⟨rfl, h⟩
  | cons head rest ih =>
    obtain ⟨ino, run⟩ := head
    obtain ⟨nodeId, path, hhead⟩ := hat ino run List.mem_cons_self
    rw [List.map_cons, List.nodup_cons] at hnodup
    refine .bind ((sendDrained_durable hlog h hhead).mono ?_)
    rintro out _ t ⟨rfl, hsent⟩
    cases out with
    | error e => exact ⟨rfl, hsent.sound⟩
    | ok _ =>
      refine ih hsent.sound hnodup.2 fun ino' run' hmem => ?_
      obtain ⟨nodeId', path', hat'⟩ := hat ino' run' (List.mem_cons_of_mem _ hmem)
      refine ⟨nodeId', path', hat'.sent hm hhead ?_ hsent⟩
      rintro rfl
      exact hnodup.1 (List.mem_map.mpr ⟨(ino', run'), hmem, rfl⟩)

theorem flushAll_durable (hlog : setup.hasLog = true) (h : Durable own m s) :
    Routine.Meets (durably own) (flushAll setup) (fun _ m' t => Quiet own m' t) m s := by
  refine .bind (.update (.bind (.update ?_)))
  have hsane : { m with pending := ∅ }.Sane := ⟨⟨h.sane.pairs, h.sane.below⟩, fun hp => by
    rw [AList.lookup_empty] at hp
    cases hp⟩
  refine (sendAll_durable hlog hsane h.sound m.drain_nodup fun ino run hmem => ?_).mono ?_
  · obtain ⟨nodeId, path, hat⟩ := h.logged (Mount.mem_drain.mp hmem)
    exact ⟨nodeId, path, hat.logPath, hat.bound, hat.holds⟩
  · rintro _ _ t ⟨rfl, hsound⟩
    refine ⟨⟨hsane, hsound, fun hp => ?_⟩, rfl⟩
    rw [AList.lookup_empty] at hp
    cases hp

end Dcfs.Fuse
