import Dcfs.Fuse.Http
import Dcfs.Names.Calls
import Mathlib.Logic.Function.Iterate
import Mathlib.Tactic.Common

namespace Dcfs.Fuse

open Effects Exec World Tables

variable {α : Type} {send : Sender α} {wire : Wire}

def sends (send : Sender α) (k : ℕ) (wire : Wire) : Wire := (fun wire => (send wire).2)^[k] wire

theorem sends_succ (k : ℕ) (wire : Wire) : sends send (k + 1) wire = sends send k (send wire).2 := rfl

theorem sends_succ' (k : ℕ) (wire : Wire) : sends send (k + 1) wire = (send (sends send k wire)).2 :=
  Function.iterate_succ_apply' _ _ _

def failed : Except String (Response α) → Bool
  | .ok response => response.retriable
  | .error _ => true

def Unsettled : Except ClientError (Response α × Bool) → Prop
  | .ok (response, _) => response.retriable = true
  | .error e => ∃ detail, e = .http detail

structure Settles (send : Sender α) (wire : Wire) (j : ℕ) (response : Response α) : Prop where
  before : ∀ i < j, failed (send (sends send i wire)).1 = true
  answer : (send (sends send j wire)).1 = .ok response
  final : response.retriable = false

theorem lastTry_cases (retried : Bool) (wire : Wire) :
    (∃ response, Settles send wire 0 response
      ∧ lastTry send retried wire = (.ok (response, retried), sends send 1 wire))
    ∨ (failed (send wire).1 = true ∧ ∃ result, Unsettled result
      ∧ lastTry send retried wire = (result, sends send 1 wire)) := by
  unfold lastTry
  rcases hsend : send wire with ⟨detail | response, next⟩
  · exact .inr ⟨rfl, .error (.http detail), ⟨detail, rfl⟩, by rw [sends_succ, hsend]; rfl⟩
  · have hnext : sends send 1 wire = next := by
      rw [sends_succ, hsend]
      rfl
    cases hretriable : response.retriable with
    | true => exact .inr ⟨hretriable, .ok (response, retried), hretriable, by rw [hnext]⟩
    | false =>
      refine .inl ⟨response, ⟨fun i hi => absurd hi (Nat.not_lt_zero i), ?_, hretriable⟩, by rw [hnext]⟩
      exact congrArg Prod.fst hsend

theorem Settles.succ {j : ℕ} {response : Response α} (hfailed : failed (send wire).1 = true)
    (h : Settles send (send wire).2 j response) : Settles send wire (j + 1) response where
  before i hi := by
    cases i with
    | zero => exact hfailed
    | succ i => exact h.before i (Nat.lt_of_succ_lt_succ hi)
  answer := h.answer
  final := h.final

theorem attempts_failed {left : ℕ} (retried : Bool) (hfailed : failed (send wire).1 = true) :
    attempts send (left + 1) retried wire
      = if left = 0 then lastTry send retried (send wire).2 else attempts send left true (send wire).2 := by
  rw [attempts]
  rcases hsend : send wire with ⟨detail | response, next⟩
  · rfl
  · rw [hsend] at hfailed
    exact if_pos hfailed

variable (send) in
theorem attempts_cases (left : ℕ) (retried : Bool) (wire : Wire) :
    (∃ j response, j ≤ left ∧ Settles send wire j response ∧ attempts send left retried wire
        = (.ok (response, retried || decide (0 < j ∧ 2 ≤ left)), sends send (j + 1) wire))
      ∨ ((∀ i ≤ left, failed (send (sends send i wire)).1 = true) ∧ ∃ result, Unsettled result
        ∧ attempts send left retried wire = (result, sends send (left + 1) wire)) := by
  induction left generalizing retried wire with
  | zero =>
    rcases lastTry_cases retried wire with ⟨response, hsettles, heq⟩ | ⟨hfailed, result, hresult, heq⟩
    · exact .inl ⟨0, response, le_rfl, hsettles, by simpa [attempts] using heq⟩
    · refine .inr ⟨fun i hi => ?_, result, hresult, heq⟩
      cases Nat.le_zero.mp hi
      exact hfailed
  | succ left ih =>
    cases hfailed : failed (send wire).1 with
    | false =>
      rcases hsend : send wire with ⟨detail | response, next⟩
      · rw [hsend] at hfailed
        cases hfailed
      · rw [hsend] at hfailed
        refine .inl ⟨0, response, Nat.zero_le _, ⟨fun i hi => absurd hi (Nat.not_lt_zero i), ?_, hfailed⟩, ?_⟩
        · exact congrArg Prod.fst hsend
        · have hretriable : ¬ response.retriable = true := by
            rw [show response.retriable = false from hfailed]
            exact Bool.false_ne_true
          simp [attempts, hsend, sends, hretriable]
    | true =>
      rw [attempts_failed retried hfailed]
      have hall : ∀ bound : ℕ, (∀ i ≤ bound, failed (send (sends send i (send wire).2)).1 = true) →
          ∀ i ≤ bound + 1, failed (send (sends send i wire)).1 = true := by
        intro bound h i hi
        cases i with
        | zero => exact hfailed
        | succ i => exact h i (Nat.le_of_succ_le_succ hi)
      cases left with
      | zero =>
        rw [if_pos rfl]
        rcases lastTry_cases retried (send wire).2 with ⟨response, hsettles, heq⟩ | ⟨hlast, result, hresult, heq⟩
        · exact .inl ⟨1, response, le_rfl, hsettles.succ hfailed, by simpa [sends_succ] using heq⟩
        · refine .inr ⟨hall 0 fun i hi => ?_, result, hresult, heq⟩
          cases Nat.le_zero.mp hi
          exact hlast
      | succ left =>
        rw [if_neg (Nat.succ_ne_zero _)]
        rcases ih true (send wire).2 with ⟨j, response, hj, hsettles, heq⟩ | ⟨hfail, result, hresult, heq⟩
        · exact .inl ⟨j + 1, response, Nat.succ_le_succ hj, hsettles.succ hfailed,
            by simpa [sends_succ] using heq⟩
        · exact .inr ⟨hall _ hfail, result, hresult, heq⟩

section sending

variable {α : Type} (link : Link) (status : ℕ) (request : Request α) (wire : Wire)

theorem send_sent : (link.send status request wire).2.sent = wire.sent + 1 := rfl

theorem send_world : (link.send status request wire).2.world = link.others wire.sent
    (if (link.deliveries wire.sent).applied then (link.route status request wire.world).2 else wire.world) := rfl

theorem send_served : (link.send status request wire).2.served = if (link.deliveries wire.sent).applied then
    (link.route status request wire.world).1.status :: wire.served else wire.served := rfl

theorem sends_sent (k : ℕ) : (sends (link.send status request) k wire).sent = wire.sent + k := by
  induction k with
  | zero => rfl
  | succ k ih => rw [sends_succ', send_sent, ih, Nat.add_assoc]

variable {link status request wire}

theorem failed_send (hstatus : (link.route status request wire.world).1.retriable = false) :
    failed (link.send status request wire).1 = !(link.deliveries wire.sent).reaches := by
  unfold Link.send
  cases hdelivery : link.deliveries wire.sent with
  | answered => exact hstatus
  | bodyLost detail => exact hstatus
  | requestLost detail => rfl
  | responseLost detail => rfl
  | serverError applied code =>
    have hcode := code.isLt
    simp [failed, Response.retriable, Delivery.reaches]
    omega

theorem send_ok {response : Response α} (h : (link.send status request wire).1 = .ok response)
    (hfinal : response.retriable = false) : (link.deliveries wire.sent).reaches = true
      ∧ response.status = (link.route status request wire.world).1.status := by
  unfold Link.send at h
  cases hdelivery : link.deliveries wire.sent with
  | answered =>
    rw [hdelivery] at h
    cases h
    exact ⟨rfl, rfl⟩
  | bodyLost detail =>
    rw [hdelivery] at h
    cases h
    exact ⟨rfl, rfl⟩
  | requestLost detail =>
    rw [hdelivery] at h
    cases h
  | responseLost detail =>
    rw [hdelivery] at h
    cases h
  | serverError applied code =>
    rw [hdelivery] at h
    cases h
    have hcode := code.isLt
    simp [Response.retriable] at hfinal
    omega

end sending

variable {client : HttpClient} {id : Uuid} {w : World}

theorem exec_deleteNode (cfg : Config) (faults : Faults) (id : Uuid) (w : World) :
    exec cfg faults (Dcfs.deleteNode id) w = (.ok (), w.dropNode cfg.backend id)
      ∨ ∃ e, exec cfg faults (Dcfs.deleteNode id) w = (.error e, w) ∧ e.status ∈ [400, 404, 409] := by
  have hrefused : ∀ e : AppError, e.status ∈ [400, 404, 409] →
      (Except.error e, w) = ((.ok (), w.dropNode cfg.backend id) : Except AppError Unit × World)
        ∨ ∃ e', (Except.error e, w) = ((.error e', w) : Except AppError Unit × World) ∧ e'.status ∈ [400, 404, 409] :=
    fun e he => .inr ⟨e, rfl, he⟩
  rw [Dcfs.deleteNode, exec_ask]
  simp only [perform, answer, World.getNode]
  cases hnode : w.nodes.lookup id with
  | none => exact hrefused (.ofNotFound "resource not found") (by decide)
  | some node =>
    have hdelete : exec cfg faults (Request.ask (.deleteNode id) >>= Request.repo) w
        = (.ok (), w.dropNode cfg.backend id) := by
      rw [exec_ask]
      simp only [perform, World.deleteNode, hnode]
      rfl
    rw [repo_ok, pure_bind]
    by_cases hkind : node.kind = .directory
    · simp only [hkind, if_true]
      rw [exec_ask]
      simp only [perform, answer, World.listChildren, repo_ok, pure_bind]
      generalize List.take _ _ = children
      cases hempty : children.isEmpty with
      | false => exact hrefused .ofDirectoryNotEmpty (by decide)
      | true =>
        cases hup : node.parentId.isNone with
        | true => exact hrefused (.badRequest "cannot delete the root directory") (by decide)
        | false => exact .inl hdelete
    · simp only [hkind, if_false]
      exact .inl hdelete

def Wire.start (w : World) : Wire := ⟨w, 0, []⟩

variable {link : Link}

theorem route_delete (link : Link) (id : Uuid) (w : World) :
    ((link.route 204 (Dcfs.deleteNode id) w).1.status = 204
        ∧ (exec link.cfg link.faults (Dcfs.deleteNode id) w).1 = .ok ()
        ∧ (link.route 204 (Dcfs.deleteNode id) w).2 = w.dropNode link.cfg.backend id)
      ∨ ((link.route 204 (Dcfs.deleteNode id) w).1.status ∈ [400, 404, 409]
        ∧ (exec link.cfg link.faults (Dcfs.deleteNode id) w).1 ≠ .ok ()) := by
  unfold Link.route
  rcases exec_deleteNode link.cfg link.faults id w with hok | ⟨e, herror, hstatus⟩
  · rw [hok]
    exact .inl ⟨rfl, rfl, rfl⟩
  · rw [herror]
    exact .inr ⟨hstatus, nofun⟩

theorem route_delete_gone (h : w.nodes.lookup id = none) : (link.route 204 (Dcfs.deleteNode id) w).1.status = 404 := by
  have hexec : exec link.cfg link.faults (Dcfs.deleteNode id) w = (.error (.ofNotFound "resource not found"), w) := by
    rw [Dcfs.deleteNode, exec_ask]
    simp only [perform, answer, World.getNode, h]
    rfl
  rw [Link.route, hexec]
  rfl

theorem route_delete_final (link : Link) (id : Uuid) (w : World) :
    (link.route 204 (Dcfs.deleteNode id) w).1.retriable = false := by
  rcases route_delete link id w with ⟨hstatus, -, -⟩ | ⟨hstatus, -⟩
  · rw [Response.retriable, hstatus]
    decide
  · simp only [List.mem_cons, List.not_mem_nil, or_false] at hstatus
    rcases hstatus with h | h | h <;> rw [Response.retriable, h] <;> decide

/-- The delete was carried out unheard, and the one replay does not count as one. -/
def DeleteMisread (client : HttpClient) (id : Uuid) (w : World) : Prop :=
  client.retry.maxAttempts = 1
    ∧ (client.link.deliveries 0).reaches = false ∧ (client.link.deliveries 0).applied = true
    ∧ (client.link.deliveries 1).reaches = true
    ∧ (exec client.link.cfg client.link.faults (Dcfs.deleteNode id) w).1 = .ok ()

theorem deleteNode_misread (hothers : ∀ j v, (client.link.others j v).nodes.lookup id = v.nodes.lookup id)
    (h : DeleteMisread client id w) : (client.deleteNode id (.start w)).1 = .error .notFound
      ∧ 204 ∈ (client.deleteNode id (.start w)).2.served := by
  obtain ⟨hmax, hlost, happlied, hreaches, hdeletes⟩ := h
  set send := client.link.send 204 (Dcfs.deleteNode id) with hsend
  obtain ⟨hstatus, -, hdropped⟩ : (client.link.route 204 (Dcfs.deleteNode id) w).1.status = 204 ∧ _ ∧ _ := by
    rcases route_delete client.link id w with hok | ⟨-, hno⟩
    · exact hok
    · exact absurd hdeletes hno
  have hserved : (send (.start w)).2.served = [204] := by
    rw [hsend, send_served, Wire.start, happlied, if_pos rfl, hstatus]
  have hgone : (send (.start w)).2.world.nodes.lookup id = none := by
    rw [hsend, send_world, hothers, Wire.start, happlied, if_pos rfl, hdropped]
    cases hnode : (w.dropNode client.link.cfg.backend id).nodes.lookup id with
    | none => rfl
    | some node => exact absurd rfl (lookup_dropNode.mp hnode).1
  have hzero : failed (send (.start w)).1 = true := by
    rw [hsend, failed_send (route_delete_final _ _ _), Wire.start, hlost]
    rfl
  have hone : failed (send (sends send 1 (.start w))).1 = false := by
    rw [hsend, failed_send (route_delete_final _ _ _), sends_sent, Wire.start, hreaches]
    rfl
  rcases attempts_cases send 1 false (.start w)
    with ⟨j, response, hj, hsettles, heq⟩ | ⟨hfailed, -⟩
  · have hj1 : j = 1 := by
      refine le_antisymm hj (Nat.pos_of_ne_zero ?_)
      rintro rfl
      have hanswer := hsettles.answer
      rw [show sends send 0 (.start w) = .start w from rfl] at hanswer
      rw [hanswer] at hzero
      exact Bool.false_ne_true (hsettles.final.symm.trans hzero)
    subst hj1
    have hresponse : response.status = 404 := by
      rw [(send_ok hsettles.answer hsettles.final).2]
      exact route_delete_gone hgone
    have hanswered : client.deleteNode id (.start w) = (.error .notFound, sends send 2 (.start w)) := by
      rw [HttpClient.deleteNode, sendRetrying, hmax, ← hsend, heq]
      simp [hresponse, HttpClient.deleteReport]
    rw [hanswered]
    refine ⟨rfl, ?_⟩
    rw [sends_succ', hsend, send_served, ← hsend, sends_succ]
    change 204 ∈ if _ then _ :: (send (.start w)).2.served else (send (.start w)).2.served
    rw [hserved]
    split_ifs <;> simp
  · exact absurd (hfailed 1 le_rfl) (by rw [hone]; exact Bool.false_ne_true)

theorem deleteReport_notFound {status : ℕ} {retried : Bool}
    (h : HttpClient.deleteReport status retried = .error .notFound) : status = 404 ∧ retried = false := by
  unfold HttpClient.deleteReport at h
  split_ifs at h with _ _ hstatus hretried
  all_goals first | exact ⟨hstatus, Bool.not_eq_true _ ▸ hretried⟩ | cases h

theorem misread_of_deleteNode (hreport : (client.deleteNode id (.start w)).1 = .error .notFound)
    (hdeleted : 204 ∈ (client.deleteNode id (.start w)).2.served) : DeleteMisread client id w := by
  set send := client.link.send 204 (Dcfs.deleteNode id) with hsend
  rcases attempts_cases send client.retry.maxAttempts false (.start w)
    with ⟨j, response, hj, hsettles, heq⟩ | ⟨-, result, hresult, heq⟩
  · rw [HttpClient.deleteNode, sendRetrying, ← hsend, heq] at hreport hdeleted
    obtain ⟨hstatus, hretried⟩ := deleteReport_notFound hreport
    rw [Bool.false_or, decide_eq_false_iff_not] at hretried
    obtain ⟨hreaches, hroute⟩ := send_ok hsettles.answer hsettles.final
    rw [hsend, sends_sent] at hreaches
    have hlast : 204 ∈ (sends send j (.start w)).served := by
      dsimp only at hdeleted
      rw [sends_succ', hsend, send_served, ← hroute, hstatus] at hdeleted
      split_ifs at hdeleted
      · exact (List.mem_cons.mp hdeleted).resolve_left (by decide)
      · exact hdeleted
    have hj0 : j ≠ 0 := by
      rintro rfl
      cases hlast
    obtain rfl : j = 1 := by omega
    have hzero := hsettles.before 0 Nat.one_pos
    rw [show sends send 0 (.start w) = .start w from rfl, hsend, failed_send (route_delete_final _ _ _)] at hzero
    rw [sends_succ, show sends send 0 (send (.start w)).2 = (send (.start w)).2 from rfl, hsend, send_served]
      at hlast
    rcases happlied : (client.link.deliveries 0).applied with _ | _
    · rw [Wire.start, happlied, if_neg Bool.false_ne_true] at hlast
      cases hlast
    · rw [Wire.start, happlied, if_pos rfl, List.mem_singleton] at hlast
      refine ⟨by omega, Bool.not_eq_true' _ ▸ hzero, happlied, hreaches, ?_⟩
      rcases route_delete client.link id w with ⟨-, hok, -⟩ | ⟨hother, -⟩
      · exact hok
      · rw [← hlast] at hother
        exact absurd hother (by decide)
  · rw [HttpClient.deleteNode, sendRetrying, ← hsend, heq] at hreport
    rcases result with e | ⟨response, retried⟩
    · obtain ⟨detail, rfl⟩ := hresult
      cases hreport
    · rw [Unsettled, Response.retriable, (deleteReport_notFound hreport).1] at hresult
      cases hresult

theorem delete_reports_iff (hothers : ∀ j v, (client.link.others j v).nodes.lookup id = v.nodes.lookup id) :
    ((client.deleteNode id (.start w)).1 = .error .notFound →
      204 ∉ (client.deleteNode id (.start w)).2.served) ↔ ¬ DeleteMisread client id w := by
  constructor
  · intro h hmisread
    obtain ⟨hreport, hdeleted⟩ := deleteNode_misread hothers hmisread
    exact h hreport hdeleted
  · intro h hreport hdeleted
    exact h (misread_of_deleteNode hreport hdeleted)

end Dcfs.Fuse
