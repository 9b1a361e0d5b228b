import Dcfs.Fuse.Creates
import Dcfs.Server.Sample

namespace Dcfs.Fuse

open Effects Exec World Tables

variable {client : HttpClient} {req : CreateNodeRequest} {w : World} {wire : Wire} {link : Link}

theorem sends_keeps {α : Type} {send : Sender α} {I : Wire → Prop} (hstep : ∀ wire, I wire → I (send wire).2)
    (h : I wire) (k : ℕ) : I (sends send k wire) := by
  induction k with
  | zero => exact h
  | succ k ih =>
    rw [sends_succ']
    exact hstep _ ih

theorem attempts_keeps {α : Type} {send : Sender α} {I : Wire → Prop} (hstep : ∀ wire, I wire → I (send wire).2)
    (h : I wire) (left : ℕ) (retried : Bool) : I (attempts send left retried wire).2 := by
  rcases attempts_cases send left retried wire with ⟨j, response, -, -, heq⟩ | ⟨-, result, -, heq⟩
  · rw [heq]
    exact sends_keeps hstep h _
  · rw [heq]
    exact sends_keeps hstep h _

section lookup

theorem route_fetch {id : Uuid} {node : NodeRecord} (h : w.nodes.lookup id = some node) :
    link.route 200 (fetchNode id) w = (⟨200, .ok (nodeToResponse node)⟩, w) := by
  have hexec : exec link.cfg link.faults (Dcfs.getNode id) w = (.ok node, w) := by
    rw [Dcfs.getNode, exec_ask]
    simp only [perform, answer, World.getNode, h]
    rfl
  rw [Link.route, fetchNode, exec_bind_ok hexec]
  rfl

theorem route_fetch_none {id : Uuid} (h : w.nodes.lookup id = none) :
    link.route 200 (fetchNode id) w = (⟨404, .error "resource not found"⟩, w) := by
  have hexec : exec link.cfg link.faults (Dcfs.getNode id) w = (.error (.ofNotFound "resource not found"), w) := by
    rw [Dcfs.getNode, exec_ask]
    simp only [perform, answer, World.getNode, h]
    rfl
  rw [Link.route, fetchNode, exec_bind_error hexec]
  rfl

variable (hothers : Apart link req)

include hothers

theorem NotYet.fetched (h : NotYet req w wire) :
    NotYet req w (link.send 200 (fetchNode req.idempotencyKey) wire).2 := by
  cases hnode : wire.world.nodes.lookup req.idempotencyKey with
  | none =>
    refine h.of_status hothers ?_ ?_
    · rw [route_fetch_none hnode]
      exact (by decide : (404 : ℕ) ≠ 201)
    · rw [route_fetch_none hnode]
  | some node =>
    refine h.of_status hothers ?_ ?_
    · rw [route_fetch hnode]
      exact (by decide : (200 : ℕ) ≠ 201)
    · rw [route_fetch hnode]

theorem Made.fetched (h : Made req wire) : Made req (link.send 200 (fetchNode req.idempotencyKey) wire).2 := by
  obtain ⟨node, hnode, -⟩ := h.node
  refine h.of_status hothers ?_ ?_
  · rw [route_fetch hnode]
    exact (by decide : (200 : ℕ) ≠ 201)
  · rw [route_fetch hnode]

end lookup

def First (link : Link) (start k : ℕ) : Prop :=
  (link.deliveries (start + k)).reaches = true ∧ ∀ i < k, (link.deliveries (start + i)).reaches = false

theorem First.unique {start j k : ℕ} (hj : First link start j) (hk : First link start k) : j = k := by
  rcases Nat.lt_trichotomy j k with hlt | heq | hlt
  · exact absurd hj.1 (by rw [hk.2 j hlt]; exact Bool.false_ne_true)
  · exact heq
  · exact absurd hk.1 (by rw [hj.2 k hlt]; exact Bool.false_ne_true)

def LookupAnswered (link : Link) (limit start : ℕ) : Prop :=
  ∃ j ≤ limit, First link start j ∧ link.deliveries (start + j) = .answered

section requests

variable {α : Type} {status : ℕ} {request : Request α}

theorem first_of_settles {j : ℕ} {response : Response α} (h : Settles (link.send status request) wire j response)
    (hfinal : ∀ i < j, (link.route status request (sends (link.send status request) i wire).world).1.retriable
      = false) : First link wire.sent j := by
  obtain ⟨hreaches, -⟩ := send_ok h.answer h.final
  rw [sends_sent] at hreaches
  refine ⟨hreaches, fun i hi => ?_⟩
  have hfailed := h.before i hi
  rw [failed_send (hfinal i hi), sends_sent] at hfailed
  exact Bool.not_eq_true' _ ▸ hfailed

theorem not_first_of_failed {limit : ℕ} (h : ∀ i ≤ limit,
      failed (link.send status request (sends (link.send status request) i wire)).1 = true)
    (hfinal : ∀ i, (link.route status request (sends (link.send status request) i wire).world).1.retriable = false)
    {k : ℕ} (hk : k ≤ limit) : ¬ First link wire.sent k := by
  intro hfirst
  have hfailed := h k hk
  rw [failed_send (hfinal k), sends_sent, hfirst.1] at hfailed
  cases hfailed

end requests

theorem getReport_unsettled {response : Response NodeResponse} (h : response.retriable = true) :
    ∃ e, HttpClient.getReport response = .error e := by
  unfold HttpClient.getReport
  split_ifs with hstatus
  · rw [Response.retriable, hstatus] at h
    cases h
  all_goals exact ⟨_, rfl⟩

theorem getNode_made (hothers : Apart client.link req) (h : Made req wire) :
    Made req (client.getNode req.idempotencyKey wire).2
      ∧ ((∃ node, (client.getNode req.idempotencyKey wire).1 = .ok node ∧ node.name = req.name)
          ∧ LookupAnswered client.link client.retry.maxAttempts wire.sent
        ∨ (∃ e, (client.getNode req.idempotencyKey wire).1 = .error e)
          ∧ ¬ LookupAnswered client.link client.retry.maxAttempts wire.sent) := by
  set send := client.link.send 200 (fetchNode req.idempotencyKey) with hsend
  have hmade : ∀ k, Made req (sends send k wire) := sends_keeps (fun _ hwire => hwire.fetched hothers) h
  have hfinal : ∀ k, (client.link.route 200 (fetchNode req.idempotencyKey) (sends send k wire).world).1.retriable
      = false := by
    intro k
    obtain ⟨node, hnode, -⟩ := (hmade k).node
    rw [route_fetch hnode]
    rfl
  rcases attempts_cases send client.retry.maxAttempts false wire
    with ⟨j, response, hj, hsettles, heq⟩ | ⟨hfailed, result, hresult, heq⟩
  · have hfirst := first_of_settles hsettles fun i _ => hfinal i
    have hget : client.getNode req.idempotencyKey wire
        = (HttpClient.getReport response, sends send (j + 1) wire) := by
      rw [HttpClient.getNode, sendRetrying, ← hsend, heq]
    rw [hget]
    refine ⟨hmade _, ?_⟩
    obtain ⟨node, hnode, hname⟩ := (hmade j).node
    have hanswer := hsettles.answer
    rw [hsend, Link.send, sends_sent, ← hsend, route_fetch hnode] at hanswer
    cases hdelivery : client.link.deliveries (wire.sent + j) with
    | answered =>
      rw [hdelivery] at hanswer
      cases hanswer
      exact .inl ⟨⟨_, rfl, hname⟩, j, hj, hfirst, hdelivery⟩
    | bodyLost detail =>
      rw [hdelivery] at hanswer
      cases hanswer
      refine .inr ⟨⟨_, rfl⟩, ?_⟩
      rintro ⟨i, -, hi, hanswered⟩
      cases hi.unique hfirst
      cases hdelivery.symm.trans hanswered
    | _ =>
      have hreaches := hfirst.1
      rw [hdelivery] at hreaches
      cases hreaches
  · have hno : ¬ LookupAnswered client.link client.retry.maxAttempts wire.sent := by
      rintro ⟨j, hj, hfirst, -⟩
      exact not_first_of_failed hfailed hfinal hj hfirst
    rcases result with e | ⟨response, retried⟩
    · have hget : client.getNode req.idempotencyKey wire
          = (.error e, sends send (client.retry.maxAttempts + 1) wire) := by
        rw [HttpClient.getNode, sendRetrying, ← hsend, heq]
      rw [hget]
      exact ⟨hmade _, .inr ⟨⟨e, rfl⟩, hno⟩⟩
    · have hget : client.getNode req.idempotencyKey wire
          = (HttpClient.getReport response, sends send (client.retry.maxAttempts + 1) wire) := by
        rw [HttpClient.getNode, sendRetrying, ← hsend, heq]
      rw [hget]
      exact ⟨hmade _, .inr ⟨getReport_unsettled hresult, hno⟩⟩

section invariant

variable {I : Wire → Prop}

theorem getNode_keeps {id : Uuid} (hfetch : ∀ wire, I wire → I (client.link.send 200 (fetchNode id) wire).2)
    (h : I wire) : I (client.getNode id wire).2 := by
  have hattempts := attempts_keeps hfetch h client.retry.maxAttempts false
  rw [HttpClient.getNode, sendRetrying]
  rcases heq : attempts (client.link.send 200 (fetchNode id)) client.retry.maxAttempts false wire
    with ⟨e | ⟨response, retried⟩, last⟩
  all_goals
    rw [heq] at hattempts
    exact hattempts

theorem createNode_keeps (hpost : ∀ wire, I wire → I (client.link.send 201 (postNode req) wire).2)
    (hfetch : ∀ wire, I wire → I (client.link.send 200 (fetchNode req.idempotencyKey) wire).2) (h : I wire) :
    I (client.createNode req wire).2 := by
  have hattempts := attempts_keeps hpost h client.retry.maxAttempts false
  rw [HttpClient.createNode, sendRetrying]
  rcases heq : attempts (client.link.send 201 (postNode req)) client.retry.maxAttempts false wire
    with ⟨e | ⟨response, retried⟩, next⟩
  · rw [heq] at hattempts
    exact hattempts
  · rw [heq] at hattempts
    have hget : I (client.getNode req.idempotencyKey next).2 := getNode_keeps hfetch hattempts
    dsimp only
    unfold HttpClient.createReport
    split_ifs
    · exact hattempts
    · exact hattempts
    · rcases hlookup : client.getNode req.idempotencyKey next with ⟨e | node, last⟩
      all_goals
        rw [hlookup] at hget
        exact hget
    · exact hattempts
    · exact hattempts
    · exact hattempts

end invariant

theorem createReport_created {response : Response NodeResponse} (h : response.status = 201) (retried : Bool)
    (wire : Wire) : (client.createReport req response retried wire).1 ≠ .error .alreadyExists := by
  rw [HttpClient.createReport, if_pos (.inl h), Response.json]
  cases response.body with
  | ok node => nofun
  | error detail => nofun

theorem createReport_conflict {response : Response NodeResponse} (h : response.status = 409) (wire : Wire) :
    client.createReport req response false wire = (.error .alreadyExists, wire) := by
  simp [HttpClient.createReport, h]

theorem createReport_unsettled {response : Response NodeResponse} (h : response.retriable = true) (retried : Bool)
    (wire : Wire) : (client.createReport req response retried wire).1 ≠ .error .alreadyExists := by
  have hne : response.status ≠ 409 := by
    intro hstatus
    rw [Response.retriable, hstatus] at h
    cases h
  unfold HttpClient.createReport
  split_ifs
  · rw [Response.json]
    cases response.body with
    | ok node =>
      intro heq
      cases heq
    | error detail =>
      intro heq
      cases heq
  all_goals
    intro heq
    cases heq

theorem createReport_replayed (hothers : Apart client.link req) {response : Response NodeResponse}
    (h : response.status = 409) (hmade : Made req wire) :
    Made req (client.createReport req response true wire).2
      ∧ ((client.createReport req response true wire).1 = .error .alreadyExists
        ↔ ¬ LookupAnswered client.link client.retry.maxAttempts wire.sent) := by
  obtain ⟨hkept, hlookup⟩ := getNode_made hothers hmade
  rcases hget : client.getNode req.idempotencyKey wire with ⟨result, last⟩
  rw [hget] at hkept hlookup
  rcases hlookup with ⟨⟨node, hnode, hname⟩, hanswered⟩ | ⟨⟨e, he⟩, hunanswered⟩
  · dsimp only at hnode
    subst hnode
    have hreport : client.createReport req response true wire = (.ok node, last) := by
      simp [HttpClient.createReport, h, hget, hname]
    rw [hreport]
    exact ⟨hkept, fun heq => (by cases heq), fun hno => absurd hanswered hno⟩
  · dsimp only at he
    subst he
    have hreport : client.createReport req response true wire = (.error .alreadyExists, last) := by
      simp [HttpClient.createReport, h, hget]
    rw [hreport]
    exact ⟨hkept, fun _ => hunanswered, fun _ => rfl⟩

theorem start_notYet (req : CreateNodeRequest) (w : World) : NotYet req w (.start w) :=
  ⟨.refl req w, List.not_mem_nil⟩

theorem sends_made (hothers : Apart link req) (hyes : Creates link req w) (k : ℕ) :
    ((∃ i < k, (link.deliveries i).applied = true) → Made req (sends (link.send 201 (postNode req)) k (.start w)))
      ∧ ((¬ ∃ i < k, (link.deliveries i).applied = true) →
        NotYet req w (sends (link.send 201 (postNode req)) k (.start w))) := by
  induction k with
  | zero => exact ⟨fun ⟨i, hi, _⟩ => absurd hi (Nat.not_lt_zero i), fun _ => start_notYet req w⟩
  | succ k ih =>
    rw [sends_succ']
    have hsent : (sends (link.send 201 (postNode req)) k (.start w)).sent = k := by
      rw [sends_sent]
      exact Nat.zero_add k
    by_cases hbefore : ∃ i < k, (link.deliveries i).applied = true
    · refine ⟨fun _ => ((ih.1 hbefore).again hothers hyes).2, fun hnone => absurd ?_ hnone⟩
      obtain ⟨i, hi, happlied⟩ := hbefore
      exact ⟨i, Nat.lt_succ_of_lt hi, happlied⟩
    · obtain ⟨-, hnow, hnot⟩ := (ih.2 hbefore).granted hothers hyes
      rw [hsent] at hnow hnot
      refine ⟨?_, fun hnone => hnot ?_⟩
      · rintro ⟨i, hi, happlied⟩
        obtain rfl : i = k := (Nat.lt_succ_iff_lt_or_eq.mp hi).resolve_left fun hlt => hbefore ⟨i, hlt, happlied⟩
        exact hnow happlied
      · rw [← Bool.not_eq_true]
        exact fun happlied => hnone ⟨k, Nat.lt_succ_self k, happlied⟩

theorem sends_status (hothers : Apart link req) (hyes : Creates link req w) (k : ℕ) :
    (link.route 201 (postNode req) (sends (link.send 201 (postNode req)) k (.start w)).world).1.retriable = false := by
  rw [Response.retriable]
  by_cases hbefore : ∃ i < k, (link.deliveries i).applied = true
  · rw [(((sends_made hothers hyes k).1 hbefore).again hothers hyes).1]
    rfl
  · rw [(((sends_made hothers hyes k).2 hbefore).granted hothers hyes).1]
    rfl

theorem createNode_cases (hothers : Apart client.link req) (hyes : Creates client.link req w) :
    (∃ k ≤ client.retry.maxAttempts, First client.link 0 k ∧ (∃ i < k, (client.link.deliveries i).applied = true)
        ∧ Made req (client.createNode req (.start w)).2
        ∧ ((client.createNode req (.start w)).1 = .error .alreadyExists
          ↔ client.retry.maxAttempts < 2 ∨ ¬ LookupAnswered client.link client.retry.maxAttempts (k + 1)))
      ∨ ((client.createNode req (.start w)).1 ≠ .error .alreadyExists ∧ ∀ k ≤ client.retry.maxAttempts,
        First client.link 0 k → ¬ ∃ i < k, (client.link.deliveries i).applied = true) := by
  set send := client.link.send 201 (postNode req) with hsend
  rcases attempts_cases send client.retry.maxAttempts false (.start w)
    with ⟨k, response, hk, hsettles, heq⟩ | ⟨hfailed, result, hresult, heq⟩
  · have hfirst : First client.link 0 k := first_of_settles hsettles fun i _ => sends_status hothers hyes i
    have hstatus := (send_ok hsettles.answer hsettles.final).2
    have hcreate : client.createNode req (.start w) = client.createReport req response
        (false || decide (0 < k ∧ 2 ≤ client.retry.maxAttempts)) (sends send (k + 1) (.start w)) := by
      rw [HttpClient.createNode, sendRetrying, ← hsend, heq]
    by_cases hbefore : ∃ i < k, (client.link.deliveries i).applied = true
    · obtain ⟨hconflict, hmade⟩ := ((sends_made hothers hyes k).1 hbefore).again hothers hyes
      rw [← hsend] at hconflict hmade
      rw [← sends_succ'] at hmade
      rw [hconflict] at hstatus
      obtain ⟨i, hi, -⟩ := id hbefore
      refine .inl ⟨k, hk, hfirst, hbefore, ?_⟩
      by_cases htwice : 2 ≤ client.retry.maxAttempts
      · rw [Bool.false_or, decide_eq_true ⟨Nat.zero_lt_of_lt hi, htwice⟩] at hcreate
        obtain ⟨hkept, hiff⟩ := createReport_replayed hothers hstatus hmade
        rw [hsend, sends_sent, show (Wire.start w).sent + (k + 1) = k + 1 from Nat.zero_add _, ← hsend] at hiff
        rw [hcreate]
        exact ⟨hkept, hiff.trans ⟨.inr, fun h => h.resolve_left (Nat.not_lt.mpr htwice)⟩⟩
      · rw [Bool.false_or, decide_eq_false fun h => htwice h.2, createReport_conflict hstatus] at hcreate
        rw [hcreate]
        exact ⟨hmade, fun _ => .inl (Nat.not_le.mp htwice), fun _ => rfl⟩
    · obtain ⟨hcreated, -⟩ := ((sends_made hothers hyes k).2 hbefore).granted hothers hyes
      rw [← hsend] at hcreated
      rw [hcreated] at hstatus
      refine .inr ⟨?_, fun j _ hj => hfirst.unique hj ▸ hbefore⟩
      rw [hcreate]
      exact createReport_created hstatus _ _
  · refine .inr ⟨?_, fun k hk hfirst => ?_⟩
    · rw [HttpClient.createNode, sendRetrying, ← hsend, heq]
      rcases result with e | ⟨response, retried⟩
      · obtain ⟨detail, rfl⟩ := hresult
        intro heq
        cases heq
      · exact createReport_unsettled hresult _ _
    · exact absurd hfirst (not_first_of_failed hfailed (sends_status hothers hyes) hk)

/--
The create was carried out by a request whose answer was lost, a later one was told that the id is
taken, and that one does not count as a replay or its lookup goes unanswered.
-/
def CreateMisread (client : HttpClient) (req : CreateNodeRequest) (w : World) : Prop :=
  Creates client.link req w ∧ ∃ k ≤ client.retry.maxAttempts, First client.link 0 k
    ∧ (∃ i < k, (client.link.deliveries i).applied = true)
    ∧ (client.retry.maxAttempts < 2 ∨ ¬ LookupAnswered client.link client.retry.maxAttempts (k + 1))

theorem createNode_once (hothers : Apart client.link req) :
    (client.createNode req (.start w)).2.served.count 201 ≤ 1
      ∧ (¬ Creates client.link req w → 201 ∉ (client.createNode req (.start w)).2.served) := by
  by_cases hyes : Creates client.link req w
  · refine ⟨?_, fun hno => absurd hyes hno⟩
    have hkept : NotYet req w (client.createNode req (.start w)).2 ∨ Made req (client.createNode req (.start w)).2 := by
      refine createNode_keeps (I := fun wire => NotYet req w wire ∨ Made req wire) ?_ ?_
        (.inl (start_notYet req w))
      · rintro wire (hnot | hmade)
        · obtain ⟨-, hnow, hlater⟩ := hnot.granted hothers hyes
          cases happlied : (client.link.deliveries wire.sent).applied with
          | true => exact .inr (hnow happlied)
          | false => exact .inl (hlater happlied)
        · exact .inr (hmade.again hothers hyes).2
      · rintro wire (hnot | hmade)
        · exact .inl (hnot.fetched hothers)
        · exact .inr (hmade.fetched hothers)
    rcases hkept with hnot | hmade
    · rw [List.count_eq_zero_of_not_mem hnot.served]
      exact Nat.zero_le 1
    · exact hmade.once.le
  · have hkept : NotYet req w (client.createNode req (.start w)).2 :=
      createNode_keeps (fun _ h => h.refused hothers hyes) (fun _ h => h.fetched hothers) (start_notYet req w)
    rw [List.count_eq_zero_of_not_mem hkept.served]
    exact ⟨Nat.zero_le 1, fun _ => hkept.served⟩

theorem create_reports_iff (hothers : Apart client.link req) :
    ((client.createNode req (.start w)).1 = .error .alreadyExists →
      201 ∉ (client.createNode req (.start w)).2.served) ↔ ¬ CreateMisread client req w := by
  constructor
  · rintro h ⟨hyes, k, hk, hfirst, hbefore, hastray⟩
    rcases createNode_cases hothers hyes with ⟨j, -, hj, -, hmade, hiff⟩ | ⟨-, hnone⟩
    · cases hj.unique hfirst
      refine h (hiff.mpr hastray) (List.count_pos_iff.mp ?_)
      rw [hmade.once]
      exact Nat.one_pos
    · exact hnone k hk hfirst hbefore
  · intro hnot hreport hcreated
    by_cases hyes : Creates client.link req w
    · rcases createNode_cases hothers hyes with ⟨k, hk, hfirst, hbefore, -, hiff⟩ | ⟨hother, -⟩
      · exact hnot ⟨hyes, k, hk, hfirst, hbefore, hiff.mp hreport⟩
      · exact hother hreport
    · exact (createNode_once hothers).2 hyes hcreated

theorem retried_reports_iff {id : Uuid} (hapart : Apart client.link req)
    (hothers : ∀ j v, (client.link.others j v).nodes.lookup id = v.nodes.lookup id) :
    (((client.createNode req (.start w)).1 = .error .alreadyExists →
        201 ∉ (client.createNode req (.start w)).2.served)
      ∧ ((client.deleteNode id (.start w)).1 = .error .notFound →
        204 ∉ (client.deleteNode id (.start w)).2.served)
      ∧ (client.createNode req (.start w)).2.served.count 201 ≤ 1)
      ↔ ¬ CreateMisread client req w ∧ ¬ DeleteMisread client id w := by
  rw [create_reports_iff hapart, delete_reports_iff hothers, and_congr_right_iff]
  exact fun _ => and_iff_left (createNode_once hapart).1

def losingFirst (maxAttempts : ℕ) (later : ℕ → Delivery) : HttpClient where
  retry := ⟨maxAttempts⟩
  link :=
    { cfg := sample .postgres
      faults := noFaults
      deliveries := fun n => if n = 0 then .responseLost "timed out" else later n
      others := fun _ w => w }

def newNote : CreateNodeRequest := ⟨0, [97], .file, 0o644, 0, 0, none, 5⟩

theorem reports_after_lost_answer :
    (((losingFirst 6 fun _ => .answered).createNode newNote (.start (World.fresh 0))).1 = .error .alreadyExists →
        201 ∉ ((losingFirst 6 fun _ => .answered).createNode newNote (.start (World.fresh 0))).2.served)
      ∧ (((losingFirst 6 fun _ => .answered).deleteNode 5 (.start (World.fresh 0))).1 = .error .notFound →
        204 ∉ ((losingFirst 6 fun _ => .answered).deleteNode 5 (.start (World.fresh 0))).2.served)
      ∧ ((losingFirst 6 fun _ => .answered).createNode newNote (.start (World.fresh 0))).2.served.count 201 ≤ 1 := by
  refine (retried_reports_iff (fun _ w => .refl newNote w) fun _ _ => rfl).mpr ⟨?_, fun h => absurd h.1 (by decide)⟩
  rintro ⟨-, k, -, hfirst, -, hfew | hunanswered⟩
  · exact absurd hfew (by decide)
  · have hone : First (losingFirst 6 fun _ => .answered).link 0 1 := by
      refine ⟨rfl, fun i hi => ?_⟩
      cases Nat.lt_one_iff.mp hi
      rfl
    cases hfirst.unique hone
    exact hunanswered ⟨0, Nat.zero_le _, ⟨rfl, fun i hi => absurd hi (Nat.not_lt_zero i)⟩, rfl⟩

def noteMade : World := (exec (sample .postgres) noFaults (Dcfs.createNode newNote) (World.fresh 0)).2

theorem misread_replays :
    (((losingFirst 1 fun _ => .answered).createNode newNote (.start (World.fresh 0))).1 = .error .alreadyExists
        ∧ 201 ∈ ((losingFirst 1 fun _ => .answered).createNode newNote (.start (World.fresh 0))).2.served)
      ∧ (((losingFirst 1 fun _ => .answered).deleteNode 5 (.start noteMade)).1 = .error .notFound
        ∧ 204 ∈ ((losingFirst 1 fun _ => .answered).deleteNode 5 (.start noteMade)).2.served)
      ∧ (((losingFirst 6 fun n => if n = 1 then .answered else .requestLost "refused").createNode newNote
          (.start (World.fresh 0))).1 = .error .alreadyExists
        ∧ 201 ∈ ((losingFirst 6 fun n => if n = 1 then .answered else .requestLost "refused").createNode newNote
          (.start (World.fresh 0))).2.served) := by
  -- With one round the replay is taken for the first request; with more, the create is still reported as a
  -- collision when the lookup gets no answer.
  refine ⟨⟨rfl, ?_⟩, ⟨rfl, ?_⟩, rfl, ?_⟩ <;> decide

end Dcfs.Fuse
