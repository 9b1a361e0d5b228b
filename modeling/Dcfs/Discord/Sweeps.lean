import Dcfs.Discord.Deletion

namespace Dcfs.Discord

open Effects Tables

variable {d t : Depot} {store : DiscordObjectStore} {id : Uuid}

section uploads

abbrev keeping : Rules Remote Depot := discord.guarded Sane

theorem uploadRound_meets {client : DiscordClient} {filename : Text} {data : Bytes} (hd : Sane d)
    {again : Option (Program Remote (Except DiscordError WebhookMessage))}
    (hagain : ∀ next ∈ again, ∀ t, Sane t → next.Meets keeping
      (fun result u => Sane u ∧ ∀ message, result = .ok message →
        u.posted.lookup message.id = some client.webhookId) t) :
    (client.uploadRound filename data again).Meets keeping
      (fun result u => Sane u ∧ ∀ message, result = .ok message →
        u.posted.lookup message.id = some client.webhookId) d := by
  refine ⟨⟨trivial, hd⟩, fun r t hr => ?_⟩
  have ht : Sane t := by
    rcases hr.1 with rfl | ⟨messageId, hfresh, rfl⟩
    · exact hd
    · exact hd.post hfresh _
  have hretry : ∀ e : DiscordError, (again.getD (pure (.error e))).Meets keeping
      (fun result u => Sane u ∧ ∀ message, result = .ok message →
        u.posted.lookup message.id = some client.webhookId) t := by
    intro e
    cases again with
    | none => exact ⟨ht, fun message hmessage => by cases hmessage⟩
    | some next => exact hagain next rfl t ht
  cases r with
  | error detail => exact hretry _
  | ok answer =>
    simp only [Program.bind]
    split_ifs with hlimit hsuccess hserver
    · exact hretry _
    · cases hjson : answer.json with
      | ok message =>
        refine ⟨ht, ?_⟩
        rintro _ ⟨⟩
        obtain ⟨-, rfl⟩ := hr.2 answer message rfl hsuccess hjson
        rw [Depot.post, lookup_insert, if_pos rfl]
      | error detail => exact ⟨ht, fun message hmessage => by cases hmessage⟩
    · exact hretry _
    · exact ⟨ht, fun message hmessage => by cases hmessage⟩

theorem uploadRounds_meets {client : DiscordClient} {filename : Text} {data : Bytes} (left : ℕ) (hd : Sane d) :
    (client.uploadRounds filename data left).Meets keeping
      (fun result u => Sane u ∧ ∀ message, result = .ok message →
        u.posted.lookup message.id = some client.webhookId) d := by
  induction left generalizing d with
  | zero => exact uploadRound_meets hd nofun
  | succ left ih =>
    refine uploadRound_meets hd ?_
    rintro next ⟨⟩ t ht
    exact ih ht

theorem recordUpload_meets {client : DiscordClient} {result : Except DiscordError WebhookMessage} (hd : Sane d)
    (hmessage : ∀ message, result = .ok message → d.posted.lookup message.id = some client.webhookId) :
    (DiscordObjectStore.recordUpload client id result).run.Meets keeping (fun _ t => Sane t) d := by
  unfold DiscordObjectStore.recordUpload
  split
  · exact hd
  · exact hd
  · refine ⟨⟨trivial, hd⟩, fun r t hr => ?_⟩
    have ht : Sane t := by
      rcases hr with rfl | ⟨rfl, -⟩
      · exact hd.write (hmessage _ rfl) (webhookOf_backendOf _)
      · exact hd
    cases r with
    | ok _ => exact ht
    | error e => exact ht

theorem putFor_meets (hd : Sane d) (id : Uuid) (data : Bytes) (group : Uuid) :
    (store.putFor id data group).run.Meets keeping (fun _ t => Sane t) d := by
  refine ⟨⟨trivial, hd⟩, ?_⟩
  rintro (e | record) t ⟨rfl, -⟩
  · cases e with
    | notFound =>
      change Program.Meets keeping (ExceptT.run (ExceptT.lift ((store.clientForGroup group).uploadAttachment _ data)
        >>= DiscordObjectStore.recordUpload (store.clientForGroup group) id)) _ t
      refine Program.Meets.bind (Program.Meets.bind ((uploadRounds_meets _ hd).mono ?_))
      rintro result u ⟨hu, hmessage⟩
      exact recordUpload_meets hu hmessage
    | _ => exact hd
  · exact hd

end uploads

section collector

/-- What a sweep asks for may be forgotten when it asks. -/
def Forgettable : Call → Depot → Prop
  | .forgetObject id, d => d.held id = false
  | _, _ => True

def collecting (store : DiscordObjectStore) : Rules Api Depot where
  admits c d := Fit store d ∧ Forgettable c d
  outcome
    | .delete id, _, r, t => Fit store t ∧ (Absent r → t.held id = false)
    | .forgetObject id, d, _, t => t = d.forget id
    | _, d, _, t => t = d

theorem perform_meets (c : Call) (d : Depot) (h : (collecting store).admits c d) :
    (store.perform c).Meets (rules store) (fun r t => (collecting store).outcome c d r t) d := by
  cases c with
  | delete id => exact delete_meets h.1 id
  | _ => exact ⟨⟨trivial, h.1⟩, fun _ _ hr => hr⟩

theorem collecting_keeps (c : Call) (d : Depot) (r : c.Reply) (t : Depot) (hadmits : (collecting store).admits c d)
    (hr : (collecting store).outcome c d r t) (hd : Fit store d) : Fit store t := by
  cases c with
  | delete id => exact hr.1
  | forgetObject id =>
    cases hr
    exact ⟨hd.1.forget hadmits.2, hd.2.of_erased rfl fun _ _ hi => hi⟩
  | _ =>
    cases hr
    exact hd

variable {α : Type}

theorem sweep_ask {c : Call} {Q : c.Reply → Depot → Prop} (hc : (collecting store).admits c d)
    (h : ∀ r t, (collecting store).outcome c d r t → Q r t) : Attempts (collecting store) (Sweep.ask c) Q d :=
  Attempts.lift (I := Api) hc h

theorem sweep_repo {a : Answer α} {Q : α → Depot → Prop} (h : ∀ b, Q b d) :
    Attempts (collecting store) (Sweep.repo a) Q d := by
  cases a with
  | ok b => exact .ok (h b)
  | error e => exact .error

theorem collectObject_attempts (hd : Fit store d) (report : GcReport) (id : Uuid) :
    Attempts (collecting store) (collectObject report id) (fun _ t => Fit store t) d := by
  refine .bind (sweep_ask ⟨hd, trivial⟩ fun deleted t ht => ?_)
  obtain ⟨hfit, habsent⟩ := ht
  have hforget : t.held id = false → ∀ f : ℕ → GcReport, Attempts (collecting store)
      (do pure (f (← Sweep.repo (← Sweep.ask (.forgetObject id))))) (fun _ t => Fit store t) t := by
    intro hheld f
    refine .bind (sweep_ask ⟨hfit, hheld⟩ fun removed u hu => .bind (sweep_repo fun _ => .ok ?_))
    exact collecting_keeps (.forgetObject id) t removed u ⟨hfit, hheld⟩ hu hfit
  cases deleted with
  | ok _ => exact hforget (habsent trivial) _
  | error e =>
    cases e with
    | notFound _ => exact hforget (habsent trivial) _
    | _ => exact .ok hfit

theorem collectObjects_attempts (ids : List Uuid) (report : GcReport) (hd : Fit store d) :
    Attempts (collecting store) (collectObjects ids report) (fun _ t => Fit store t) d := by
  induction ids generalizing report d with
  | nil => exact .ok hd
  | cons id rest ih => exact .bind ((collectObject_attempts hd report id).mono fun _ _ ht => ih _ ht)

theorem sweepLocked_attempts (retention : ℕ) (hd : Fit store d) :
    Attempts (collecting store) (sweepLocked retention) (fun _ _ => True) d := by
  refine .bind (sweep_ask ⟨hd, trivial⟩ ?_)
  rintro now _ rfl
  refine .bind (sweep_ask ⟨hd, trivial⟩ ?_)
  rintro doomed _ rfl
  refine .bind (sweep_repo fun ids => .bind ((collectObjects_attempts ids _ hd).mono fun report t ht => ?_))
  refine .bind (sweep_ask ⟨ht, trivial⟩ ?_)
  rintro versions _ rfl
  refine .bind (sweep_repo fun _ => .bind (sweep_ask ⟨ht, trivial⟩ ?_))
  rintro nodes _ rfl
  refine .bind (sweep_repo fun _ => .bind (sweep_ask ⟨ht, trivial⟩ ?_))
  rintro now _ rfl
  refine .bind (sweep_ask ⟨ht, trivial⟩ ?_)
  rintro sessions _ rfl
  refine .bind (sweep_repo fun _ => .bind (sweep_ask ⟨ht, trivial⟩ ?_))
  rintro sizes _ rfl
  exact .bind (sweep_repo fun _ => .ok trivial)

theorem collect_meets (retention : ℕ) (hd : Fit store d) :
    (store.collect retention).Meets (rules store) (fun _ t => Fit store t) d := by
  refine Program.Meets.expand (R := collecting store) perform_meets ?_
  refine ⟨⟨hd, trivial⟩, ?_⟩
  rintro taken _ rfl
  cases taken with
  | false => exact hd
  | true =>
    have hsweep := Program.Meets.keeps (sweepLocked_attempts retention hd) collecting_keeps hd
    change Program.Meets (collecting store) ((sweepLocked retention).run >>= _) _ _
    refine Program.Meets.bind (hsweep.mono fun result t ht => ⟨⟨ht, trivial⟩, ?_⟩)
    rintro _ _ rfl
    exact ht

end collector

/-- The rows there were at the start may be without a webhook; `allows` says when a sweep is started. -/
inductive Operated (allows : DiscordObjectStore → Depot → Prop) : Depot → Prop
  | start {d : Depot} : Sane d → Operated allows d
  | put {d t : Depot} (store : DiscordObjectStore) (id : Uuid) (data : Bytes) (group : Uuid) : Operated allows d →
      (store.putFor id data group).run.Stops discord d t → Operated allows t
  | sweep {d t : Depot} (store : DiscordObjectStore) (retention : ℕ) : Operated allows d → allows store d →
      (store.collect retention).Stops discord d t → Operated allows t

variable {d : Depot}

theorem Operated.sane (h : Operated BareOfFirst d) : Sane d := by
  induction h with
  | start hd => exact hd
  | put store id data group _ hstops ih => exact (putFor_meets ih id data group).stops (fun _ _ ht => ht) hstops
  | sweep store retention _ hbare hstops ih =>
    exact ((collect_meets retention ⟨ih, hbare⟩).stops (fun _ _ ht => ht) hstops).1

def oneObject (owner backend : Text) : Depot where
  locators := AList.insert 7 ⟨7, backend, ['m'], ['a'], [], 1⟩ ∅
  posted := AList.insert ['m'] owner ∅
  existing := [['m']]
  homes := AList.insert 7 ['m'] ∅
  lost := []

def twoWebhooks : DiscordObjectStore := ⟨[⟨['A'], 0⟩, ⟨['B'], 0⟩], by decide⟩

theorem oneObject_sane {owner backend : Text} (h : webhookOf backend ≠ [] → webhookOf backend = owner) :
    Sane (oneObject owner backend) where
  lost := rfl
  home {i record} hi := by
    simp only [oneObject, lookup_insert] at hi ⊢
    split_ifs at hi ⊢
    · cases hi
      rfl
    · cases hi
  owner {i record} hi hne := by
    simp only [oneObject, lookup_insert] at hi ⊢
    split_ifs at hi
    · cases hi
      rw [if_pos rfl, h hne]
    · cases hi
  missing {i} hi := by
    simp only [oneObject, lookup_insert] at hi
    split_ifs at hi with hne
    simp only [Depot.held, oneObject, lookup_insert, if_neg hne]
    rfl
  posted {m} hm := by
    cases List.mem_singleton.mp hm
    exact ⟨owner, rfl⟩
  homed {i m} hm := by
    simp only [oneObject, lookup_insert] at hm
    split_ifs at hm
    · cases hm
      exact ⟨owner, rfl⟩
    · cases hm

theorem forgets_only_gone (h : Operated BareOfFirst d) :
    d.lost = [] ∧ ∀ id, d.locators.lookup id = none → d.held id = false :=
  ⟨h.sane.lost, fun _ hnone => h.sane.missing hnone⟩

theorem forgets_after_delete :
    Operated BareOfFirst (((oneObject ['A'] "discord".toList).unpost ['m']).drop 7)
      ∧ (((oneObject ['A'] "discord".toList).unpost ['m']).drop 7).lost = [] := by
  have hstart : Sane (oneObject ['A'] "discord".toList) := oneObject_sane (by decide)
  have hrun : Operated BareOfFirst (((oneObject ['A'] "discord".toList).unpost ['m']).drop 7) := by
    refine .sweep twoWebhooks 0 (.start hstart) ?_ ?_
    · intro i record webhookId hi hbare hposted
      simp only [oneObject, lookup_insert] at hi
      split_ifs at hi
      · cases hi
        cases hposted
        rfl
      · cases hi
    · refine .call (r := true) rfl (.call (r := (0 : ℕ)) rfl (.call (r := .ok [7]) rfl ?_))
      refine .call (r := .ok ⟨7, "discord".toList, ['m'], ['a'], [], 1⟩) ⟨rfl, rfl⟩ ?_
      have howns : (oneObject ['A'] "discord".toList).Owns ['A'] ['m'] := ⟨.head _, rfl⟩
      refine .call (r := .ok ⟨204, "", .error ""⟩) ⟨.inr ⟨howns, rfl⟩, ?_⟩ (.call (r := .ok ()) (.inl rfl) .here)
      rintro _ ⟨⟩
      exact ⟨fun _ => ⟨howns, rfl⟩, nofun⟩
  exact ⟨hrun, (forgets_only_gone hrun).1⟩

theorem forgets_what_exists : Operated (fun _ _ => True) ((oneObject ['B'] "discord".toList).drop 7)
    ∧ ((oneObject ['B'] "discord".toList).drop 7).lost = [7] := by
  -- The owner is the second webhook; the first one is asked, and does not know the message.
  have hstart : Sane (oneObject ['B'] "discord".toList) := oneObject_sane (by decide)
  refine ⟨.sweep twoWebhooks 0 (.start hstart) trivial ?_, by decide⟩
  refine .call (r := true) rfl (.call (r := (0 : ℕ)) rfl (.call (r := .ok [7]) rfl ?_))
  refine .call (r := .ok ⟨7, "discord".toList, ['m'], ['a'], [], 1⟩) ⟨rfl, rfl⟩ ?_
  refine .call (r := .ok ⟨404, "", .error ""⟩) ⟨.inl rfl, ?_⟩ (.call (r := .ok ()) (.inl rfl) .here)
  rintro _ ⟨⟩
  refine ⟨nofun, fun _ howns => ?_⟩
  cases howns.2

end Dcfs.Discord
