import Dcfs.Discord.Depot

namespace Dcfs.Discord

open Effects Tables

variable {d t : Depot} {store : DiscordObjectStore} {id : Uuid} {messageId : Text}

def Fit (store : DiscordObjectStore) (d : Depot) : Prop := Sane d ∧ BareOfFirst store d

abbrev rules (store : DiscordObjectStore) : Rules Remote Depot := discord.guarded (Fit store)

def Asks (client : DiscordClient) (messageId : Text) (d : Depot) : Prop :=
  ∀ webhookId, d.posted.lookup messageId = some webhookId → webhookId = client.webhookId

def Gone : Except DiscordError Unit → Prop
  | .ok () => True
  | .error (.api status _) => status = 404
  | .error _ => False

structure Deleting (d t : Depot) : Prop where
  locators : t.locators = d.locators
  posted : t.posted = d.posted
  homes : t.homes = d.homes

theorem Deleting.trans {u : Depot} (h : Deleting d t) (h' : Deleting t u) : Deleting d u :=
  ⟨h'.locators.trans h.locators, h'.posted.trans h.posted, h'.homes.trans h.homes⟩

theorem deleteMessage_keeps {webhookId : Text} {r : Except String HttpAnswer} (hd : Fit store d)
    (h : Depot.outcome (.deleteMessage webhookId messageId) d r t) : Fit store t ∧ Deleting d t := by
  rcases h.1 with rfl | ⟨-, rfl⟩
  · exact ⟨hd, rfl, rfl, rfl⟩
  · exact ⟨⟨hd.1.unpost _, hd.2.of_erased rfl fun _ _ hi => hi⟩, rfl, rfl, rfl⟩

theorem deleteMessage_gone {client : DiscordClient} {answer : HttpAnswer} (hd : Sane d)
    (hasks : Asks client messageId d) (h : Depot.outcome (.deleteMessage client.webhookId messageId) d (.ok answer) t)
    (hstatus : isSuccess answer.status = true ∨ answer.status = 404) : messageId ∉ t.existing := by
  rcases hstatus with hsuccess | hnotFound
  · obtain ⟨-, rfl⟩ := (h.2 answer rfl).1 hsuccess
    exact not_mem_unpost
  · have hno := (h.2 answer rfl).2 hnotFound
    rcases h.1 with rfl | ⟨howns, -⟩
    · intro hmem
      obtain ⟨webhookId, hposted⟩ := hd.posted hmem
      exact hno ⟨hmem, hasks webhookId hposted ▸ hposted⟩
    · exact absurd howns hno

theorem deleteRound_meets {client : DiscordClient} (hd : Fit store d) (hasks : Asks client messageId d)
    {again : Option (Program Remote (Except DiscordError Unit))}
    (hagain : ∀ next ∈ again, ∀ t, Fit store t → Deleting d t → next.Meets (rules store)
      (fun result u => Fit store u ∧ Deleting d u ∧ (Gone result → messageId ∉ u.existing)) t) :
    (client.deleteRound messageId again).Meets (rules store)
      (fun result u => Fit store u ∧ Deleting d u ∧ (Gone result → messageId ∉ u.existing)) d := by
  refine ⟨⟨trivial, hd⟩, fun r t hr => ?_⟩
  obtain ⟨hfit, hsame⟩ := deleteMessage_keeps hd hr
  have hretry : ∀ e : DiscordError, ¬ Gone (.error e) → (again.getD (pure (.error e))).Meets (rules store)
      (fun result u => Fit store u ∧ Deleting d u ∧ (Gone result → messageId ∉ u.existing)) t := by
    intro e he
    cases again with
    | none => exact ⟨hfit, hsame, fun h => absurd h he⟩
    | some next => exact hagain next rfl t hfit hsame
  cases r with
  | error detail => exact hretry _ id
  | ok answer =>
    simp only [Program.bind]
    split_ifs with hlimit hnotFound hsuccess hserver
    · exact hretry _ id
    · exact ⟨hfit, hsame, fun _ => deleteMessage_gone hd.1 hasks hr (.inr hnotFound)⟩
    · exact ⟨hfit, hsame, fun _ => deleteMessage_gone hd.1 hasks hr (.inl hsuccess)⟩
    · exact hretry _ hnotFound
    · exact ⟨hfit, hsame, fun h => absurd h hnotFound⟩

theorem deleteRounds_meets {client : DiscordClient} (left : ℕ) (hd : Fit store d) (hasks : Asks client messageId d) :
    (client.deleteRounds messageId left).Meets (rules store)
      (fun result u => Fit store u ∧ Deleting d u ∧ (Gone result → messageId ∉ u.existing)) d := by
  induction left generalizing d with
  | zero => exact deleteRound_meets hd hasks nofun
  | succ left ih =>
    refine deleteRound_meets hd hasks ?_
    rintro next ⟨⟩ t hfit hsame
    have hasks' : Asks client messageId t := fun webhookId h => hasks webhookId (hsame.posted ▸ h)
    exact (ih hfit hasks').mono fun _ u ⟨hfit, hlater, hgone⟩ => ⟨hfit, hsame.trans hlater, hgone⟩

theorem clientFor_asks {record : ObjectLocatorRecord} {locator : DiscordLocator} (hd : Fit store d)
    (hrow : d.locators.lookup id = some record) (hwebhook : locator.webhookId = webhookOf record.backend)
    (hknown : locator.webhookId ≠ [] → ∃ client ∈ store.clients, client.webhookId = locator.webhookId) :
    Asks (store.clientFor locator) record.messageId d := by
  intro webhookId hposted
  rw [DiscordObjectStore.clientFor]
  cases hfind : store.clients.find? (fun client => client.webhookId == locator.webhookId) with
  | some client =>
    have hfound : client.webhookId = locator.webhookId := by simpa using List.find?_some hfind
    have hmem := List.mem_of_find?_eq_some hfind
    rw [Option.getD_some, hfound]
    by_cases hempty : locator.webhookId = []
    · have hbare := hd.2 id record webhookId hrow (hwebhook ▸ hempty) hposted
      rw [if_pos (List.mem_map.mpr ⟨client, hmem, hfound.trans hempty⟩)] at hbare
      rw [hbare, hempty]
    · have howner := hd.1.owner hrow (hwebhook ▸ hempty)
      exact Option.some.inj (hposted.symm.trans (hwebhook ▸ howner))
  | none =>
    have hnone : ∀ client ∈ store.clients, client.webhookId ≠ locator.webhookId := by
      simpa using hfind
    have hempty : locator.webhookId = [] := by
      by_contra hne
      obtain ⟨client, hmem, heq⟩ := hknown hne
      exact hnone client hmem heq
    have hbare := hd.2 id record webhookId hrow (hwebhook ▸ hempty) hposted
    rw [if_neg, List.head?_map, List.head?_eq_some_head store.nonempty, Option.map_some, Option.some_inj] at hbare
    · exact hbare.symm
    · intro hmem
      obtain ⟨client, hclient, heq⟩ := List.mem_map.mp hmem
      exact hnone client hclient (heq.trans hempty.symm)

def Absent : Except ObjectStoreError Unit → Prop
  | .ok () => True
  | .error (.notFound _) => True
  | .error _ => False

theorem remove_meets (hd : Fit store d) (hgone : d.held id = false) : (Locators.remove id).run.Meets (rules store)
    (fun result t => Fit store t ∧ (Absent result → t.held id = false)) d := by
  refine ⟨⟨trivial, hd⟩, fun r t hr => ?_⟩
  have hfit : Fit store t ∧ t.held id = false := by
    rcases hr with rfl | ⟨rfl, -⟩
    · exact ⟨⟨hd.1.drop hgone, hd.2.drop id⟩, hgone⟩
    · exact ⟨hd, hgone⟩
  cases r with
  | ok _ => exact ⟨hfit.1, fun _ => hfit.2⟩
  | error e => exact ⟨hfit.1, fun _ => hfit.2⟩

theorem settleDelete_meets {result : Except DiscordError Unit} (hd : Fit store d)
    (hgone : Gone result → d.held id = false) : (DiscordObjectStore.settleDelete id result).run.Meets (rules store)
      (fun result t => Fit store t ∧ (Absent result → t.held id = false)) d := by
  unfold DiscordObjectStore.settleDelete
  split
  · exact remove_meets hd (hgone trivial)
  · exact remove_meets hd (hgone rfl)
  · rename_i e hnot
    refine ⟨hd, fun h => ?_⟩
    unfold mapErr at h
    split at h
    · exact absurd rfl (hnot _)
    · exact h.elim

theorem delete_meets (hd : Fit store d) (id : Uuid) : (store.delete id).run.Meets (rules store)
    (fun result t => Fit store t ∧ (Absent result → t.held id = false)) d := by
  refine ⟨⟨trivial, hd⟩, ?_⟩
  rintro (e | record) t ⟨rfl, hrow⟩
  · cases e with
    | notFound => exact ⟨hd, fun _ => hd.1.missing hrow⟩
    | _ => exact ⟨hd, not_false.elim⟩
  · set locator : DiscordLocator := ⟨id, record.messageId, record.attachmentId, webhookOf record.backend, record.url,
      record.size.toNat⟩ with hlocator
    change Program.Meets (rules store) (ExceptT.run (if locator.webhookId ≠ []
      ∧ ¬ store.clients.any (fun client => client.webhookId == locator.webhookId) then _ else _)) _ t
    split_ifs with hretained
    · exact ⟨hd, not_false.elim⟩
    · have hasks : Asks (store.clientFor locator) record.messageId t := by
        refine clientFor_asks hd hrow rfl fun hne => ?_
        simpa [hne] using hretained
      refine Program.Meets.bind (Program.Meets.bind ((deleteRounds_meets _ hd hasks).mono ?_))
      rintro result u ⟨hfit, hsame, hgone⟩
      have hheld : Gone result → u.held id = false := by
        intro h
        rw [held_eq_false, hsame.homes, hd.1.home hrow]
        rintro m ⟨⟩
        exact hgone h
      exact settleDelete_meets hfit hheld

end Dcfs.Discord
