import Dcfs.Discord.Store
import Dcfs.Library.Fallible
import Dcfs.Library.Table

/-! What is kept where, and what Discord and the database may answer. -/

namespace Dcfs.Discord

open Effects Tables

/--
The locator rows, the webhook that posted each message, and the messages that still exist. `homes`
has the message each object's row was written for, and `lost` the objects that were forgotten or
whose row was dropped while that message existed.
-/
structure Depot where
  locators : Table Uuid ObjectLocatorRecord
  posted : Table Text Text
  existing : List Text
  homes : Table Uuid Text
  lost : List Uuid

namespace Depot

variable (d : Depot)

def held (id : Uuid) : Bool := (d.homes.lookup id).any (fun messageId => d.existing.contains messageId)

def Owns (webhookId messageId : Text) : Prop :=
  messageId ∈ d.existing ∧ d.posted.lookup messageId = some webhookId

def blame (id : Uuid) : List Uuid := if d.held id then id :: d.lost else d.lost

def forget (id : Uuid) : Depot := { d with lost := d.blame id }

def drop (id : Uuid) : Depot := { d with locators := d.locators.erase id, lost := d.blame id }

def write (record : ObjectLocatorRecord) : Depot :=
  { d with
    locators := d.locators.insert record.objectId record
    homes := d.homes.insert record.objectId record.messageId }

def post (webhookId messageId : Text) : Depot :=
  { d with posted := d.posted.insert messageId webhookId, existing := messageId :: d.existing }

def unpost (messageId : Text) : Depot := { d with existing := d.existing.filter (· ≠ messageId) }

/--
A database call that fails may have been carried out or not, and so may a request to Discord. A
webhook says it has deleted a message only if it has, and answers 404 only for one that does not
exist or that it does not own; whatever else it answers says nothing.
-/
def outcome : (c : RemoteCall) → Depot → c.Reply → Depot → Prop
  | .getObjectLocator id, d, r, t => t = d ∧ match r with
    | .ok record => d.locators.lookup id = some record
    | .error .notFound => d.locators.lookup id = none
    | .error _ => True
  | .putObjectLocator record, d, r, t => t = d.write record ∨ (t = d ∧ ∃ e, r = .error e)
  | .deleteObjectLocator id, d, r, t => t = d.drop id ∨ (t = d ∧ ∃ e, r = .error e)
  | .postAttachment webhookId _ _, d, r, t =>
    (t = d ∨ ∃ messageId, d.posted.lookup messageId = none ∧ t = d.post webhookId messageId)
      ∧ ∀ answer message, r = .ok answer → isSuccess answer.status = true → answer.json = .ok message →
        d.posted.lookup message.id = none ∧ t = d.post webhookId message.id
  | .deleteMessage webhookId messageId, d, r, t => (t = d ∨ (d.Owns webhookId messageId ∧ t = d.unpost messageId))
    ∧ ∀ answer, r = .ok answer →
      (isSuccess answer.status = true → d.Owns webhookId messageId ∧ t = d.unpost messageId)
        ∧ (answer.status = 404 → ¬ d.Owns webhookId messageId)
  | .metadata (.forgetObject id), d, _, t => t = d.forget id
  | .metadata _, d, _, t => t = d

end Depot

def discord : Rules Remote Depot where
  admits _ _ := True
  outcome := Depot.outcome

structure Sane (d : Depot) : Prop where
  lost : d.lost = []
  home : ∀ {id record}, d.locators.lookup id = some record → d.homes.lookup id = some record.messageId
  owner : ∀ {id record}, d.locators.lookup id = some record → webhookOf record.backend ≠ [] →
    d.posted.lookup record.messageId = some (webhookOf record.backend)
  missing : ∀ {id}, d.locators.lookup id = none → d.held id = false
  posted : ∀ {messageId}, messageId ∈ d.existing → ∃ webhookId, d.posted.lookup messageId = some webhookId
  homed : ∀ {id messageId}, d.homes.lookup id = some messageId → ∃ webhookId, d.posted.lookup messageId = some webhookId

local instance : LawfulBEq Text := inferInstance

/-- A row without a webhook is of the first one configured, or of the one whose id is empty. -/
def BareOfFirst (store : DiscordObjectStore) (d : Depot) : Prop :=
  ∀ id record webhookId, d.locators.lookup id = some record → webhookOf record.backend = [] →
    d.posted.lookup record.messageId = some webhookId →
    if [] ∈ store.clients.map DiscordClient.webhookId then webhookId = []
    else (store.clients.map DiscordClient.webhookId).head? = some webhookId

variable {d t : Depot} {store : DiscordObjectStore} {id : Uuid} {messageId webhookId : Text}

theorem held_eq_false : d.held id = false ↔ ∀ m, d.homes.lookup id = some m → m ∉ d.existing := by
  rw [Depot.held]
  cases d.homes.lookup id with
  | none => simp
  | some m => simp

theorem blame_eq (h : d.held id = false) : d.blame id = d.lost := by
  rw [Depot.blame, h]
  rfl

theorem Sane.forget (hd : Sane d) (h : d.held id = false) : Sane (d.forget id) where
  lost := (blame_eq h).trans hd.lost
  home := hd.home
  owner := hd.owner
  missing := hd.missing
  posted := hd.posted
  homed := hd.homed

theorem Sane.drop (hd : Sane d) (h : d.held id = false) : Sane (d.drop id) where
  lost := (blame_eq h).trans hd.lost
  home {i record} hi := by
    rw [Depot.drop, lookup_erase] at hi
    split_ifs at hi
    exact hd.home hi
  owner {i record} hi := by
    rw [Depot.drop, lookup_erase] at hi
    split_ifs at hi
    exact hd.owner hi
  missing {i} hi := by
    rw [Depot.drop, lookup_erase] at hi
    split_ifs at hi with hid
    · rw [hid]
      exact h
    · exact hd.missing hi
  posted := hd.posted
  homed := hd.homed

theorem held_unpost (h : d.held id = false) (messageId : Text) : (d.unpost messageId).held id = false := by
  rw [held_eq_false] at h ⊢
  exact fun m hm hmem => h m hm (List.mem_of_mem_filter hmem)

theorem Sane.unpost (hd : Sane d) (messageId : Text) : Sane (d.unpost messageId) where
  lost := hd.lost
  home := hd.home
  owner := hd.owner
  missing hi := held_unpost (hd.missing hi) messageId
  posted hm := hd.posted (List.mem_of_mem_filter hm)
  homed := hd.homed

theorem not_mem_unpost : messageId ∉ (d.unpost messageId).existing := by
  rw [Depot.unpost, List.mem_filter]
  rintro ⟨-, hne⟩
  exact absurd rfl (of_decide_eq_true hne)

theorem lookup_post (hfresh : d.posted.lookup messageId = none) {m w : Text} (h : d.posted.lookup m = some w) :
    (d.post webhookId messageId).posted.lookup m = some w := by
  rw [Depot.post, lookup_insert, if_neg]
  · exact h
  · rintro rfl
    cases hfresh.symm.trans h

theorem Sane.post (hd : Sane d) (hfresh : d.posted.lookup messageId = none) (webhookId : Text) :
    Sane (d.post webhookId messageId) where
  lost := hd.lost
  home := hd.home
  owner hi hne := lookup_post hfresh (hd.owner hi hne)
  missing {i} hi := by
    rw [held_eq_false]
    intro m hm hmem
    obtain ⟨w, hw⟩ := hd.homed hm
    rcases List.mem_cons.mp hmem with rfl | hold
    · cases hfresh.symm.trans hw
    · exact held_eq_false.mp (hd.missing hi) m hm hold
  posted {m} hm := by
    rcases List.mem_cons.mp hm with rfl | hold
    · exact ⟨webhookId, by rw [Depot.post, lookup_insert, if_pos rfl]⟩
    · obtain ⟨w, hw⟩ := hd.posted hold
      exact ⟨w, lookup_post hfresh hw⟩
  homed hm := by
    obtain ⟨w, hw⟩ := hd.homed hm
    exact ⟨w, lookup_post hfresh hw⟩

theorem Sane.write (hd : Sane d) {record : ObjectLocatorRecord}
    (hposted : d.posted.lookup record.messageId = some webhookId)
    (hbackend : webhookOf record.backend = webhookId) : Sane (d.write record) where
  lost := hd.lost
  home {i row} hi := by
    simp only [Depot.write, lookup_insert] at hi ⊢
    split_ifs at hi ⊢
    · cases hi
      rfl
    · exact hd.home hi
  owner {i row} hi hne := by
    simp only [Depot.write, lookup_insert] at hi
    split_ifs at hi
    · cases hi
      rw [hbackend]
      exact hposted
    · exact hd.owner hi hne
  missing {i} hi := by
    simp only [Depot.write, lookup_insert] at hi
    split_ifs at hi with hid
    rw [held_eq_false]
    intro m hm
    simp only [Depot.write, lookup_insert, if_neg hid] at hm
    exact held_eq_false.mp (hd.missing hi) m hm
  posted := hd.posted
  homed {i m} hm := by
    simp only [Depot.write, lookup_insert] at hm
    split_ifs at hm
    · cases hm
      exact ⟨webhookId, hposted⟩
    · exact hd.homed hm

theorem BareOfFirst.of_erased (h : BareOfFirst store d) (hposted : t.posted = d.posted)
    (hrows : ∀ i record, t.locators.lookup i = some record → d.locators.lookup i = some record) :
    BareOfFirst store t :=
  fun i record webhookId hi hbare hpost => h i record webhookId (hrows i record hi) hbare (hposted ▸ hpost)

theorem BareOfFirst.drop (h : BareOfFirst store d) (id : Uuid) : BareOfFirst store (d.drop id) := by
  refine h.of_erased rfl fun i record hi => ?_
  rw [Depot.drop, lookup_erase] at hi
  split_ifs at hi
  exact hi

end Dcfs.Discord
