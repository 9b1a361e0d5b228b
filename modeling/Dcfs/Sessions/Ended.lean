import Dcfs.Sessions.Lifetimes
import Dcfs.Server.Sample

namespace Dcfs.Sessions

open Effects Tables Text

variable {s : Service} {w u : World} {r : HttpRequest} {key : String}

structure Ledger (w : World) : Prop where
  older : ∀ key row, w.sessions.lookup key = some row → row.1.id < w.nextUuid
  distinct : ∀ key other row row', w.sessions.lookup key = some row → w.sessions.lookup other = some row' →
    row.1.id = row'.1.id → key = other

theorem Ledger.fresh (start : Time) : Ledger (World.fresh start) := by
  constructor
  · intro key row hrow
    simp [World.fresh] at hrow
  · intro key other row row' hrow
    simp [World.fresh] at hrow

theorem Ledger.wanes (hw : Ledger w) (h : Wanes w u) : Ledger u := by
  constructor
  · intro key row hrow
    obtain ⟨old, hold, hsame, -⟩ := h.rows key row hrow
    rw [← hsame]
    exact (hw.older key old hold).trans_le h.nextUuid
  · intro key other row row' hrow hrow' hid
    obtain ⟨old, hold, hsame, -⟩ := h.rows key row hrow
    obtain ⟨old', hold', hsame', -⟩ := h.rows other row' hrow'
    rw [← hsame, ← hsame'] at hid
    exact hw.distinct key other old old' hold hold' hid

theorem Ledger.issues {token : Chars} (hw : Ledger w) (h : Issues s token w u) : Ledger u := by
  obtain ⟨record, hid, hsessions⟩ := h.row
  constructor
  · intro key row hrow
    rw [hsessions, lookup_insert] at hrow
    split_ifs at hrow with hkey
    · cases hrow
      rw [hid]
      exact h.nextUuid
    · exact (hw.older key row hrow).trans h.nextUuid
  · intro key other row row' hrow hrow' hsame
    rw [hsessions, lookup_insert] at hrow hrow'
    split_ifs at hrow hrow' with hkey hother hother
    · rw [hkey, hother]
    · cases hrow
      have hold := hw.older other row' hrow'
      rw [← hsame, ← hid] at hold
      exact absurd hold (lt_irrefl _)
    · cases hrow'
      have hold := hw.older key row hrow
      rw [hsame, ← hid] at hold
      exact absurd hold (lt_irrefl _)
    · exact hw.distinct key other row row' hrow hrow' hsame

theorem Ledger.run (events : List Event) (hw : Ledger w) : Ledger (s.run w events) := by
  induction events generalizing w with
  | nil => exact hw
  | cons event rest ih =>
    apply ih
    rcases after_cases s w event with hwanes | ⟨token, -, hissues⟩
    · exact hw.wanes hwanes
    · exact hw.issues hissues

def Closed (w : World) (key : String) : Prop :=
  ∀ row, w.sessions.lookup key = some row → row.2 = true ∨ row.1.expiresAt ≤ w.now

theorem closed_iff : Closed w key ↔ w.findSession key = .error .notFound := by
  unfold Closed World.findSession
  cases hrow : w.sessions.lookup key with
  | none => simp
  | some row =>
    obtain ⟨record, revoked⟩ := row
    simp only [Option.some.injEq, forall_eq']
    split_ifs with hended
    · simpa using hended
    · simpa using hended

theorem Fades.closed (h : Fades key w u) (hw : Closed w key) : Closed u key := by
  intro row hrow
  obtain ⟨old, hold, hsame, hrevoked⟩ := h.row row hrow
  rw [← hsame]
  exact (hw old hold).imp hrevoked fun hexpired => hexpired.trans h.now

theorem Fades.closed_of_expired {row : SessionRecord × Bool} (h : Fades key w u)
    (hrow : w.sessions.lookup key = some row) (hexpired : row.1.expiresAt ≤ u.now) : Closed u key := by
  intro now hnow
  obtain ⟨old, hold, hsame, -⟩ := h.row now hnow
  rw [hrow] at hold
  cases hold
  right
  rwa [← hsame]

theorem Ledger.closed_revoked {row : SessionRecord × Bool} (hw : Ledger w)
    (hrow : w.sessions.lookup key = some row) : Closed (w.revokeSession row.1.id).2 key := by
  unfold World.revokeSession
  split
  · rename_i entry hentry
    have hfound : entry.2.1.id = row.1.id ∧ entry.2.2 = false := by simpa using List.find?_some hentry
    have hlookup : w.sessions.lookup entry.1 = some entry.2 :=
      lookup_eq_some_iff.mpr (List.mem_of_find?_eq_some hentry)
    have hkey : entry.1 = key := hw.distinct _ _ _ _ hlookup hrow hfound.1
    intro now hnow
    simp only [lookup_modify, hkey, if_true, hrow, Option.map_some, Option.some.injEq] at hnow
    left
    rw [← hnow]
  · rename_i hnone
    intro now hnow
    rw [hrow] at hnow
    cases hnow
    have hentry := List.find?_eq_none.mp hnone _ (lookup_eq_some_iff.mp hrow)
    left
    simpa using hentry

theorem Ledger.closed_logout {token : Chars} (hw : Ledger w) (hcookie : r.cookieToken = some token) :
    Closed (s.logout r w).2 (s.hashToken token) := by
  simp only [Service.logout, hcookie]
  split
  · rename_i session hsession
    unfold World.findSession at hsession
    split at hsession
    · cases hsession
    · rename_i record revoked hrow
      split_ifs at hsession
      cases hsession
      exact hw.closed_revoked hrow
  · rename_i e herror
    rw [closed_iff]
    unfold World.findSession at herror ⊢
    split
    · rfl
    · split_ifs with hended
      · rfl
      · simp_all

/-- The request holds nothing that passes for the expected token, in its headers or as a body to sign in with. -/
def Withholds (s : Service) (expected : Chars) (r : HttpRequest) : Prop :=
  Withheld expected r.presented ∧ ∀ token, s.readLogin r = .ok token → Withheld expected token

theorem respond_wanes {expected : Chars} (htoken : s.apiToken = some expected) (hexpected : 0 ∉ asBytes expected)
    (hr : Withholds s expected r) (draw : Draw) : Wanes w (s.respond draw r w).2 := by
  rcases respond_cases s w r draw with hwanes | ⟨hpassed | ⟨token, configured, hlogin, hconfigured, hmatch⟩, -⟩
  · exact hwanes
  · simp [Service.requireBootstrapToken, htoken, tokenMatches_of_withheld hexpected hr.1] at hpassed
  · rw [htoken] at hconfigured
    cases hconfigured
    rw [tokenMatches_of_withheld hexpected (hr.2 token hlogin)] at hmatch
    cases hmatch

theorem requireToken_closed {expected : Chars} (htoken : s.apiToken = some expected)
    (hexpected : 0 ∉ asBytes expected) (hr : Withheld expected r.presented)
    (hclosed : Closed w (s.hashToken r.presented)) : s.requireToken w r ≠ none := by
  rw [closed_iff] at hclosed
  simp only [Service.requireToken, htoken, tokenMatches_of_withheld hexpected hr, hclosed, Bool.false_eq_true,
    if_false]
  split_ifs
  · simp
  · simp

theorem dispatch_of_reached {handler : Handler} (h : s.reached w r = some handler) :
    ∃ params, s.dispatch w r = .run handler params := by
  unfold Service.reached at h
  split at h
  · rename_i params hdispatch
    cases h
    exact ⟨params, hdispatch⟩
  · cases h

theorem reached_closed {expected : Chars} (htoken : s.apiToken = some expected)
    (hexpected : 0 ∉ asBytes expected) (hr : Withheld expected r.presented)
    (hclosed : Closed w (s.hashToken r.presented)) {handler : Handler} (hlayer : handler.layer = .requireToken) :
    s.reached w r ≠ some handler := by
  intro hreached
  obtain ⟨params, hdispatch⟩ := dispatch_of_reached hreached
  have hpass := pass_of_dispatch hdispatch
  rw [hlayer] at hpass
  exact requireToken_closed htoken hexpected hr hclosed hpass

def Creates (w u : World) : Prop :=
  ∃ key row, u.sessions.lookup key = some row ∧ ∀ old, w.sessions.lookup key = some old → old.1 ≠ row.1

theorem Wanes.not_creates (h : Wanes w u) : ¬ Creates w u := by
  rintro ⟨key, row, hrow, hnew⟩
  obtain ⟨old, hold, hsame, -⟩ := h.rows key row hrow
  exact hnew old hold hsame

/-- In the course of the events the session of the token was revoked by its id, logged out or is past its time. -/
def Ended (s : Service) (start : World) (events : List Event) (token : Chars) : Prop :=
  ∃ before rest row, events = before ++ rest ∧ token ∈ drawn before
    ∧ (s.run start before).sessions.lookup (s.hashToken token) = some row
    ∧ (row.1.expiresAt ≤ (s.run start events).now
      ∨ ∃ r draw later, rest = .request r draw :: later
        ∧ ((∃ params, s.dispatch (s.run start before) r = .run .revokeSession params
            ∧ s.readUuid params = .ok row.1.id)
          ∨ s.reached (s.run start before) r = some .logout ∧ r.cookieToken = some token))

theorem Ledger.closed_after_revoke {row : SessionRecord × Bool} {params : List String} (hw : Ledger w)
    (hrow : w.sessions.lookup key = some row) (hdispatch : s.dispatch w r = .run .revokeSession params)
    (hid : s.readUuid params = .ok row.1.id) (draw : Draw) : Closed (s.after w (.request r draw)) key := by
  have hstate : s.after w (.request r draw) = (w.revokeSession row.1.id).2 := by
    simp only [Service.after, Service.respond, hdispatch, Service.serve, Service.revokeSession, hid]
    split <;> simp_all
  rw [hstate]
  exact hw.closed_revoked hrow

theorem Ledger.closed_after_logout {token : Chars} (hw : Ledger w) (hreached : s.reached w r = some .logout)
    (hcookie : r.cookieToken = some token) (draw : Draw) :
    Closed (s.after w (.request r draw)) (s.hashToken token) := by
  obtain ⟨params, hdispatch⟩ := dispatch_of_reached hreached
  simp only [Service.after, Service.respond, hdispatch, Service.serve]
  exact hw.closed_logout hcookie

theorem Ended.closed {start : World} {events : List Event} {token : Chars} (h : Ended s start events token)
    (hstart : Ledger start) (hfresh : (drawn events).Nodup)
    (hhash : Set.InjOn s.hashToken {token | token ∈ drawn events}) :
    Closed (s.run start events) (s.hashToken token) := by
  obtain ⟨before, rest, row, rfl, hdrawn, hrow, hended⟩ := h
  have hsplit : drawn (before ++ rest) = drawn before ++ drawn rest := List.flatMap_append
  have hrun : s.run start (before ++ rest) = s.run (s.run start before) rest := List.foldl_append
  rw [hsplit] at hfresh hhash
  have hother : ∀ other ∈ drawn rest, s.hashToken token ≠ s.hashToken other := by
    intro other hmem hsame
    have heq := hhash (List.mem_append_left _ hdrawn) (List.mem_append_right _ hmem) hsame
    rw [heq] at hdrawn
    exact List.disjoint_of_nodup_append hfresh hdrawn hmem
  rw [hrun] at hended ⊢
  have hledger : Ledger (s.run start before) := hstart.run before
  rcases hended with hexpired | ⟨r, draw, later, rfl, hend⟩
  · exact (run_fades rest _ hother).closed_of_expired hrow hexpired
  · have hlater : Fades (s.hashToken token) (s.after (s.run start before) (.request r draw))
        (s.run (s.run start before) (.request r draw :: later)) := by
      apply run_fades later
      intro other hmem
      apply hother
      exact List.mem_append_right _ hmem
    apply hlater.closed
    rcases hend with ⟨params, hdispatch, hid⟩ | ⟨hreached, hcookie⟩
    · exact hledger.closed_after_revoke hrow hdispatch hid draw
    · exact hledger.closed_after_logout hreached hcookie draw

theorem sessions_end (s : Service) {expected : Chars} (htoken : s.apiToken = some expected)
    (hexpected : 0 ∉ asBytes expected) (start : Time) (events : List Event) (hfresh : (drawn events).Nodup)
    (hhash : Set.InjOn s.hashToken {token | token ∈ drawn events}) (r : HttpRequest)
    (hr : Withholds s expected r) :
    let w := s.run (World.fresh start) events
    (∀ draw, ¬ Creates w (s.after w (.request r draw)))
      ∧ (Ended s (World.fresh start) events r.presented →
        s.reached w r ≠ some .serveDav ∧ ∀ handler, s.reached w r ≠ some (.api handler)) := by
  intro w
  constructor
  · intro draw
    exact (respond_wanes htoken hexpected hr draw).not_creates
  · intro hended
    have hclosed := hended.closed (Ledger.fresh start) hfresh hhash
    constructor
    · exact reached_closed htoken hexpected hr.1 hclosed rfl
    · intro handler
      exact reached_closed htoken hexpected hr.1 hclosed rfl

def bootstrap : Chars := "bootstrap-secret".toList

def tokenField (body : Bytes) : Option Chars := do
  let text ← fromUtf8 body
  let value ← text.dropPrefix? "\x7b\"token\":\"".toList
  if value.drop (value.length - 2) = "\"\x7d".toList then some (value.take (value.length - 2)) else none

def literally : Matcher where
  find routes r :=
    (routes.find? fun route => route.path == r.path.map .lit && route.methods == .only r.method).map (·, some [])
  find_mem h := by
    obtain ⟨found, hfound, heq⟩ := Option.map_eq_some_iff.mp h
    cases heq
    exact List.mem_of_find?_eq_some hfound

def sampleService : Service where
  cfg := sample .memory
  faults := noFaults
  apiToken := some bootstrap
  axum := literally
  hash bytes := String.ofList (bytes.map fun b => Char.ofNat b.toNat)
  readLogin r := (tokenField r.body).elim (.error ⟨422, .empty, none⟩) .ok
  readSession _ := none
  readUuid _ := .error ⟨400, .empty, none⟩
  serveDav _ := .done ⟨200, .empty, none⟩
  serveApi _ _ _ := .done ⟨200, .empty, none⟩

def sampleToken : Chars := hexToken fun _ => 7

def signIn : Event :=
  .request ⟨.post, ["ui", "login"], [], asBytes "\x7b\"token\":\"bootstrap-secret\"\x7d".toList⟩
    (.ok fun _ => 7)

def signOutRequest : HttpRequest :=
  ⟨.post, ["ui", "logout"], [("cookie", asBytes ("dcfs_session=".toList ++ sampleToken))], []⟩

def fetchRequest : HttpRequest :=
  ⟨.get, ["api", "v1", "fs"], [("authorization", asBytes ("Bearer ".toList ++ sampleToken))], []⟩

theorem signed_out_session_ends :
    sampleService.reached (sampleService.run (World.fresh 0) [signIn]) fetchRequest = some (.api .getFsInfo)
      ∧ sampleService.reached
        (sampleService.run (World.fresh 0) [signIn, .request signOutRequest (.error "")]) fetchRequest
          ≠ some (.api .getFsInfo) := by
  have hpresented : fetchRequest.presented = sampleToken := by decide
  have hwithholds : Withholds sampleService bootstrap fetchRequest := by
    constructor
    · rw [hpresented]
      apply hexToken_withheld
      decide
    · intro token hlogin
      have hnone : tokenField fetchRequest.body = none := by decide
      simp [sampleService, hnone] at hlogin
  have hended : Ended sampleService (World.fresh 0) [signIn, .request signOutRequest (.error "")]
      fetchRequest.presented := by
    rw [hpresented]
    refine ⟨[signIn], _, (⟨1, "browser", 2, 43200000000001⟩, false), rfl, ?_, ?_, .inr ⟨_, _, _, rfl, .inr ?_⟩⟩
    · decide
    · decide
    · decide
  have htoken : sampleService.apiToken = some bootstrap := rfl
  have hends := sessions_end sampleService htoken (by decide) 0
    [signIn, .request signOutRequest (.error "")] (by decide)
    (by intro a ha b hb; simp_all [drawn, signIn, Event.drawn]) fetchRequest hwithholds
  constructor
  · decide
  · exact (hends.2 hended).2 .getFsInfo

end Dcfs.Sessions
