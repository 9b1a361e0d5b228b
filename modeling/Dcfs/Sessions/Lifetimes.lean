import Dcfs.Sessions.Service

namespace Dcfs.Sessions

open Effects Tables Text

variable {s : Service} {w u : World} {r : HttpRequest} {draw : Draw}

structure Issues (s : Service) (token : Chars) (w u : World) : Prop where
  row : ∃ record : SessionRecord, record.id = w.nextUuid
    ∧ u.sessions = w.sessions.insert (s.hashToken token) (record, false)
  now : w.now ≤ u.now
  nextUuid : w.nextUuid < u.nextUuid

theorem createSession_cases (w : World) (backend : Backend) (id : Uuid) (tokenHash label : String) (expiresAt : Time) :
    (w.createSession backend id tokenHash label expiresAt).2 = w
      ∨ (w.createSession backend id tokenHash label expiresAt).2 =
        { w.tick with sessions := w.sessions.insert tokenHash (⟨id, label, w.now, expiresAt⟩, false) } := by
  cases backend with
  | memory => exact .inr rfl
  | postgres =>
    simp only [World.createSession]
    split_ifs
    · exact .inl rfl
    · exact .inr rfl

theorem issue_cases (s : Service) (draw : Draw) (w : World) (label : String) (ttl : ℤ) :
    Wanes w (s.issue draw label ttl w).2
      ∨ ∃ bytes, draw = .ok bytes ∧ Issues s (hexToken bytes) w (s.issue draw label ttl w).2 := by
  cases draw with
  | error e => exact .inl (.refl w)
  | ok bytes =>
    have hsecond : (s.issue (.ok bytes) label ttl w).2 = (w.nextId.tick.createSession s.cfg.backend w.nextUuid
        (s.hashToken (hexToken bytes)) label (w.now + ttl * Service.second)).2 := by
      simp only [Service.issue]
      split <;> simp_all
    have hstarted : Wanes w w.nextId.tick := (Wanes.nextId w).trans (.tick _)
    rw [hsecond]
    rcases createSession_cases w.nextId.tick s.cfg.backend w.nextUuid (s.hashToken (hexToken bytes)) label
      (w.now + ttl * Service.second) with hrefused | hcreated
    · rw [hrefused]
      exact .inl hstarted
    · rw [hcreated]
      refine .inr ⟨bytes, rfl, ⟨_, rfl, rfl⟩, ?_, ?_⟩
      · exact hstarted.now.trans (Wanes.tick _).now
      · exact Nat.lt_succ_self _

theorem revokeSession_wanes (id : Uuid) : Wanes w (w.revokeSession id).2 := by
  unfold World.revokeSession
  split
  · rename_i entry hentry
    refine ⟨?_, le_rfl, le_rfl⟩
    intro key row hrow
    simp only [lookup_modify] at hrow
    split_ifs at hrow with hkey
    · obtain ⟨old, hold, rfl⟩ := Option.map_eq_some_iff.mp hrow
      exact ⟨old, hold, rfl, fun _ => rfl⟩
    · exact ⟨row, hrow, rfl, fun hrevoked => hrevoked⟩
  · apply Wanes.refl

theorem logout_wanes : Wanes w (s.logout r w).2 := by
  simp only [Service.logout]
  split
  · apply Wanes.refl
  · split
    · apply revokeSession_wanes
    · apply Wanes.refl

def SignsIn (s : Service) (r : HttpRequest) : Prop :=
  ∃ token expected, s.readLogin r = .ok token ∧ s.apiToken = some expected ∧ tokenMatches token expected = true

theorem createSession_handler_cases :
    Wanes w (s.createSession draw r w).2
      ∨ ∃ bytes, draw = .ok bytes ∧ Issues s (hexToken bytes) w (s.createSession draw r w).2 := by
  simp only [Service.createSession]
  split_ifs with hlabel
  · exact .inl (.refl w)
  · generalize ((s.readSession r).getD ⟨none, none⟩).label.getD "" = label
    generalize max 1 (min _ Service.maxTtlSecs) = ttl
    have hissue := issue_cases s draw w label ttl
    split <;> simp_all

theorem login_cases :
    Wanes w (s.login draw r w).2
      ∨ SignsIn s r ∧ ∃ bytes, draw = .ok bytes ∧ Issues s (hexToken bytes) w (s.login draw r w).2 := by
  simp only [Service.login]
  cases hlogin : s.readLogin r with
  | error response => exact .inl (.refl w)
  | ok token =>
    cases htoken : s.apiToken with
    | none => exact .inl (.refl w)
    | some expected =>
      dsimp only
      split_ifs with hmatch
      · have hissue := issue_cases s draw w "browser" Service.sessionSecs
        have hsigns : SignsIn s r := ⟨token, expected, hlogin, htoken, hmatch⟩
        split <;> simp_all
      · exact .inl (.refl w)

theorem serve_cases (handler : Handler) (params : List String) :
    Wanes w (s.serve draw r w handler params).2
      ∨ (handler = .createSession ∨ SignsIn s r)
        ∧ ∃ bytes, draw = .ok bytes ∧ Issues s (hexToken bytes) w (s.serve draw r w handler params).2 := by
  cases handler with
  | page => exact .inl (.refl w)
  | login => exact login_cases.imp_right fun h => ⟨.inr h.1, h.2⟩
  | logout => exact .inl logout_wanes
  | healthCheck => exact .inl (.refl w)
  | readinessCheck => exact .inl (.refl w)
  | createSession => exact createSession_handler_cases.imp_right fun h => ⟨.inl rfl, h⟩
  | revokeSession =>
    left
    simp only [Service.serve, Service.revokeSession]
    split
    · apply Wanes.refl
    · rename_i id hid
      have hwanes := revokeSession_wanes (w := w) id
      split <;> simp_all
  | serveDav => exact .inl (run_wanes _ _ _ _)
  | api handler => exact .inl (run_wanes _ _ _ _)

theorem pass_of_dispatch {handler : Handler} {params : List String}
    (h : s.dispatch w r = .run handler params) : s.pass w r handler.layer = none := by
  simp only [Service.dispatch] at h
  split at h
  · cases h
  · rename_i layer target hroute
    split at h
    · cases h
    · cases h
    · rename_i hpass
      cases h
      rwa [← route_layer hroute]

theorem respond_cases (s : Service) (w : World) (r : HttpRequest) (draw : Draw) :
    Wanes w (s.respond draw r w).2
      ∨ (s.requireBootstrapToken r = none ∨ SignsIn s r)
        ∧ ∃ bytes, draw = .ok bytes ∧ Issues s (hexToken bytes) w (s.respond draw r w).2 := by
  simp only [Service.respond]
  cases hdispatch : s.dispatch w r with
  | refused response => exact .inl (.refl w)
  | run handler params =>
    refine (serve_cases handler params).imp_right fun h => ⟨h.1.imp_left ?_, h.2⟩
    rintro rfl
    exact pass_of_dispatch hdispatch

structure Fades (key : String) (w u : World) : Prop where
  row : ∀ row, u.sessions.lookup key = some row →
    ∃ old, w.sessions.lookup key = some old ∧ old.1 = row.1 ∧ (old.2 = true → row.2 = true)
  now : w.now ≤ u.now

theorem Wanes.fades (h : Wanes w u) (key : String) : Fades key w u := ⟨h.rows key, h.now⟩

theorem Issues.fades {token : Chars} {key : String} (h : Issues s token w u) (hkey : key ≠ s.hashToken token) :
    Fades key w u := by
  obtain ⟨record, -, hsessions⟩ := h.row
  refine ⟨?_, h.now⟩
  intro row hrow
  rw [hsessions, lookup_insert, if_neg hkey] at hrow
  exact ⟨row, hrow, rfl, id⟩

theorem Fades.trans {key : String} {t : World} (h : Fades key w t) (h' : Fades key t u) : Fades key w u := by
  refine ⟨?_, h.now.trans h'.now⟩
  intro row hrow
  obtain ⟨mid, hmid, hsame, hrevoked⟩ := h'.row row hrow
  obtain ⟨old, hold, hsame', hrevoked'⟩ := h.row mid hmid
  exact ⟨old, hold, hsame'.trans hsame, fun hr => hrevoked (hrevoked' hr)⟩

def Event.drawn : Event → List Chars
  | .request _ (.ok bytes) => [hexToken bytes]
  | _ => []

def drawn (events : List Event) : List Chars := events.flatMap Event.drawn

theorem after_cases (s : Service) (w : World) (event : Event) :
    Wanes w (s.after w event) ∨ ∃ token ∈ event.drawn, Issues s token w (s.after w event) := by
  cases event with
  | request r draw =>
    rcases respond_cases s w r draw with hwanes | ⟨-, bytes, rfl, hissues⟩
    · exact .inl hwanes
    · exact .inr ⟨_, List.mem_singleton_self _, hissues⟩
  | collect retention => exact .inl (run_wanes _ _ _ _)
  | wait time => exact .inl (.pass w time)

theorem run_fades {token : Chars} (events : List Event) (w : World)
    (h : ∀ other ∈ drawn events, s.hashToken token ≠ s.hashToken other) :
    Fades (s.hashToken token) w (s.run w events) := by
  induction events generalizing w with
  | nil => exact (Wanes.refl w).fades _
  | cons event rest ih =>
    simp only [drawn, List.flatMap_cons, List.mem_append] at h
    have hrest := ih (s.after w event) fun other hother => h other (.inr hother)
    apply Fades.trans _ hrest
    rcases after_cases s w event with hwanes | ⟨other, hother, hissues⟩
    · exact hwanes.fades _
    · exact hissues.fades (h other (.inl hother))

end Dcfs.Sessions
