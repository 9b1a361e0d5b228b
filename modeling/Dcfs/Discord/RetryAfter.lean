import Dcfs.Discord.RateLimit

namespace Dcfs.Discord.RateLimit

open Tables

inductive Scope
  | bucket (kind : Kind)
  | all

def BucketState.spentUntil (state : BucketState) : Option ℕ := if state.remaining = some 0 then state.resetAt else none

def RateLimitManager.stateOf (limits : RateLimitManager) : Scope → BucketState
  | .bucket kind => limits.bucket kind.bucketHash
  | .all => limits.global

def Request.past (now : ℕ) : Scope → Request → Option ℕ
  | .bucket kind, r =>
    if r.kind = kind then
      match r.phase with
      | .bucketSleep wake => some wake
      | .ready => some now
      | _ => none
    else none
  | .all, r =>
    match r.phase with
    | .globalSleep wake => some wake
    | .bucketSleep wake => some wake
    | .bucketSlot => some now
    | .ready => some now
    | _ => none

def Client.Asleep (c : Client) (scope : Scope) (u : ℕ) : Prop :=
  ∀ r ∈ c.requests, ∀ wake, r.past c.now scope = some wake → u ≤ wake

def BucketState.Tightens (state : BucketState) (now : ℕ) (remaining resetAt : Option ℕ) : Prop :=
  ∀ u, state.spentUntil = some u → now < u → remaining = some 0 ∧ ∃ reset, resetAt = some reset ∧ u ≤ reset

/--
What is noted never makes a wait shorter. When a 429 is noted no request it is about has asked for the limit
already and would be sent before the wait is over; and if it is about all requests, the global limit says so.
-/
def Careful (c : Client) : Act → Prop
  | .answer i _ headers nowUnix => ∀ r, c.requests[i]? = some r →
      (c.limits.stateOf (if headers.global then .all else .bucket r.kind)).Tightens c.now headers.remaining
        ((headers.resetIn nowUnix).map (c.now + ·))
  | .advance i => ∀ r headers, c.requests[i]? = some r → r.phase = .limited headers →
      (c.limits.stateOf (.bucket r.kind)).Tightens c.now (some 0) (some (c.now + headers.waits))
      ∧ c.Asleep (.bucket r.kind) (c.now + headers.waits)
      ∧ (headers.global = true → c.Asleep .all (c.now + headers.waits)
        ∧ ∃ reset, c.limits.global.spentUntil = some reset ∧ c.now + headers.waits ≤ reset)
  | _ => True

structure Client.Guarded (c : Client) (scope : Scope) (u : ℕ) : Prop where
  spent : ∃ reset, (c.limits.stateOf scope).spentUntil = some reset ∧ u ≤ reset
  asleep : c.Asleep scope u

theorem Kind.bucketHash_inj {kind kind' : Kind} (h : kind.bucketHash = kind'.bucketHash) : kind = kind' := by
  cases kind <;> cases kind' <;> first | rfl | (revert h; decide)

namespace BucketState

variable {state : BucketState} {now : ℕ}

theorem waitDuration_eq (state : BucketState) (now : ℕ) :
    state.waitDuration now = state.spentUntil.bind fun reset => if reset ≤ now then none else some (reset - now) := by
  obtain ⟨remaining, resetAt, global⟩ := state
  rw [waitDuration, spentUntil]
  match remaining with
  | none => simp
  | some 0 => cases resetAt <;> simp
  | some (n + 1) => simp

theorem spentUntil_of_wait {wait : ℕ} (h : state.waitDuration now = some wait) :
    state.spentUntil = some (now + wait) := by
  rw [waitDuration_eq] at h
  obtain ⟨reset, hreset, hwait⟩ := Option.bind_eq_some_iff.mp h
  split_ifs at hwait with hle
  cases hwait
  rw [hreset]
  congr 1
  omega

theorem le_of_no_wait (h : state.waitDuration now = none) {reset : ℕ} (hreset : state.spentUntil = some reset) :
    reset ≤ now := by
  rw [waitDuration_eq, hreset, Option.bind_some] at h
  by_contra hlt
  rw [if_neg hlt] at h
  cases h

end BucketState

theorem RateLimitManager.bucketWait_eq (limits : RateLimitManager) (kind : Kind) (now : ℕ) :
    limits.bucketWait kind.bucketHash now = (limits.stateOf (.bucket kind)).waitDuration now := by
  rw [bucketWait, stateOf, bucket]
  cases limits.buckets.lookup kind.bucketHash <;> rfl

variable {cfg : ClientConfig} {c c' : Client} {scope : Scope} {u i : ℕ} {r : Request} {phase : Phase}

theorem Request.past_mono {now now' wake : ℕ} (hle : now ≤ now') (h : r.past now' scope = some wake) :
    ∃ wake', r.past now scope = some wake' ∧ wake' ≤ wake := by
  obtain ⟨kind, attempt, phase⟩ := r
  cases scope with
  | bucket kind' =>
    simp only [Request.past] at h ⊢
    split_ifs at h ⊢
    cases phase with
    | bucketSleep wake' =>
      cases h
      exact ⟨_, rfl, le_rfl⟩
    | ready =>
      cases h
      exact ⟨_, rfl, hle⟩
    | _ => cases h
  | all =>
    cases phase with
    | globalSleep wake' | bucketSleep wake' =>
      cases h
      exact ⟨_, rfl, le_rfl⟩
    | bucketSlot | ready =>
      cases h
      exact ⟨_, rfl, hle⟩
    | _ => cases h

namespace Client

theorem Asleep.put (h : c.Asleep scope u) (i : ℕ) (r : Request) (phase : Phase)
    (hnew : ∀ wake, Request.past c.now scope { r with phase := phase } = some wake → u ≤ wake) :
    (c.put i r phase).Asleep scope u := by
  intro r' hr'
  rcases List.mem_or_eq_of_mem_set hr' with hr' | rfl
  · exact h r' hr'
  · exact hnew

theorem Guarded.pass (h : c.Guarded scope u) (duration : ℕ) : Guarded { c with now := c.now + duration } scope u := by
  refine ⟨h.spent, fun r hr wake hwake => ?_⟩
  obtain ⟨wake', hpast, hle⟩ := Request.past_mono (Nat.le_add_right c.now duration) hwake
  exact le_trans (h.asleep r hr wake' hpast) hle

theorem Guarded.start (h : c.Guarded scope u) (kind : Kind) :
    Guarded { c with requests := c.requests ++ [⟨kind, 0, .slot⟩] } scope u := by
  refine ⟨h.spent, fun r hr => ?_⟩
  rcases List.mem_append.mp hr with hr | hr
  · exact h.asleep r hr
  · rw [List.mem_singleton.mp hr]
    cases scope with
    | bucket kind' => simp [Request.past]
    | all => nofun

end Client

def Phase.asksAgain : Phase → Bool
  | .slot | .inFlight | .limited _ | .backoff _ _ | .finished => true
  | _ => false

theorem Request.past_of_asksAgain (h : r.phase.asksAgain = true) (now : ℕ) (scope : Scope) :
    r.past now scope = none := by
  obtain ⟨kind, attempt, phase⟩ := r
  cases scope with
  | bucket kind' =>
    cases phase with
    | globalSleep _ | bucketSlot | bucketSleep _ | ready => cases h
    | _ => simp [Request.past]
  | all =>
    cases phase with
    | globalSleep _ | bucketSlot | bucketSleep _ | ready => cases h
    | _ => rfl

theorem asksAgain_retried (cfg : ClientConfig) (r : Request) (now : ℕ) (permit : Bool) :
    (r.retried cfg now permit).asksAgain = true := by
  rw [Request.retried]
  split_ifs <;> rfl

theorem Client.Asleep.ask (h : c.Asleep scope u) (i : ℕ) (r : Request) (phase : Phase)
    (hphase : phase.asksAgain = true) :
    (c.put i r phase).Asleep scope u := by
  apply h.put
  intro wake hwake
  rw [Request.past_of_asksAgain hphase] at hwake
  cases hwake

theorem Client.Guarded.asked (h : c.Guarded scope u) (hu : c.now < u) :
    ∃ wait, (c.limits.stateOf scope).waitDuration c.now = some wait ∧ u ≤ c.now + wait := by
  obtain ⟨reset, hreset, hle⟩ := h.spent
  cases hwait : (c.limits.stateOf scope).waitDuration c.now with
  | none =>
    have := BucketState.le_of_no_wait hwait hreset
    omega
  | some wait =>
    rw [BucketState.spentUntil_of_wait hwait] at hreset
    cases hreset
    exact ⟨wait, rfl, hle⟩

theorem spent_mark (h : ∃ reset, (c.limits.stateOf scope).spentUntil = some reset ∧ u ≤ reset) (hu : c.now < u)
    {kind : Kind} {wait : ℕ} (htight : (c.limits.stateOf (.bucket kind)).Tightens c.now (some 0)
      (some (c.now + wait))) :
    ∃ reset, ((c.limits.markRateLimited kind.bucketHash c.now wait).stateOf scope).spentUntil = some reset
      ∧ u ≤ reset := by
  obtain ⟨reset, hreset, hle⟩ := h
  cases scope with
  | all => exact ⟨reset, hreset, hle⟩
  | bucket kind' =>
    by_cases hkind : kind' = kind
    · subst hkind
      obtain ⟨-, _, ⟨⟩, hreset'⟩ := htight reset hreset (by omega)
      refine ⟨c.now + wait, ?_, by omega⟩
      simp [RateLimitManager.stateOf, RateLimitManager.markRateLimited, RateLimitManager.bucket,
        BucketState.markRateLimited, BucketState.spentUntil]
    · refine ⟨reset, ?_, hle⟩
      have hhash : kind'.bucketHash ≠ kind.bucketHash := fun h => hkind (Kind.bucketHash_inj h)
      rw [← hreset]
      simp [RateLimitManager.stateOf, RateLimitManager.markRateLimited, RateLimitManager.bucket, hhash]

theorem Client.Guarded.advance (h : c.Guarded scope u) (hu : c.now < u) (hr : c.requests[i]? = some r)
    (hcareful : Careful c (.advance i)) (hstep : advance cfg c i r = some c') : c'.Guarded scope u := by
  have hasleep := h.asleep r (List.mem_of_getElem? hr)
  obtain ⟨kind, attempt, phase⟩ := r
  cases phase with
  | slot =>
    cases hstep
    refine ⟨h.spent, h.asleep.put _ _ _ fun wake hwake => ?_⟩
    cases scope with
    | bucket kind' =>
      revert hwake
      cases c.limits.global.waitDuration c.now <;> simp [Request.past]
    | all =>
      obtain ⟨wait, hwait, hle⟩ := h.asked hu
      rw [RateLimitManager.stateOf] at hwait
      rw [hwait] at hwake
      cases hwake
      exact hle
  | globalSleep wake =>
    simp only [RateLimit.advance] at hstep
    split_ifs at hstep with hwoken
    cases hstep
    refine ⟨h.spent, h.asleep.put _ _ _ fun wake' hwake => ?_⟩
    cases scope with
    | bucket kind' => simp [Request.past] at hwake
    | all =>
      cases hwake
      exact le_trans (hasleep wake rfl) hwoken
  | bucketSlot =>
    cases hstep
    refine ⟨h.spent, h.asleep.put _ _ _ fun wake hwake => ?_⟩
    cases scope with
    | bucket kind' =>
      by_cases hkind : kind = kind'
      · subst hkind
        obtain ⟨wait, hwait, hle⟩ := h.asked hu
        rw [← RateLimitManager.bucketWait_eq] at hwait
        rw [hwait] at hwake
        simp only [Request.past, if_true, Option.some.injEq] at hwake
        omega
      · simp [Request.past, hkind] at hwake
    | all =>
      have := hasleep c.now rfl
      omega
  | bucketSleep wake =>
    simp only [RateLimit.advance] at hstep
    split_ifs at hstep with hwoken
    cases hstep
    refine ⟨h.spent, h.asleep.put _ _ _ fun wake' hwake => ?_⟩
    cases scope with
    | bucket kind' =>
      by_cases hkind : kind = kind'
      · subst hkind
        have := hasleep wake (by simp [Request.past])
        omega
      · simp [Request.past, hkind] at hwake
    | all =>
      have := hasleep wake rfl
      omega
  | ready =>
    simp only [RateLimit.advance] at hstep
    split_ifs at hstep
    cases hstep
    exact ⟨h.spent, h.asleep.ask i _ .inFlight rfl⟩
  | limited headers =>
    cases hstep
    obtain ⟨htight, -, -⟩ := hcareful _ headers hr rfl
    exact ⟨spent_mark h.spent hu htight, h.asleep.ask i _ _ (asksAgain_retried cfg _ _ _)⟩
  | backoff wake permit =>
    simp only [RateLimit.advance] at hstep
    split_ifs at hstep
    cases hstep
    exact ⟨h.spent, h.asleep.ask i _ .slot rfl⟩
  | inFlight | finished => cases hstep

theorem spent_update (h : ∃ reset, (c.limits.stateOf scope).spentUntil = some reset ∧ u ≤ reset) (hu : c.now < u)
    {kind : Kind} {headers : Headers} {nowUnix : ℕ}
    (htight : (c.limits.stateOf (if headers.global then .all else .bucket kind)).Tightens c.now headers.remaining
      ((headers.resetIn nowUnix).map (c.now + ·))) :
    ∃ reset, ((c.limits.updateRatelimit kind.bucketHash headers c.now nowUnix).stateOf scope).spentUntil = some reset
      ∧ u ≤ reset := by
  obtain ⟨reset, hreset, hle⟩ := h
  rw [RateLimitManager.updateRatelimit]
  by_cases hglobal : headers.global = true
  · rw [if_pos hglobal] at htight ⊢
    cases scope with
    | bucket kind' => exact ⟨reset, hreset, hle⟩
    | all =>
      obtain ⟨hremaining, reset', hreset', hle'⟩ := htight reset hreset (by omega)
      refine ⟨reset', ?_, le_trans hle hle'⟩
      simp [RateLimitManager.stateOf, BucketState.updateFromHeaders, BucketState.spentUntil, hremaining, hreset']
  · rw [if_neg hglobal] at htight ⊢
    cases scope with
    | all => exact ⟨reset, hreset, hle⟩
    | bucket kind' =>
      by_cases hkind : kind' = kind
      · subst hkind
        obtain ⟨hremaining, reset', hreset', hle'⟩ := htight reset hreset (by omega)
        refine ⟨reset', ?_, le_trans hle hle'⟩
        simp [RateLimitManager.stateOf, RateLimitManager.bucket, BucketState.updateFromHeaders, BucketState.spentUntil,
          hremaining, hreset']
      · refine ⟨reset, ?_, hle⟩
        have hhash : kind'.bucketHash ≠ kind.bucketHash := fun h => hkind (Kind.bucketHash_inj h)
        rw [← hreset]
        simp [RateLimitManager.stateOf, RateLimitManager.bucket, hhash]

theorem Client.Guarded.step {act : Act} (h : c.Guarded scope u) (hu : c.now < u) (hcareful : Careful c act)
    (hstep : step cfg c act = some c') : c'.Guarded scope u := by
  cases act with
  | pass duration =>
    cases hstep
    exact h.pass duration
  | start kind =>
    cases hstep
    exact h.start kind
  | advance i =>
    obtain ⟨r, hr, hadvance⟩ := Option.bind_eq_some_iff.mp hstep
    exact h.advance hu hr hcareful hadvance
  | lose i =>
    obtain ⟨r, hr, hlose⟩ := Option.bind_eq_some_iff.mp hstep
    split at hlose
    · cases hlose
      exact ⟨h.spent, h.asleep.ask i r _ (asksAgain_retried cfg r _ _)⟩
    · cases hlose
  | answer i status headers nowUnix =>
    obtain ⟨r, hr, hanswer⟩ := Option.bind_eq_some_iff.mp hstep
    split at hanswer
    · cases hanswer
      refine ⟨spent_update h.spent hu (hcareful r hr), h.asleep.ask i r _ ?_⟩
      split_ifs
      · rfl
      · exact asksAgain_retried cfg r _ _
      · rfl
    · cases hanswer

def Client.told (c : Client) (cfg : ClientConfig) (i : ℕ) (r : Request) (headers : Headers) : Client :=
  { c.put i r (r.retried cfg c.now false) with
    limits := c.limits.markRateLimited r.kind.bucketHash c.now headers.waits
    log := .limited r.kind c.now headers.waits headers.global :: c.log }

theorem step_cases {act : Act} (hstep : step cfg c act = some c') :
    (c.now ≤ c'.now ∧ c'.log = c.log)
    ∨ (∃ (i : ℕ) (r : Request), c.requests[i]? = some r ∧ r.phase = .ready ∧ c'.now = c.now
      ∧ c'.log = .sent r.kind c.now :: c.log)
    ∨ ∃ (i : ℕ) (r : Request) (headers : Headers), act = .advance i ∧ c.requests[i]? = some r
      ∧ r.phase = .limited headers
      ∧ c' = c.told cfg i r headers := by
  cases act with
  | pass duration =>
    cases hstep
    exact .inl ⟨Nat.le_add_right _ _, rfl⟩
  | start kind =>
    cases hstep
    exact .inl ⟨le_rfl, rfl⟩
  | advance i =>
    obtain ⟨r, hr, hadvance⟩ := Option.bind_eq_some_iff.mp hstep
    unfold advance at hadvance
    split at hadvance
    · cases hadvance
      exact .inl ⟨le_rfl, rfl⟩
    · split_ifs at hadvance
      cases hadvance
      exact .inl ⟨le_rfl, rfl⟩
    · cases hadvance
      exact .inl ⟨le_rfl, rfl⟩
    · split_ifs at hadvance
      cases hadvance
      exact .inl ⟨le_rfl, rfl⟩
    · rename_i hphase
      split_ifs at hadvance
      cases hadvance
      exact .inr (.inl ⟨i, r, hr, hphase, rfl, rfl⟩)
    · rename_i headers hphase
      cases hadvance
      exact .inr (.inr ⟨i, r, headers, rfl, hr, hphase, rfl⟩)
    · split_ifs at hadvance
      cases hadvance
      exact .inl ⟨le_rfl, rfl⟩
    · cases hadvance
    · cases hadvance
  | lose i =>
    obtain ⟨r, hr, hlose⟩ := Option.bind_eq_some_iff.mp hstep
    split at hlose
    · cases hlose
      exact .inl ⟨le_rfl, rfl⟩
    · cases hlose
  | answer i status headers nowUnix =>
    obtain ⟨r, hr, hanswer⟩ := Option.bind_eq_some_iff.mp hstep
    split at hanswer
    · cases hanswer
      exact .inl ⟨le_rfl, rfl⟩
    · cases hanswer

def Client.Keeps (c : Client) : Event → Prop
  | .sent _ _ => True
  | .limited kind time wait global => c.now < time + wait →
      c.Guarded (.bucket kind) (time + wait) ∧ (global = true → c.Guarded .all (time + wait))

theorem Client.Keeps.step {act : Act} {e : Event} (h : c.Keeps e) (hcareful : Careful c act)
    (hstep : step cfg c act = some c') (hnow : c.now ≤ c'.now) : c'.Keeps e := by
  cases e with
  | sent kind time => trivial
  | limited kind time wait global =>
    intro hlt
    have hu : c.now < time + wait := lt_of_le_of_lt hnow hlt
    obtain ⟨hbucket, hall⟩ := h hu
    exact ⟨hbucket.step hu hcareful hstep, fun hglobal => (hall hglobal).step hu hcareful hstep⟩

theorem keeps_told {headers : Headers} (hr : c.requests[i]? = some r) (hphase : r.phase = .limited headers)
    (hcareful : Careful c (.advance i)) :
    (c.told cfg i r headers).Keeps (.limited r.kind c.now headers.waits headers.global) := by
  obtain ⟨-, hasleep, hglobal⟩ := hcareful r headers hr hphase
  have hasks := asksAgain_retried cfg r c.now false
  intro _
  refine ⟨⟨⟨c.now + headers.waits, ?_, le_rfl⟩, hasleep.ask i r _ hasks⟩, fun hall => ?_⟩
  · simp [Client.told, RateLimitManager.stateOf, RateLimitManager.markRateLimited, RateLimitManager.bucket,
      BucketState.markRateLimited, BucketState.spentUntil]
  · exact ⟨(hglobal hall).2, (hglobal hall).1.ask i r _ hasks⟩

theorem heeds_of_ready (hr : c.requests[i]? = some r) (hphase : r.phase = .ready) {e : Event} (h : c.Keeps e) :
    Event.Heeds (.sent r.kind c.now) e := by
  obtain ⟨kind, attempt, phase⟩ := r
  cases hphase
  cases e with
  | sent kind' time => trivial
  | limited kind' time wait global =>
    intro habout
    by_contra hlt
    obtain ⟨hbucket, hall⟩ := h (not_le.mp hlt)
    rcases habout with hglobal | rfl
    · exact hlt ((hall hglobal).asleep _ (List.mem_of_getElem? hr) c.now rfl)
    · exact hlt (hbucket.asleep _ (List.mem_of_getElem? hr) c.now (if_pos rfl))

structure Client.Heedful (c : Client) : Prop where
  log : c.log.Pairwise Event.Heeds
  keeps : ∀ e ∈ c.log, c.Keeps e

theorem Client.Heedful.step {act : Act} (h : c.Heedful) (hcareful : Careful c act) (hstep : step cfg c act = some c') :
    c'.Heedful := by
  have hold : c.now ≤ c'.now → ∀ e ∈ c.log, c'.Keeps e := fun hnow e he => (h.keeps e he).step hcareful hstep hnow
  rcases step_cases hstep with ⟨hnow, hlog⟩ | ⟨i, r, hr, hphase, hnow, hlog⟩ | ⟨i, r, headers, rfl, hr, hphase, rfl⟩
  · constructor
    · rw [hlog]
      exact h.log
    · rw [hlog]
      exact hold hnow
  · constructor
    · rw [hlog]
      exact .cons (fun e he => heeds_of_ready hr hphase (h.keeps e he)) h.log
    · rw [hlog]
      exact List.forall_mem_cons.mpr ⟨trivial, hold (le_of_eq hnow.symm)⟩
  · constructor
    · exact .cons (fun e _ => trivial) h.log
    · exact List.forall_mem_cons.mpr ⟨keeps_told hr hphase hcareful, hold le_rfl⟩

theorem retry_after_respected (cfg : ClientConfig) (c : Client) (h : Reaches cfg Careful .new c) :
    c.log.Pairwise Event.Heeds := by
  have hheedful : c.Heedful :=
    h.keeps ⟨List.Pairwise.nil, nofun⟩ fun _ _ _ hc hcareful hact => hc.step hcareful hact
  exact hheedful.log

section sample

def fourAtOnce : ClientConfig := ⟨4, 5, fun attempt => second / 2 * 2 ^ attempt⟩

def tenSeconds (global : Bool) : Headers := ⟨none, none, none, global, some (10 * second)⟩

theorem upload_waits : ∃ c, Reaches fourAtOnce Careful .new c
    ∧ c.log = [.sent .upload (10 * second), .limited .upload 0 (10 * second) false, .sent .upload 0]
    ∧ c.log.Pairwise Event.Heeds := by
  have hreached : ∃ c, Reaches fourAtOnce Careful .new c
      ∧ c.log = [.sent .upload (10 * second), .limited .upload 0 (10 * second) false, .sent .upload 0] := by
    refine ⟨_, .head ⟨.start .upload, trivial, rfl⟩ <| .head ⟨.advance 0, ?_, rfl⟩ <| .head ⟨.advance 0, ?_, rfl⟩ <|
      .head ⟨.advance 0, ?_, rfl⟩ <| .head ⟨.answer 0 429 (tenSeconds false) 0, ?answered, rfl⟩ <|
      .head ⟨.advance 0, ?noted, rfl⟩ <| .head ⟨.start .upload, trivial, rfl⟩ <| .head ⟨.advance 1, ?_, rfl⟩ <|
      .head ⟨.advance 1, ?_, rfl⟩ <| .head ⟨.pass (10 * second), trivial, rfl⟩ <| .head ⟨.advance 1, ?_, rfl⟩ <|
      .single ⟨.advance 1, ?_, rfl⟩, rfl⟩
    case answered =>
      rintro r ⟨⟩ u ⟨⟩
    case noted =>
      rintro r headers ⟨⟩ ⟨⟩
      refine ⟨nofun, fun r hr wake hwake => ?_, nofun⟩
      rw [List.mem_singleton.mp hr] at hwake
      cases hwake
    all_goals
      rintro r headers ⟨⟩ ⟨⟩
  obtain ⟨c, hc, hlog⟩ := hreached
  exact ⟨c, hc, hlog, retry_after_respected fourAtOnce c hc⟩

def racing : List Act :=
  [.start .upload, .start .upload, .advance 0, .advance 0, .advance 0, .advance 1, .advance 1,
    .answer 0 429 (tenSeconds false) 0, .advance 0, .advance 1]

def unheard : List Act :=
  [.start .upload, .advance 0, .advance 0, .advance 0, .answer 0 429 (tenSeconds true) 0, .advance 0,
    .start .delete, .advance 1, .advance 1, .advance 1]

theorem not_heeds_early {kind : Kind} {global : Bool} (h : global = true ∨ Kind.upload = kind) {rest : List Event} :
    ¬(Event.sent kind 0 :: .limited .upload 0 (10 * second) global :: rest).Pairwise Event.Heeds := by
  intro hlog
  have hheeds : Event.Heeds (.sent kind 0) (.limited .upload 0 (10 * second) global) :=
    List.rel_of_pairwise_cons hlog List.mem_cons_self
  exact absurd (hheeds h) (by decide)

theorem retry_after_ignored :
    (∃ c, Reaches fourAtOnce (fun _ _ => True) .new c
      ∧ c.log = [.sent .upload 0, .limited .upload 0 (10 * second) false, .sent .upload 0]
      ∧ ¬c.log.Pairwise Event.Heeds)
    ∧ ∃ c, Reaches fourAtOnce (fun _ _ => True) .new c
      ∧ c.log = [.sent .delete 0, .limited .upload 0 (10 * second) true, .sent .upload 0]
      ∧ ¬c.log.Pairwise Event.Heeds := by
  -- In both runs a request is sent ten seconds too early.
  constructor
  · exact ⟨_, Steps.reaches_of_play racing rfl, rfl, not_heeds_early (.inr rfl)⟩
  · exact ⟨_, Steps.reaches_of_play unheard rfl, rfl, not_heeds_early (.inl rfl)⟩

end sample

end Dcfs.Discord.RateLimit
