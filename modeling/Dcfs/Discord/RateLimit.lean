import Dcfs.Library.Steps
import Dcfs.Library.Table
import Mathlib.Algebra.Ring.Nat

/-! The requests of one Discord client, side by side, and what it knows of its rate limits. -/

namespace Dcfs.Discord.RateLimit

open Tables

def second : ℕ := 10 ^ 9

structure BucketState where
  remaining : Option ℕ
  resetAt : Option ℕ
  global : Bool

namespace BucketState

def new : BucketState := ⟨none, none, false⟩

def updateFromHeaders (_ : BucketState) (remaining resetAt : Option ℕ) (global : Bool) : BucketState :=
  ⟨remaining, resetAt, global⟩

def markRateLimited (state : BucketState) (now retryAfter : ℕ) : BucketState :=
  { state with remaining := some 0, resetAt := some (now + retryAfter) }

def waitDuration (state : BucketState) (now : ℕ) : Option ℕ :=
  if 0 < state.remaining.getD 1 then none
  else match state.resetAt with
    | none => none
    | some resetAt => if resetAt ≤ now then none else some (resetAt - now)

end BucketState

inductive Kind
  | upload | fetch | download | delete
  deriving DecidableEq

def Kind.bucketHash : Kind → String
  | .upload => "webhook_upload"
  | .fetch => "webhook_fetch"
  | .download => "webhook_download"
  | .delete => "webhook_delete"

/-- The headers of an answer that parse, durations in nanoseconds and `x-ratelimit-reset` in whole seconds. -/
structure Headers where
  remaining : Option ℕ
  resetAfter : Option ℕ
  reset : Option ℕ
  global : Bool
  retryAfter : Option ℕ

def Headers.resetIn (headers : Headers) (nowUnix : ℕ) : Option ℕ :=
  headers.resetAfter.orElse fun _ => headers.reset.map fun resetUnix => (resetUnix - nowUnix) * second

def Headers.waits (headers : Headers) : ℕ := headers.retryAfter.getD second

structure RateLimitManager where
  buckets : Table String BucketState
  global : BucketState

namespace RateLimitManager

variable (limits : RateLimitManager)

def new : RateLimitManager := ⟨∅, .new⟩

def bucket (hash : String) : BucketState := (limits.buckets.lookup hash).getD .new

def updateRatelimit (hash : String) (headers : Headers) (now nowUnix : ℕ) : RateLimitManager :=
  let reset := (headers.resetIn nowUnix).map (now + ·)
  if headers.global then
    { limits with global := limits.global.updateFromHeaders headers.remaining reset true }
  else
    { limits with
      buckets := limits.buckets.insert hash ((limits.bucket hash).updateFromHeaders headers.remaining reset false) }

def markRateLimited (hash : String) (now retryAfter : ℕ) : RateLimitManager :=
  { limits with buckets := limits.buckets.insert hash ((limits.bucket hash).markRateLimited now retryAfter) }

def bucketWait (hash : String) (now : ℕ) : Option ℕ := (limits.buckets.lookup hash).bind (·.waitDuration now)

end RateLimitManager

/--
Where a request is in a round of its loop: it asks for the global limit and for that of its bucket, and sleeps if it
must, waits for a permit, is under way, has been told to come back, or waits for the next round with its permit
or without.
-/
inductive Phase
  | slot
  | globalSleep (wake : ℕ)
  | bucketSlot
  | bucketSleep (wake : ℕ)
  | ready
  | inFlight
  | limited (headers : Headers)
  | backoff (wake : ℕ) (permit : Bool)
  | finished

structure Request where
  kind : Kind
  attempt : ℕ
  phase : Phase

inductive Event
  | sent (kind : Kind) (time : ℕ)
  | limited (kind : Kind) (time wait : ℕ) (global : Bool)

structure ClientConfig where
  maxConcurrency : ℕ
  maxAttempts : ℕ
  backoffDuration : ℕ → ℕ

structure Client where
  now : ℕ
  limits : RateLimitManager
  requests : List Request
  log : List Event

def Client.new : Client := ⟨0, .new, [], []⟩

def Phase.holdsPermit : Phase → Bool
  | .inFlight | .limited _ => true
  | .backoff _ permit => permit
  | _ => false

def Client.inFlight (c : Client) : ℕ := c.requests.countP fun r => r.phase.holdsPermit

def Client.put (c : Client) (i : ℕ) (r : Request) (phase : Phase) : Client :=
  { c with requests := c.requests.set i { r with phase := phase } }

variable (cfg : ClientConfig)

def Request.retried (r : Request) (now : ℕ) (permit : Bool) : Phase :=
  if r.attempt < cfg.maxAttempts then .backoff (now + cfg.backoffDuration r.attempt) permit else .finished

def advance (c : Client) (i : ℕ) (r : Request) : Option Client :=
  match r.phase with
  | .slot => some (c.put i r (match c.limits.global.waitDuration c.now with
    | some wait => .globalSleep (c.now + wait)
    | none => .bucketSlot))
  | .globalSleep wake => if wake ≤ c.now then some (c.put i r .bucketSlot) else none
  | .bucketSlot => some (c.put i r (match c.limits.bucketWait r.kind.bucketHash c.now with
    | some wait => .bucketSleep (c.now + wait)
    | none => .ready))
  | .bucketSleep wake => if wake ≤ c.now then some (c.put i r .ready) else none
  | .ready =>
    if c.inFlight < max cfg.maxConcurrency 1 then
      some { c.put i r .inFlight with log := .sent r.kind c.now :: c.log }
    else none
  | .limited headers => some { c.put i r (r.retried cfg c.now false) with
      limits := c.limits.markRateLimited r.kind.bucketHash c.now headers.waits
      log := .limited r.kind c.now headers.waits headers.global :: c.log }
  | .backoff wake _ =>
    if wake ≤ c.now then some (c.put i { r with attempt := r.attempt + 1 } .slot) else none
  | .inFlight => none
  | .finished => none

def Client.answered (c : Client) (i : ℕ) (r : Request) (status : ℕ) (headers : Headers) (nowUnix : ℕ) : Client :=
  { c.put i r (if status = 429 then .limited headers else if 500 ≤ status then r.retried cfg c.now true
    else .finished) with
    limits := c.limits.updateRatelimit r.kind.bucketHash headers c.now nowUnix }

inductive Act
  | pass (duration : ℕ)
  | start (kind : Kind)
  | advance (i : ℕ)
  | lose (i : ℕ)
  | answer (i : ℕ) (status : ℕ) (headers : Headers) (nowUnix : ℕ)

def step (c : Client) : Act → Option Client
  | .pass duration => some { c with now := c.now + duration }
  | .start kind => some { c with requests := c.requests ++ [⟨kind, 0, .slot⟩] }
  | .advance i => c.requests[i]?.bind fun r => advance cfg c i r
  | .lose i => c.requests[i]?.bind fun r => match r.phase with
    | .inFlight => some (c.put i r (r.retried cfg c.now false))
    | _ => none
  | .answer i status headers nowUnix => c.requests[i]?.bind fun r => match r.phase with
    | .inFlight => some (c.answered cfg i r status headers nowUnix)
    | _ => none

def Reaches (allowed : Client → Act → Prop) : Client → Client → Prop := Steps.Reaches (step cfg) allowed

/-- A request is not sent before a wait that it falls under is over. -/
def Event.Heeds : Event → Event → Prop
  | .sent kind time, .limited kind' time' wait global => global = true ∨ kind' = kind → time' + wait ≤ time
  | _, _ => True

end Dcfs.Discord.RateLimit
