import RateLimiter.Redis.Server
import RateLimiter.Limiter.LocalFallback
import RateLimiter.Lib.Transition

/-!
# A fleet of service instances

Any number of instances evaluate requests against one Redis.  `evaluate` is cut at the points where
something else can happen in between: a call begins, each attempt to run the script ends in one way
or another, and when the attempts are used up the call recovers.  An attempt can end in four ways.

* `reply`: Redis runs the script and the instance gets what it returned, an error included;
* `lose`: Redis runs the script, but the instance sees an error, a timeout for example;
* `fail`: the instance sees an error and the script never runs;
* `abandon`: the instance sees an error while the request is still on its way.  Redis may run the
  script at any later time (`late`), for nobody.

Redis runs one script at a time and its clock does not run backwards.  Each instance has a clock of
its own and a local fallback limiter.
-/

set_option autoImplicit false

namespace RateLimiter

/-! ## What one run of a script consumes -/

/-- The counter in an entry. -/
def counterAt : Option Entry → ℤ
  | some ⟨.counter n, _⟩ => n
  | _ => 0

/-- The sorted set in an entry. -/
def membersAt : Option Entry → List (ℤ ×ₗ String)
  | some ⟨.zset ms, _⟩ => ms
  | _ => []

/-- The token bucket in an entry. -/
def bucketAt : Option Entry → Option (ℚ × ℤ)
  | some ⟨.hash tokens last, _⟩ => some (tokens, last)
  | _ => none

/-- What a run of the policy's script at `t` took from the quota: the increments of the window
counter, the members added to the log, the tokens taken from the bucket. -/
def unitsTaken (policy : PolicyBase) (key : String) (t : RedisTime) (before after : Keyspace) : ℚ :=
  match policy.algorithm with
  | .fixedWindow =>
    let k := counterKey key policy.windowMs t.ms
    counterAt (after k) - counterAt (before k)
  | .slidingWindowLog =>
    ((membersAt (after key)).filter fun m => m ∉ membersAt (before key)).length
  | .tokenBucket =>
    availableTokens policy.headerLimit policy.refillPerMs t (bucketAt (before key)) -
      availableTokens policy.headerLimit policy.refillPerMs t (bucketAt (after key))

/-! ## State -/

/-- The settings `evaluate` reads: how often it tries again, and what there is to fall back on. -/
structure Settings where
  redisRetryAttempts : ℤ
  enableLocalFallbackLimiter : Bool
  localFallbackStateTtlSeconds : ℤ

/-- `max(1, redis_retry_attempts + 1)`. -/
def Settings.maxAttempts (settings : Settings) : ℤ := max 1 (settings.redisRetryAttempts + 1)

/-- An `evaluate` call under way, or answered. The last two fields are there to state results, and
no step looks at them. -/
structure EvaluateCall (ι κ : Type) where
  /-- The instance it runs on. -/
  origin : κ
  /-- The policy `resolve_policy` found. -/
  policy : ι
  /-- Whose request it is. -/
  identity : RequestIdentity
  /-- How many attempts have raised a `RedisError`. -/
  failed : ℕ := 0
  /-- How many of their requests Redis may still run. -/
  onTheWay : ℕ := 0
  /-- Has the call returned? -/
  answered : Bool := false
  /-- How often Redis has run the script for this call. -/
  executed : ℕ := 0
  /-- What these runs took from the quota. -/
  taken : ℚ := 0

/-- Who decided, and what its clock said. The quota of Redis and that of each local limiter are
counted apart, by its own clock. -/
inductive Source (κ : Type) where
  /-- A script, at this `TIME`. -/
  | redis (ms : ℤ)
  /-- The local limiter of an instance. -/
  | localLimiter (origin : κ) (ms : ℤ)
  /-- Nobody: the degraded decision. -/
  | degraded
  deriving DecidableEq

/-- What an `evaluate` call returned, under which policy, and who decided. -/
structure Answer (ι κ : Type) where
  policy : ι
  decision : RateLimitDecision
  source : Source κ

/-- The state of the fleet: Redis, the local limiters of all instances and the calls. The clocks and
the members are kept to say which events can happen. -/
structure Fleet (ι κ : Type) where
  /-- The keys in Redis. -/
  redis : Keyspace
  /-- The last `TIME`. -/
  clock : ℤ
  /-- The members the sliding logs have been sent. -/
  members : List String
  /-- The local limiter of each instance. -/
  limiter : κ → LocalFallbackLimiter
  /-- The last reading of each instance's clock. -/
  localClock : κ → ℤ
  /-- The calls so far. -/
  calls : ℕ → Option (EvaluateCall ι κ)
  /-- The answers so far, oldest first. -/
  answers : List (Answer ι κ)

/-- The beginning: nothing stored anywhere, no calls, and all clocks at zero. -/
def Fleet.initial (ι κ : Type) : Fleet ι κ where
  redis := .empty
  clock := 0
  members := []
  limiter := fun _ => .empty
  localClock := fun _ => 0
  calls := fun _ => none
  answers := []

/-! ## Events -/

/-- What can happen next, on any instance and in any order. The number is the call's. -/
inductive Event (ι κ : Type) where
  /-- A call begins and resolves its policy. -/
  | begin (n : ℕ) (origin : κ) (policy : ι) (identity : RequestIdentity)
  /-- The script runs and the instance gets its reply. -/
  | reply (n : ℕ) (t : RedisTime) (member : String)
  /-- The script runs and its reply is lost. -/
  | lose (n : ℕ) (t : RedisTime) (member : String)
  /-- The attempt fails before the script runs. -/
  | fail (n : ℕ)
  /-- The attempt fails with the request on its way. -/
  | abandon (n : ℕ)
  /-- Redis runs the request of an abandoned attempt. -/
  | late (n : ℕ) (t : RedisTime) (member : String)
  /-- The attempts are used up; the instance's clock says `nowMs`. -/
  | recover (n : ℕ) (nowMs : ℤ)

variable {ι κ : Type}

namespace EvaluateCall

/-- The call is about to run the script: it has not returned, and there is an attempt left. -/
def Trying (settings : Settings) (c : EvaluateCall ι κ) : Prop :=
  c.answered = false ∧ c.failed < settings.maxAttempts

instance (settings : Settings) (c : EvaluateCall ι κ) : Decidable (c.Trying settings) :=
  inferInstanceAs (Decidable (_ ∧ _))

/-- The call is in `_recover_after_redis_failure`, since all its attempts have failed. -/
def Recovering (settings : Settings) (c : EvaluateCall ι κ) : Prop :=
  c.answered = false ∧ settings.maxAttempts ≤ c.failed

instance (settings : Settings) (c : EvaluateCall ι κ) : Decidable (c.Recovering settings) :=
  inferInstanceAs (Decidable (_ ∧ _))

/-- An attempt raised a `RedisError`. Whether its script has run or will run is not told by that. -/
def fail (c : EvaluateCall ι κ) : EvaluateCall ι κ := { c with failed := c.failed + 1 }

/-- The call has returned. -/
def answer (c : EvaluateCall ι κ) : EvaluateCall ι κ := { c with answered := true }

/-- Redis has run the script for this call, and the run has taken `units` from the quota. -/
def charge (units : ℚ) (c : EvaluateCall ι κ) : EvaluateCall ι κ :=
  { c with executed := c.executed + 1, taken := c.taken + units }

end EvaluateCall

namespace Fleet

variable (C : Catalog ι) (settings : Settings)

/-- Update the record of a call. -/
def put (f : Fleet ι κ) (n : ℕ) (c : EvaluateCall ι κ) : Fleet ι κ :=
  { f with calls := Function.update f.calls n (some c) }

@[simp] theorem put_calls (f : Fleet ι κ) (n : ℕ) (c : EvaluateCall ι κ) :
    (f.put n c).calls = Function.update f.calls n (some c) := rfl

/-- The request that runs the script for a call. -/
def request (c : EvaluateCall ι κ) (t : RedisTime) (member : String) : Request ι :=
  ⟨c.policy, c.identity, t, member⟩

/-- Redis can run the request now. Two things are asked of the environment: the clock of Redis does
not run backwards, and `uuid4` does not give a member that was sent before. -/
def Serves (f : Fleet ι κ) (r : Request ι) : Prop :=
  f.clock ≤ r.time.ms ∧ ∀ m ∈ r.logMember C, m ∉ f.members

instance (f : Fleet ι κ) (r : Request ι) : Decidable (f.Serves C r) :=
  inferInstanceAs (Decidable (_ ∧ ∀ m ∈ r.logMember C, m ∉ f.members))

/-- The fleet once Redis has run the request: its keys, its clock and the members sent so far have
changed, and nothing else. -/
def afterServing (f : Fleet ι κ) (r : Request ι) : Fleet ι κ :=
  { f with
    redis := (serve C .enforced f.redis r).2
    clock := r.time.ms
    members := (r.logMember C).toList ++ f.members }

/-- What the request took from the quota, measured on the keys that have not expired by then. -/
def unitsFor (f : Fleet ι κ) (r : Request ι) : ℚ :=
  unitsTaken (C.policy r.policy).toPolicyBase (r.key C) r.time
    (purge .enforced r.time.ms f.redis) (serve C .enforced f.redis r).2

/-- `_recover_after_redis_failure` on the instance of the call, with its answer recorded. -/
def recover [DecidableEq κ] (f : Fleet ι κ) (c : EvaluateCall ι κ) (nowMs : ℤ) : Fleet ι κ :=
  let policy := C.policy c.policy
  let f := { f with localClock := Function.update f.localClock c.origin nowMs }
  if settings.enableLocalFallbackLimiter then
    let out := (f.limiter c.origin).apply .enforced settings.localFallbackStateTtlSeconds policy
      c.identity nowMs
    { f with
      limiter := Function.update f.limiter c.origin out.2
      answers := f.answers ++ [⟨c.policy, out.1.degraded, .localLimiter c.origin nowMs⟩] }
  else
    { f with
      answers := f.answers ++
        [⟨c.policy, buildDegradedDecision policy.toPolicyBase (nowMs / 1000), .degraded⟩] }

/-- One event, or nothing if it cannot happen: a call tries only while it has attempts left, and no
clock is set back. -/
def step [DecidableEq κ] (f : Fleet ι κ) : Event ι κ → Option (Fleet ι κ)
  | .begin n origin policy identity =>
    if f.calls n = none ∧ policyMatches (C.policy policy).toPolicyBase identity then
      some (f.put n { origin, policy, identity })
    else none
  | .reply n t member => (f.calls n).bind fun c =>
    let r := request c t member
    if c.Trying settings ∧ f.Serves C r then
      let c := c.charge (f.unitsFor C r)
      match (serve C .enforced f.redis r).1 with
      | .ok result =>
        let f := (f.afterServing C r).put n c.answer
        some { f with
          answers := f.answers ++ [⟨c.policy, parseCommonDecision result, .redis t.ms⟩] }
      | .error _ => some ((f.afterServing C r).put n c.fail)
    else none
  | .lose n t member => (f.calls n).bind fun c =>
    let r := request c t member
    if c.Trying settings ∧ f.Serves C r then
      some ((f.afterServing C r).put n (c.charge (f.unitsFor C r)).fail)
    else none
  | .fail n => (f.calls n).bind fun c =>
    if c.Trying settings then some (f.put n c.fail) else none
  | .abandon n => (f.calls n).bind fun c =>
    if c.Trying settings then
      some (f.put n { c.fail with onTheWay := c.onTheWay + 1 })
    else none
  | .late n t member => (f.calls n).bind fun c =>
    let r := request c t member
    if 0 < c.onTheWay ∧ f.Serves C r then
      let c := c.charge (f.unitsFor C r)
      some ((f.afterServing C r).put n { c with onTheWay := c.onTheWay - 1 })
    else none
  | .recover n nowMs => (f.calls n).bind fun c =>
    if c.Recovering settings ∧ f.localClock c.origin ≤ nowMs then
      some ((f.recover C settings c nowMs).put n c.answer)
    else none

end Fleet

end RateLimiter
