import RateLimiter.Cache.Calls
import RateLimiter.Limiter.LocalFallback
import RateLimiter.Policy.Resolution
import RateLimiter.Service.Fleet

/-!
# One `evaluate` call

Here `evaluate` runs by itself, from the list of policies to the decision, and any of its Redis
calls may fail: `GET` and `SETEX` while it obtains the list, and each `EVAL`.  The first two are
caught where they happen.  The retry loop catches what `EVAL` raises and goes on to the next
attempt or, after the last, to `_recover_after_redis_failure`.

What the loop should come to is said without it, from the attempts alone: an attempt succeeds if
Redis has replied and the script could decide on the keys it has met, and the call returns what the
first attempt to succeed has decided (`FirstSuccess`).
-/

set_option autoImplicit false

namespace RateLimiter

/-- What `evaluate` can raise.  No Redis failure is among it: the cache operations and the retry
loop catch those, and what is left is a table that cannot be read. -/
inductive EvaluateError where
  /-- `list_policies` cannot read a row. -/
  | validation (error : ValidationError)
  /-- The loop has ended and `decision` has no value. -/
  | unboundLocal

/-- An attempt to run the script: how the `EVAL` ends, at what `TIME`, the `uuid4` drawn for it, and
what others have done to Redis by then. -/
structure Attempt where
  outcome : RedisOutcome
  time : RedisTime
  member : String
  meanwhile : Keyspace → Keyspace

/-- What an instance decides with: the Redis all instances share, and the limiter it falls back on
when the attempts there are used up. -/
structure Backend where
  /-- The keys in Redis. -/
  redis : Keyspace
  /-- The instance's `LocalFallbackLimiter`. -/
  limiter : LocalFallbackLimiter

section

variable (settings : Settings) (policy : PolicyRead) (identity : RequestIdentity)

/-- `_run_policy`; `none` if it raises a `RedisError`. What others have done to Redis meanwhile is
done first. -/
def tryRunPolicy (attempt : Attempt) (b : Backend) : Option RateLimitDecision × Backend :=
  let ks := attempt.meanwhile b.redis
  let out := runPolicy .enforced attempt.time policy identity attempt.member ks
  (if attempt.outcome = .replied then out.1.toOption else none,
    { b with redis := if attempt.outcome.executed then out.2 else ks })

/-- `_recover_after_redis_failure`, at a reading of the instance's clock: the local limiter decides
if it is enabled, else the failure mode does. -/
def recoverAfterRedisFailure (nowMs : ℤ) (b : Backend) : RateLimitDecision × Backend :=
  if settings.enableLocalFallbackLimiter then
    let out := b.limiter.apply .enforced settings.localFallbackStateTtlSeconds policy identity nowMs
    (out.1.degraded, { b with limiter := out.2 })
  else (buildDegradedDecision policy.toPolicyBase (nowMs / 1000), b)

/-- `for attempt in range(1, max_attempts + 1)`, from some attempt on. -/
def attemptLoop (attempts : ℕ → Attempt) (nowMs : ℤ) :
    List ℕ → Backend → Except EvaluateError RateLimitDecision × Backend
  | [], b => (.error .unboundLocal, b)
  | attempt :: rest, b =>
    match tryRunPolicy policy identity (attempts attempt) b with
    | (some decision, b) => (.ok decision, b)
    | (none, b) =>
      if attempt < settings.maxAttempts then attemptLoop attempts nowMs rest b
      else
        let out := recoverAfterRedisFailure settings policy identity nowMs b
        (.ok out.1, out.2)

end

/-- What the environment of a call decides: how its Redis calls end, and what the clocks say. -/
structure Environment where
  /-- How `GET` and `SETEX` end. -/
  cacheOp : CacheOp → RedisOutcome
  /-- How the attempts go; the first is number 1. -/
  attempts : ℕ → Attempt
  /-- The clock of the policy caches. -/
  now : ℚ
  /-- The clock of the local limiter. -/
  nowMs : ℤ

section

variable {κ : Type} [DecidableEq κ] (cacheSettings : CacheSettings) (settings : Settings) (i : κ)
  (env : Environment) (table : Table) (identity : RequestIdentity)

/-- The list that `list_active_policies_cached` returns, or what it raises. -/
def obtainedPolicies (c : Caches κ) : Except ValidationError (List PolicyRead) :=
  (listActivePoliciesCached cacheSettings i env.now env.cacheOp table c).2.outcome.get
    (listActivePoliciesCached_outcome cacheSettings i env.now env.cacheOp table c)

/-- `evaluate` on instance `i`: the policies from the caches, the best of them, its attempts one
after the other, and what is done when all have failed. -/
def RateLimiterService.evaluate (c : Caches κ) (b : Backend) :
    Except EvaluateError (Option RateLimitDecision × Option PolicyRead) × Caches κ × Backend :=
  let c' := (listActivePoliciesCached cacheSettings i env.now env.cacheOp table c).1
  match obtainedPolicies cacheSettings i env table c with
  | .error error => (.error (.validation error), c', b)
  | .ok policies =>
    match selectBestPolicy policies identity with
    | none => (.ok (none, none), c', b)
    | some policy =>
      let out := attemptLoop settings policy identity env.attempts env.nowMs
        (List.range' 1 settings.maxAttempts.toNat) b
      (out.1.map fun decision => (some decision, some policy), c', out.2)

end

/-! ## The parts -/

section

variable {κ : Type} [DecidableEq κ] {cacheSettings : CacheSettings} {i : κ} {now : ℚ}
  {out : CacheOp → RedisOutcome} {table : Table}

/-- A list call raises only what `list_policies` raises. -/
theorem ListCall.Effect.listPolicies_of_raised {c c' : Caches κ} {call call' : ListCall}
    {error : ValidationError} (h : ListCall.Effect cacheSettings i now out table c call c' call')
    (hcall : call = .raised error → RateLimiter.listPolicies true table = .error error)
    (hraised : call' = .raised error) : RateLimiter.listPolicies true table = .error error := by
  cases h with
  | raises hl =>
    cases hraised
    exact hl
  | @reads missed => cases missed <;> cases hraised
  | stays => exact hcall hraised
  | _ => cases hraised

theorem ListCall.outcome_get_ok {call : ListCall} (h : call.outcome.isSome = true)
    (hcall : ∀ error, call ≠ .raised error) : ∃ policies, call.outcome.get h = .ok policies := by
  cases call with
  | returned policies => exact ⟨policies, rfl⟩
  | raised error => exact absurd rfl (hcall error)
  | _ => cases h

theorem ListCall.raised_iterate {c : Caches κ} {error : ValidationError} {k : ℕ}
    (h : ((ListCall.next cacheSettings i now out table)^[k] (c, .get)).2 = .raised error) :
    RateLimiter.listPolicies true table = .error error := by
  induction k with
  | zero => cases h
  | succ k ih =>
    rw [Function.iterate_succ_apply'] at h
    exact (ListCall.step_effect _ _ _ _ _ _ _).listPolicies_of_raised ih h

theorem obtainedPolicies_ok (cacheSettings : CacheSettings) (i : κ) (env : Environment)
    (hlist : ∃ ps, listPolicies true table = .ok ps) (c : Caches κ) :
    ∃ policies, obtainedPolicies cacheSettings i env table c = .ok policies := by
  refine ListCall.outcome_get_ok _ fun error hraised => ?_
  obtain ⟨ps, hps⟩ := hlist
  rw [ListCall.raised_iterate (k := 4) hraised] at hps
  cases hps

end

section

variable {policy : PolicyRead} {identity : RequestIdentity} {attempt : Attempt} {b : Backend}

/-- The decision of a successful attempt is not degraded. -/
theorem degraded_of_runPolicy {x : Expiry} {t : RedisTime} {member : String} {ks : Keyspace}
    {decision : RateLimitDecision}
    (h : (runPolicy x t policy identity member ks).1.toOption = some decision) :
    decision.degraded = false := by
  rw [runPolicy] at h
  dsimp only at h
  cases hout : (eval x t (policyScript policy.toPolicyBase
      (buildRateLimitKey policy identity) member) ks).1 with
  | error e => simp [hout, Except.map, Except.toOption] at h
  | ok reply =>
    have h : parseCommonDecision reply = decision := by
      simpa [hout, Except.map, Except.toOption] using h
    rw [← h]
    rfl

end

section

variable (settings : Settings) (policy : PolicyRead) (identity : RequestIdentity) (nowMs : ℤ)

/-- **What a call returns when no attempt succeeds**: a degraded decision, the local limiter's if it
may be used, and else one that allows exactly if the policy fails open. -/
structure Recovered (limiter : LocalFallbackLimiter) (decision : RateLimitDecision) : Prop where
  degraded : decision.degraded = true
  fallback : settings.enableLocalFallbackLimiter = true → decision =
    (limiter.apply .enforced settings.localFallbackStateTtlSeconds policy identity nowMs).1.degraded
  failureMode : settings.enableLocalFallbackLimiter = false →
    (decision.allowed = true ↔ policy.failureMode = .failOpen)

variable {settings policy identity nowMs}

theorem recovered_of_recover (b : Backend) {limiter : LocalFallbackLimiter}
    (hlimiter : b.limiter = limiter) : Recovered settings policy identity nowMs limiter
      (recoverAfterRedisFailure settings policy identity nowMs b).1 := by
  rw [recoverAfterRedisFailure, ← hlimiter]
  by_cases h : settings.enableLocalFallbackLimiter = true
  · rw [if_pos h]
    exact ⟨rfl, fun _ => rfl, fun h' => by simp [h] at h'⟩
  · rw [if_neg h]
    refine ⟨?_, fun h' => absurd h' h, fun _ => ?_⟩ <;> rw [buildDegradedDecision] <;>
      cases policy.failureMode <;> simp

end

/-! ## Attempts -/

section

variable (policy : PolicyRead) (identity : RequestIdentity)

/-- What the script makes of the keys `ks` and of what others do to them before it runs, at the
`TIME` and with the member of the attempt. -/
def Attempt.script (a : Attempt) (ks : Keyspace) : Except RedisError RateLimitDecision × Keyspace :=
  runPolicy .enforced a.time policy identity a.member (a.meanwhile ks)

/-- What the service learns from an attempt that meets the keys `ks`: the script's decision, if the
script could decide and its reply has come back. -/
def Attempt.decision (a : Attempt) (ks : Keyspace) : Option RateLimitDecision :=
  if a.outcome = .replied then (a.script policy identity ks).1.toOption else none

/-- The keys after an attempt.  A script that was executed leaves what it leaves also when its reply
is lost. -/
def Attempt.leaves (a : Attempt) (ks : Keyspace) : Keyspace :=
  if a.outcome.executed then (a.script policy identity ks).2 else a.meanwhile ks

/-- The keys after some attempts, each of which meets what the ones before it have left. -/
def keysAfter (attempts : List Attempt) (ks : Keyspace) : Keyspace :=
  attempts.foldl (fun ks a => a.leaves policy identity ks) ks

/-- None of the attempts gives a decision, each on the keys it meets. -/
def AllFail : List Attempt → Keyspace → Prop
  | [], _ => True
  | a :: rest, ks =>
    a.decision policy identity ks = none ∧ AllFail rest (a.leaves policy identity ks)

/-- **Attempt `a` is the first to succeed.**  It comes right after `before` among those that are
possible; each of `before` has failed on the keys it has met, and on the keys they have left `a`
gives `decision`. -/
structure FirstSuccess (attempts : List Attempt) (ks : Keyspace) (before : List Attempt)
    (a : Attempt) (decision : RateLimitDecision) : Prop where
  made : before ++ [a] <+: attempts
  failed : AllFail policy identity before ks
  decision : a.decision policy identity (keysAfter policy identity before ks) = some decision

variable {policy identity} {a : Attempt} {attempts before rest : List Attempt} {ks : Keyspace}
  {decision : RateLimitDecision}

theorem tryRunPolicy_eq (policy : PolicyRead) (identity : RequestIdentity) (a : Attempt)
    (b : Backend) : tryRunPolicy policy identity a b =
      (a.decision policy identity b.redis, { b with redis := a.leaves policy identity b.redis }) :=
  rfl

/-- The local limiter has no part in a decision of Redis, so it is not degraded. -/
theorem Attempt.degraded_of_decision (h : a.decision policy identity ks = some decision) :
    decision.degraded = false := by
  rw [Attempt.decision] at h
  split at h
  · exact degraded_of_runPolicy h
  · cases h

theorem allFail_append : AllFail policy identity (before ++ rest) ks ↔
    AllFail policy identity before ks ∧
      AllFail policy identity rest (keysAfter policy identity before ks) := by
  induction before generalizing ks with
  | nil => simp [AllFail, keysAfter]
  | cons a before ih =>
    rw [List.cons_append, AllFail, AllFail, ih, and_assoc]
    rfl

/-- If an attempt succeeds then they do not all fail. -/
theorem FirstSuccess.not_allFail
    (h : FirstSuccess policy identity attempts ks before a decision) :
    ¬AllFail policy identity attempts ks := by
  obtain ⟨⟨rest, rfl⟩, -, hdecision⟩ := h
  intro hfail
  rw [List.append_assoc, allFail_append, List.singleton_append, AllFail, hdecision] at hfail
  cases hfail.2.1

theorem FirstSuccess.head (h : a.decision policy identity ks = some decision) :
    FirstSuccess policy identity (a :: rest) ks [] a decision :=
  ⟨⟨rest, rfl⟩, trivial, h⟩

theorem FirstSuccess.cons {a' : Attempt} (ha : a.decision policy identity ks = none)
    (h : FirstSuccess policy identity rest (a.leaves policy identity ks) before a' decision) :
    FirstSuccess policy identity (a :: rest) ks (a :: before) a' decision where
  made := List.cons_prefix_cons.2 ⟨rfl, h.made⟩
  failed := ⟨ha, h.failed⟩
  decision := h.decision

end

/-! ## The retry loop -/

section

variable {settings : Settings} {policy : PolicyRead} {identity : RequestIdentity} {nowMs : ℤ}

theorem recover_redis (b : Backend) :
    (recoverAfterRedisFailure settings policy identity nowMs b).2.redis = b.redis := by
  rw [recoverAfterRedisFailure]
  split <;> rfl

/-- How a call goes that may make the attempts `attempts` and finds the keys `ks`, by the attempts
it makes and by what it returns. -/
inductive Attempted (settings : Settings) (policy : PolicyRead) (identity : RequestIdentity)
    (nowMs : ℤ) (limiter : LocalFallbackLimiter) (attempts : List Attempt) (ks : Keyspace) :
    List Attempt → RateLimitDecision → Prop where
  /-- Attempt `a` is the first to succeed.  The call returns what it has decided, and makes no
  other. -/
  | succeeded {before : List Attempt} {a : Attempt} {decision : RateLimitDecision}
      (hfirst : FirstSuccess policy identity attempts ks before a decision)
      (hdegraded : decision.degraded = false) :
      Attempted settings policy identity nowMs limiter attempts ks (before ++ [a]) decision
  /-- The call has made every attempt, and all have failed. -/
  | exhausted {decision : RateLimitDecision} (hfailed : AllFail policy identity attempts ks)
      (hrecovered : Recovered settings policy identity nowMs limiter decision) :
      Attempted settings policy identity nowMs limiter attempts ks attempts decision

variable {limiter : LocalFallbackLimiter} {a : Attempt} {attempts made : List Attempt}
  {ks : Keyspace} {decision : RateLimitDecision}

theorem Attempted.cons (ha : a.decision policy identity ks = none)
    (h : Attempted settings policy identity nowMs limiter attempts (a.leaves policy identity ks)
      made decision) :
    Attempted settings policy identity nowMs limiter (a :: attempts) ks (a :: made) decision := by
  cases h with
  | succeeded hfirst hdegraded => exact .succeeded (hfirst.cons ha) hdegraded
  | exhausted hfailed hrecovered => exact .exhausted ⟨ha, hfailed⟩ hrecovered

theorem Attempted.made_prefix
    (h : Attempted settings policy identity nowMs limiter attempts ks made decision) :
    made <+: attempts := by
  cases h with
  | succeeded hfirst => exact hfirst.made
  | exhausted => exact List.prefix_rfl

/-- Whether a decision is degraded tells how the attempts have gone. -/
theorem Attempted.degraded_iff
    (h : Attempted settings policy identity nowMs limiter attempts ks made decision) :
    decision.degraded = true ↔ AllFail policy identity attempts ks := by
  cases h with
  | succeeded hfirst hdegraded => simp [hdegraded, hfirst.not_allFail]
  | exhausted hfailed hrecovered => simp [hfailed, hrecovered.degraded]

/-- The loop from attempt `attempt` on, of which there are `n + 1`. -/
theorem attemptLoop_attempted (policy : PolicyRead) (identity : RequestIdentity)
    (attempts : ℕ → Attempt) (nowMs : ℤ) {n : ℕ} (attempt : ℕ)
    (hmax : (attempt : ℤ) + n = settings.maxAttempts) (b : Backend) :
    ∃ decision made out,
      attemptLoop settings policy identity attempts nowMs (List.range' attempt (n + 1)) b =
        (.ok decision, out) ∧ out.redis = keysAfter policy identity made b.redis ∧
      Attempted settings policy identity nowMs b.limiter
        ((List.range' attempt (n + 1)).map attempts) b.redis made decision := by
  induction n generalizing attempt b with
  | zero =>
    have hlast : ¬(attempt : ℤ) < settings.maxAttempts := by omega
    rw [show List.range' attempt 1 = [attempt] from rfl, List.map_singleton, attemptLoop,
      tryRunPolicy_eq]
    cases htried : (attempts attempt).decision policy identity b.redis with
    | none =>
      dsimp only
      rw [if_neg hlast]
      exact ⟨_, [attempts attempt], _, rfl, recover_redis _,
        .exhausted ⟨htried, trivial⟩ (recovered_of_recover _ rfl)⟩
    | some decision =>
      exact ⟨decision, [attempts attempt], _, rfl, rfl,
        .succeeded (.head htried) (Attempt.degraded_of_decision htried)⟩
  | succ n ih =>
    have hnext : (attempt : ℤ) < settings.maxAttempts := by omega
    rw [List.range'_succ, List.map_cons, attemptLoop, tryRunPolicy_eq]
    cases htried : (attempts attempt).decision policy identity b.redis with
    | none =>
      dsimp only
      rw [if_pos hnext]
      obtain ⟨decision, made, out, hrun, hredis, hmade⟩ := ih (attempt + 1) (by omega)
        { b with redis := (attempts attempt).leaves policy identity b.redis }
      exact ⟨decision, attempts attempt :: made, out, hrun, hredis, hmade.cons htried⟩
    | some decision =>
      exact ⟨decision, [attempts attempt], _, rfl, rfl,
        .succeeded (.head htried) (Attempt.degraded_of_decision htried)⟩

end

/-! ## The call -/

theorem selectBestPolicy_none_iff {policies : List PolicyRead} {identity : RequestIdentity} :
    selectBestPolicy policies identity = none ↔ ∀ p ∈ policies, p.active = true →
      policyMatches p.toPolicyBase identity = false := by
  simp [selectBestPolicy, List.argmax_eq_none, List.filter_eq_nil_iff]

/-- The attempts a call can make, in their order. -/
def Environment.possibleAttempts (settings : Settings) (env : Environment) : List Attempt :=
  (List.range' 1 settings.maxAttempts.toNat).map env.attempts

section

variable {κ : Type} [DecidableEq κ] (cacheSettings : CacheSettings) (settings : Settings) (i : κ)
  (env : Environment) {table : Table} (identity : RequestIdentity)

/-- **Every pattern of Redis failures ends in the documented decision.**  As long as the policies in
the database can be read, `evaluate` raises nothing.  It returns `(None, None)` exactly when no
active policy of the list it obtains matches, and then Redis and the local limiter are as they were.
Otherwise it makes its attempts in their order until one succeeds: at most
`max(1, redis_retry_attempts + 1)` scripts are executed, Redis is as they leave it, and the call
returns what the first attempt to succeed has decided or, exactly if all of them fail, a degraded
decision. -/
theorem evaluate_documented (hlist : ∃ ps, listPolicies true table = .ok ps) (c : Caches κ)
    (b : Backend) :
    ∃ policies result caches out,
      obtainedPolicies cacheSettings i env table c = .ok policies ∧
      RateLimiterService.evaluate cacheSettings settings i env table identity c b =
        (.ok result, caches, out) ∧
      (result = (none, none) ↔ ∀ p ∈ policies, p.active = true →
        policyMatches p.toPolicyBase identity = false) ∧
      (result = (none, none) → out = b) ∧
      (result ≠ (none, none) → ∃ policy decision made,
        selectBestPolicy policies identity = some policy ∧
        result = (some decision, some policy) ∧
        out.redis = keysAfter policy identity made b.redis ∧
        ((made.filter fun a => a.outcome.executed).length : ℤ) ≤
          max 1 (settings.redisRetryAttempts + 1) ∧
        (decision.degraded = true ↔
          AllFail policy identity (env.possibleAttempts settings) b.redis) ∧
        Attempted settings policy identity env.nowMs b.limiter (env.possibleAttempts settings)
          b.redis made decision) := by
  obtain ⟨policies, hpolicies⟩ := obtainedPolicies_ok cacheSettings i env hlist c
  have hone : 1 ≤ settings.maxAttempts := le_max_left _ _
  set caches := (listActivePoliciesCached cacheSettings i env.now env.cacheOp table c).1
  simp only [← selectBestPolicy_none_iff]
  cases hselect : selectBestPolicy policies identity with
  | none =>
    refine ⟨policies, (none, none), caches, b, hpolicies, ?_, by simp [hselect], fun _ => rfl,
      by simp⟩
    rw [RateLimiterService.evaluate, hpolicies]
    simp only [hselect]
    rfl
  | some policy =>
    -- The loop makes `n + 1` attempts, the first being number 1.
    obtain ⟨n, hn⟩ : ∃ n : ℕ, settings.maxAttempts.toNat = n + 1 :=
      ⟨settings.maxAttempts.toNat - 1, by omega⟩
    have hmax : ((1 : ℕ) : ℤ) + n = settings.maxAttempts := by omega
    obtain ⟨decision, made, out, hrun, hredis, hmade⟩ :=
      attemptLoop_attempted policy identity env.attempts env.nowMs 1 hmax b
    rw [← hn] at hrun hmade
    have hmany : (made.filter fun a => a.outcome.executed).length ≤ settings.maxAttempts.toNat :=
      calc (made.filter fun a => a.outcome.executed).length
        _ ≤ made.length := List.length_filter_le _ _
        _ ≤ (env.possibleAttempts settings).length := hmade.made_prefix.length_le
        _ = settings.maxAttempts.toNat := by simp [Environment.possibleAttempts]
    refine ⟨policies, (some decision, some policy), caches, out, hpolicies, ?_, by simp [hselect],
      by simp, fun _ => ⟨policy, decision, made, hselect, rfl, hredis, ?_, hmade.degraded_iff,
        hmade⟩⟩
    · rw [RateLimiterService.evaluate, hpolicies]
      simp only [hselect, hrun, Except.map]
      rfl
    · rw [← Settings.maxAttempts]
      omega

end

/-- Redis answers nothing, be it asked for the policies or to run a script. -/
def Environment.outage : Environment where
  cacheOp := fun _ => .failed
  attempts := fun _ => ⟨.failed, .atSecond 0, "", id⟩
  now := 0
  nowMs := 0

/-- The first script is executed but its reply is lost; the second replies. -/
def Environment.lostReply : Environment where
  cacheOp := fun _ => .failed
  attempts := fun
    | 1 => ⟨.lost, .atSecond 21, "first", id⟩
    | _ => ⟨.replied, .atSecond 22, "second", id⟩
  now := 0
  nowMs := 0

/-- A bucket of two tokens, of which the lost attempt takes one and the next attempt the other. -/
theorem evaluate_documented_sample :
    ∃ decision policy caches out before a,
      RateLimiterService.evaluate ⟨30, 30, true⟩ ⟨2, false, 60⟩ () .lostReply .sample .sample
        (Caches.empty Unit) ⟨.empty, .empty⟩ = (.ok (some decision, some policy), caches, out) ∧
      decision.allowed = true ∧ decision.remaining = 0 ∧ decision.degraded = false ∧
      FirstSuccess policy .sample (Environment.lostReply.possibleAttempts ⟨2, false, 60⟩) .empty
        before a decision ∧
      out.redis = keysAfter policy .sample (before ++ [a]) .empty := by
  have hdecision : ((RateLimiterService.evaluate ⟨30, 30, true⟩ ⟨2, false, 60⟩ () .lostReply
      .sample .sample (Caches.empty Unit) ⟨.empty, .empty⟩).1.toOption.bind Prod.fst).map
        (fun d => (d.allowed, d.remaining, d.degraded)) = some (true, 0, false) := by
    decide +kernel
  obtain ⟨_, result, caches, out, -, hresult, -, -, hdecided⟩ :=
    evaluate_documented ⟨30, 30, true⟩ ⟨2, false, 60⟩ () .lostReply .sample
      (Table.sample_valid.listPolicies true) (Caches.empty Unit) ⟨.empty, .empty⟩
  rw [hresult] at hdecision
  obtain ⟨policy, decision, made, -, rfl, hredis, -, -, hmade⟩ := hdecided fun h => by
    rw [h] at hdecision
    cases hdecision
  obtain ⟨hallowed, hremaining, hdegraded⟩ : decision.allowed = true ∧ decision.remaining = 0 ∧
      decision.degraded = false := by simpa [Except.toOption] using hdecision
  cases hmade with
  | @succeeded before a _ hfirst =>
    exact ⟨decision, policy, caches, out, before, a, hresult, hallowed, hremaining, hdegraded,
      hfirst, hredis⟩
  | exhausted _ hrecovered =>
    rw [hrecovered.degraded] at hdegraded
    cases hdegraded

end RateLimiter
