import RateLimiter.Redis.Scripts
import RateLimiter.Lib.Quota.Bucket

/-!
# Decisions

What `RateLimiterService` computes around the scripts: the arguments `_run_policy` passes,
`_parse_common_decision` on the way back and `_build_degraded_decision` when there is no way back.
-/

set_option autoImplicit false

namespace RateLimiter

open Quota (Verdict)

/-- `RateLimitDecision`. The flags tell that Redis was given up, and that the local limiter was
asked instead. -/
structure RateLimitDecision where
  allowed : Bool
  limit : ℤ
  remaining : ℤ
  resetAtEpochSeconds : ℤ
  retryAfterSeconds : ℤ
  degraded : Bool := false
  localFallback : Bool := false
  deriving DecidableEq, Repr

/-- `math.ceil(ms / 1000)`, the quotient being taken as an exact fraction. -/
def ceilSeconds (ms : ℤ) : ℤ := ⌈(ms : ℚ) / 1000⌉

/-- `_parse_common_decision`: milliseconds become seconds, rounded up, and an allowed request has
nothing to wait for. -/
def parseCommonDecision (result : Reply) : RateLimitDecision :=
  let allowed : Bool := result.allowed != 0
  { allowed := allowed
    limit := result.limit
    remaining := result.remaining
    resetAtEpochSeconds := ceilSeconds result.resetAtMs
    retryAfterSeconds := if allowed then 0 else ceilSeconds result.retryMs }

/-- `_build_degraded_decision` at the epoch second `nowEpoch`: everything is let through, or
nothing, as the policy's failure mode has it. -/
def buildDegradedDecision (policy : PolicyBase) (nowEpoch : ℤ) : RateLimitDecision :=
  match policy.failureMode with
  | .failOpen =>
    { allowed := true
      limit := policy.headerLimit
      remaining := policy.headerLimit
      resetAtEpochSeconds := nowEpoch + policy.windowSeconds
      retryAfterSeconds := 0
      degraded := true }
  | .failClosed =>
    { allowed := false
      limit := policy.headerLimit
      remaining := 0
      resetAtEpochSeconds := nowEpoch + 1
      retryAfterSeconds := 1
      degraded := true }

/-! ## The arguments of the scripts -/

namespace PolicyBase

variable (policy : PolicyBase)

/-- `window_seconds * 1000`. -/
def windowMs : ℤ := policy.windowSeconds * 1000

/-- `rate / window_ms`: the tokens that come in each millisecond, as an exact fraction. -/
def refillPerMs : ℚ := policy.rate / policy.windowMs

/-- `int(max(window_ms, math.ceil((capacity / refill_per_ms) + window_ms)))`. -/
def ttlMs : ℤ :=
  max policy.windowMs ⌈(policy.headerLimit : ℚ) / policy.refillPerMs + policy.windowMs⌉

/-- What the policy's script passes to `PEXPIRE`: a second more than the window, or for a bucket the
time it takes to refill and a window. -/
def expiryMs : ℤ :=
  match policy.algorithm with
  | .fixedWindow | .slidingWindowLog => policy.windowMs + 1000
  | .tokenBucket => policy.ttlMs

theorem windowMs_pos : 0 < policy.windowMs :=
  Int.mul_pos policy.windowSeconds_pos (by decide)

theorem refillPerMs_pos : 0 < policy.refillPerMs :=
  div_pos (by exact_mod_cast policy.rate_pos) (by exact_mod_cast policy.windowMs_pos)

/-- The bucket has refilled before it expires. -/
theorem refill_le_ttlMs : (policy.headerLimit : ℚ) / policy.refillPerMs ≤ policy.ttlMs := by
  have hw : (0 : ℚ) < policy.windowMs := by exact_mod_cast policy.windowMs_pos
  calc (policy.headerLimit : ℚ) / policy.refillPerMs
      ≤ (policy.headerLimit : ℚ) / policy.refillPerMs + policy.windowMs := by linarith
    _ ≤ ⌈(policy.headerLimit : ℚ) / policy.refillPerMs + policy.windowMs⌉ := Int.le_ceil _
    _ ≤ policy.ttlMs := by exact_mod_cast le_max_right _ _

end PolicyBase

/-- The script `_run_policy` sends for `policy`, on the key `key`.  `member` stands for the
`uuid.uuid4().hex` it draws for a sliding log. -/
def policyScript [RedisRelease] (policy : PolicyBase) (key member : String) : Script Reply :=
  match policy.algorithm with
  | .fixedWindow => fixedWindowLua key policy.rate policy.windowMs
  | .slidingWindowLog => slidingWindowLogLua key policy.rate policy.windowMs member
  | .tokenBucket => tokenBucketLua key policy.headerLimit policy.refillPerMs 1 policy.ttlMs

/-- `_run_policy` against a Redis with keyspace `ks` at time `t`: the script of the policy under the
policy's key, and its reply as a decision. -/
def runPolicy (x : Expiry) (t : RedisTime) (policy : PolicyRead) (identity : RequestIdentity)
    (member : String) (ks : Keyspace) : Except RedisError RateLimitDecision × Keyspace :=
  let out := eval x t
    (policyScript policy.toPolicyBase (buildRateLimitKey policy identity) member) ks
  (out.1.map parseCommonDecision, out.2)

/-! ## Decisions from verdicts -/

/-- What a limiter of quota `limit` answers when its rule says `v`. -/
def decisionOf (limit : ℤ) (v : Verdict) : RateLimitDecision where
  allowed := v.allowed
  limit := limit
  remaining := v.remaining
  resetAtEpochSeconds := ceilSeconds v.resetAt
  retryAfterSeconds := if v.allowed then 0 else ceilSeconds v.retryAfter

/-- The verdict in a reply: what an ideal rule would have said, in milliseconds. -/
def Reply.verdict (r : Reply) : Verdict := ⟨r.allowed != 0, r.remaining, r.resetAtMs, r.retryMs⟩

theorem parseCommonDecision_eq (r : Reply) :
    parseCommonDecision r = decisionOf r.limit r.verdict := rfl

end RateLimiter
