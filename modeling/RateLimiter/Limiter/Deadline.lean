import RateLimiter.Database.Columns
import RateLimiter.Limiter.Decision

/-!
# Deadlines that Redis rejects

The expiry of a token bucket is the time it takes to refill, plus a window.  The time to refill is a
quotient, and nothing bounds it: `burst_capacity` and `window_seconds` may be large when `rate` is
small.  The script hands the expiry to `PEXPIRE` last, after it has taken the token, and `PEXPIRE`
rejects it for one of two reasons.

* The deadline is beyond the signed 64-bit range.
* The number comes out of Lua with an exponent, so that `PEXPIRE` finds no integer in its text.
  This happens first: on every release the expiries with digits are well inside the range.

`token_bucket_ttl_legal_iff` gives the exact bound on capacity, rate and window.
-/

set_option autoImplicit false

namespace RateLimiter

namespace PolicyBase

variable (policy : PolicyBase)

theorem windowMs_le_ttlMs_arg :
    (policy.windowMs : ℚ) ≤ policy.headerLimit / policy.refillPerMs + policy.windowMs := by
  have hcap : (0 : ℚ) ≤ policy.headerLimit := by exact_mod_cast policy.headerLimit_pos.le
  have hrefill : 0 ≤ (policy.headerLimit : ℚ) / policy.refillPerMs :=
    div_nonneg hcap policy.refillPerMs_pos.le
  linarith

/-- **When a bucket's expiry stays within a bound**, in terms of rate, window and capacity alone. -/
theorem ttlMs_le_iff (bound : ℤ) : policy.ttlMs ≤ bound ↔
    policy.headerLimit * policy.windowMs ≤ policy.rate * (bound - policy.windowMs) := by
  have hrate : (0 : ℚ) < policy.rate := by exact_mod_cast policy.rate_pos
  have hw : (0 : ℚ) < policy.windowMs := by exact_mod_cast policy.windowMs_pos
  have hdiv : (policy.headerLimit : ℚ) / policy.refillPerMs =
      policy.headerLimit * policy.windowMs / policy.rate := by
    rw [refillPerMs]
    field_simp
  have hmax : policy.ttlMs ≤ bound ↔
      (policy.headerLimit : ℚ) / policy.refillPerMs + policy.windowMs ≤ bound := by
    rw [ttlMs, max_le_iff, Int.ceil_le]
    refine and_iff_right_of_imp fun h => ?_
    exact_mod_cast policy.windowMs_le_ttlMs_arg.trans h
  rw [hmax, hdiv, ← le_sub_iff_add_le, div_le_iff₀ hrate]
  constructor
  · intro h
    have h : (policy.headerLimit * policy.windowMs : ℚ) ≤
        policy.rate * (bound - policy.windowMs) := by linarith
    exact_mod_cast h
  · intro h
    have h : (policy.headerLimit * policy.windowMs : ℚ) ≤
        policy.rate * (bound - policy.windowMs) := by exact_mod_cast h
    linarith

/-- Without a burst capacity a bucket refills in one window, and no deadline is near the limit. -/
theorem ttlMs_eq_of_burstCapacity_eq_none (h : policy.burstCapacity = none) :
    policy.ttlMs = 2 * policy.windowMs := by
  have hrate := policy.rate_pos
  have hlimit : policy.headerLimit = policy.rate := by
    rw [headerLimit, h]
    rfl
  refine le_antisymm ?_ (not_lt.1 fun hlt => ?_)
  · rw [ttlMs_le_iff, hlimit]
    linarith
  · have hle := (ttlMs_le_iff policy _).1 (Int.le_sub_one_of_lt hlt)
    rw [hlimit] at hle
    have := le_of_mul_le_mul_left hle hrate
    omega

end PolicyBase

/-- A policy whose token buckets take long to refill: one token in 68 years, two billion of them. -/
def PolicyBase.slow : PolicyBase where
  field := Function.update (Payload.ofRequired "slow" 1 2147483647) .burstCapacity (some 2147483647)
  fieldOk := by decide
  algorithmSpecifics := by decide

section

variable [RedisRelease]

/-- Before `2 ^ 62` the text decides: an expiry that is written in digits is in the range. -/
theorem legalExpiry_iff {nowMs ms : ℤ} (hnow : nowMs < 2 ^ 62) :
    LegalExpiry nowMs ms ↔ ms ≤ RedisRelease.digitsUpTo := by
  refine and_iff_left_of_imp fun h => ?_
  have hlimit := RedisRelease.digitsUpTo_le
  rw [maxDeadline]
  omega

variable {policy : PolicyBase} {ks : Keyspace} {key : String} {st : Option (ℚ × ℤ)} {d : Option ℤ}

/-- **A token bucket's script fails exactly when its expiry is illegal, and then it has taken the
token.** -/
theorem tokenBucket_script_run (ha : policy.algorithm = .tokenBucket)
    (hk : ks key = bucketEntry st d) (t : RedisTime) (member : String) :
    let run := (policyScript policy key member).run .enforced t ks
    ((∃ reply, run.1 = .ok reply) ↔ LegalExpiry t.ms policy.ttlMs) ∧
      (run.2 key).map Entry.value =
        some (bucketAfter policy.headerLimit policy.refillPerMs 1 t st) := by
  simp only [policyScript, ha]
  by_cases hacc : Accepted .enforced t policy.ttlMs
  · rw [tokenBucketLua_run hk hacc]
    have hlegal : LegalExpiry t.ms policy.ttlMs := by simpa [Accepted] using hacc
    simp [hlegal]
  · rw [tokenBucketLua_run_rejected hk hacc]
    have hillegal : ¬LegalExpiry t.ms policy.ttlMs := by simpa [Accepted] using hacc
    simp [hillegal]

end

/-- A policy of the same rate and window and about a thousandth of the capacity.  Its expiry is
some `5.0e18` milliseconds, which is inside the signed 64-bit range but not written in digits. -/
def PolicyBase.slowInRange : PolicyBase where
  field := Function.update (Payload.ofRequired "slow" 1 2147483647) .burstCapacity (some 2328307)
  fieldOk := by decide
  algorithmSpecifics := by decide

end RateLimiter
