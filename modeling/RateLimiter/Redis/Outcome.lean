import RateLimiter.Redis.Refinement

/-!
# When a script is answered

A script fails only when it sets a deadline that Redis does not accept.  Whether it sets one depends
on what the ideal limiter remembers: the fixed window does so on the first request of a window, the
sliding log on every admission and the token bucket on every request.  So the ideal limiter also
determines which requests are answered (`Represents.outcome`), and with the verdicts it determines
all that a client can see (`eval_outcome`).
-/

set_option autoImplicit false

namespace RateLimiter

open Quota

/-- The script of the policy reaches its `PEXPIRE`: a counter only when it is new, a log only for an
admitted request, a bucket always. -/
def Ideal.SetsDeadline (policy : PolicyBase) (s : Ideal) (t : ℤ) : Prop :=
  match policy.algorithm with
  | .fixedWindow => FixedWindow.used policy.windowMs s.admitted t = 0
  | .slidingWindowLog => (s.verdict policy t).allowed = true
  | .tokenBucket => True

instance (policy : PolicyBase) (s : Ideal) (t : ℤ) : Decidable (s.SetsDeadline policy t) :=
  match ha : policy.algorithm with
  | .fixedWindow =>
    decidable_of_iff (FixedWindow.used policy.windowMs s.admitted t = 0)
      (by simp only [Ideal.SetsDeadline, ha])
  | .slidingWindowLog =>
    decidable_of_iff ((s.verdict policy t).allowed = true) (by simp only [Ideal.SetsDeadline, ha])
  | .tokenBucket => .isTrue (by simp only [Ideal.SetsDeadline, ha])

instance (x : Expiry) (t : RedisTime) (ms : ℤ) : Decidable (Accepted x t ms) :=
  inferInstanceAs (Decidable (_ ∨ _))

/-- What a client sees of an evaluation: the verdict, unless the script failed. -/
def observe : Except RedisError Reply → Option Verdict
  | .ok r => some r.verdict
  | .error _ => none

/-- What a client of the ideal limiter sees, behind a Redis that may refuse deadlines. -/
def Ideal.outcome (x : Expiry) (policy : PolicyBase) (s : Ideal) (t : RedisTime) : Option Verdict :=
  if s.SetsDeadline policy t.ms → Accepted x t policy.expiryMs then some (s.verdict policy t.ms)
  else none

variable {x : Expiry} {t : RedisTime} {ks : Keyspace} {key member : String} {members : List String}
  {policy : PolicyBase} {s : Ideal} {now : ℤ}

section Answered

variable {out : Except RedisError Reply × Keyspace}

/-- The script is answered exactly if it sets no deadline or an accepted one. -/
def AnsweredIf (p : Prop) (out : Except RedisError Reply × Keyspace) : Prop :=
  (∃ r, out.1 = .ok r) ↔ p

theorem AnsweredIf.of_ok {p : Prop} {r : Reply} {ks' : Keyspace} (hp : p) :
    AnsweredIf p (.ok r, ks') := ⟨fun _ => hp, fun _ => ⟨r, rfl⟩⟩

theorem AnsweredIf.of_error {p : Prop} {e : RedisError} {ks' : Keyspace} (hp : ¬p) :
    AnsweredIf p (.error e, ks') := ⟨fun ⟨_, hr⟩ => (by cases hr), fun h => absurd h hp⟩

end Answered

theorem Represents.answered_fixedWindow (ha : policy.algorithm = .fixedWindow)
    (h : Represents x policy key members t.ms ks s) :
    AnsweredIf (s.SetsDeadline policy t.ms → Accepted x t policy.expiryMs)
      ((fixedWindowLua key policy.rate policy.windowMs).run x t ks) := by
  have hpos := policy.rate_pos
  have hexp : policy.expiryMs = policy.windowMs + 1000 := by simp only [PolicyBase.expiryMs, ha]
  have hcell := (represents_fixedWindow ha).1 h t le_rfl
  have hsets :
      s.SetsDeadline policy t.ms ↔ FixedWindow.used policy.windowMs s.admitted t.ms = 0 := by
    simp only [Ideal.SetsDeadline, ha]
  rw [hsets, hexp]
  generalize hk : ks (counterKey key policy.windowMs t.ms) = e at hcell
  generalize FixedWindow.used policy.windowMs s.admitted t.ms = used at hcell ⊢
  cases hcell with
  | absent =>
    by_cases hacc : Accepted x t (policy.windowMs + 1000)
    · rw [fixedWindowLua_run_fresh hk hacc]
      exact .of_ok fun _ => hacc
    · rw [fixedWindowLua_run_rejected hk hacc]
      exact .of_error fun h => hacc (h rfl)
  | @counts n d pos covers =>
    rw [fixedWindowLua_run_counter pos hk]
    exact .of_ok fun hz => by omega

theorem Represents.answered_slidingWindowLog (ha : policy.algorithm = .slidingWindowLog)
    (h : Represents x policy key members t.ms ks s) :
    AnsweredIf (s.SetsDeadline policy t.ms → Accepted x t policy.expiryMs)
      ((slidingWindowLogLua key policy.rate policy.windowMs member).run x t ks) := by
  have hexp : policy.expiryMs = policy.windowMs + 1000 := by simp only [PolicyBase.expiryMs, ha]
  have hsets : s.SetsDeadline policy t.ms ↔ (s.verdict policy t.ms).allowed = true := by
    simp only [Ideal.SetsDeadline, ha]
  obtain ⟨ms, d, hk, hl⟩ := (represents_slidingWindowLog ha).1 h
  have hlen := length_prunedLog hl
  rw [hsets, hexp, Ideal.verdict_slidingWindowLog ha]
  rcases lt_or_ge ((prunedLog policy.windowMs t ms).length : ℤ) policy.rate with hc | hc
  · rw [SlidingLog.step_of_lt (by omega)]
    by_cases hacc : Accepted x t (policy.windowMs + 1000)
    · rw [slidingWindowLogLua_run_allowed hk hc hacc]
      exact .of_ok fun _ => hacc
    · rw [slidingWindowLogLua_run_rejected hk hc hacc]
      exact .of_error fun h => hacc (h rfl)
  · rw [SlidingLog.step_of_ge (by omega), slidingWindowLogLua_run_denied hk hc]
    exact .of_ok fun hf => absurd hf Bool.false_ne_true

theorem Represents.answered_tokenBucket (ha : policy.algorithm = .tokenBucket)
    (h : Represents x policy key members t.ms ks s) :
    AnsweredIf (s.SetsDeadline policy t.ms → Accepted x t policy.expiryMs)
      ((tokenBucketLua key policy.headerLimit policy.refillPerMs 1 policy.ttlMs).run x t ks) := by
  have hexp : policy.expiryMs = policy.ttlMs := by simp only [PolicyBase.expiryMs, ha]
  have hsets : s.SetsDeadline policy t.ms ↔ True := by simp only [Ideal.SetsDeadline, ha]
  obtain ⟨st, d, hk, -⟩ := (represents_tokenBucket ha).1 h
  rw [hsets, hexp]
  by_cases hacc : Accepted x t policy.ttlMs
  · rw [tokenBucketLua_run hk hacc]
    exact .of_ok fun _ => hacc
  · rw [tokenBucketLua_run_rejected hk hacc]
    exact .of_error fun h => hacc (h trivial)

/-- **Which requests are answered.** -/
theorem Represents.answered (h : Represents x policy key members t.ms ks s) (member : String) :
    AnsweredIf (s.SetsDeadline policy t.ms → Accepted x t policy.expiryMs)
      ((policyScript policy key member).run x t ks) := by
  rw [policyScript]
  split
  · exact h.answered_fixedWindow ‹_›
  · exact h.answered_slidingWindowLog ‹_›
  · exact h.answered_tokenBucket ‹_›

/-- **What a client sees is what the ideal limiter shows**, an error where the deadline is refused
included. -/
theorem eval_outcome (h : Represents x policy key members now ks s) (hst : now ≤ t.ms)
    (hm : ∀ m ∈ logMember policy member, m ∉ members) :
    observe (eval x t (policyScript policy key member) ks).1 = s.outcome x policy t := by
  have hanswer := (refines_eval h hst hm).answer
  have hanswered : AnsweredIf (s.SetsDeadline policy t.ms → Accepted x t policy.expiryMs)
      (eval x t (policyScript policy key member) ks) := (h.purge hst).answered member
  rw [Ideal.outcome]
  cases hout : (eval x t (policyScript policy key member) ks).1 with
  | ok r =>
    rw [hout] at hanswer
    rw [if_pos (hanswered.1 ⟨r, hout⟩), observe, hanswer.2.1]
  | error e =>
    rw [if_neg fun hp => ?_, observe]
    obtain ⟨r, hr⟩ := hanswered.2 hp
    rw [hout] at hr
    cases hr

end RateLimiter
