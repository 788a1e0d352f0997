import RateLimiter.Limiter.Ideal
import Mathlib.Tactic.FieldSimp

/-!
# The algorithms in Python

`apply_fixed_window`, `apply_sliding_window_log` and `apply_token_bucket` of
`services/algorithms.py`, over exact rationals.  The local limiter runs them when Redis is away.
After each stands what it computes in terms of the ideal limiter's rule.
-/

set_option autoImplicit false

namespace RateLimiter

open Quota

/-- `FixedWindowState`: the aligned window that was counted last, and how many calls it has
admitted. -/
structure FixedWindowState where
  windowStartMs : ℤ
  count : ℤ
  deriving DecidableEq, Repr

/-- `TokenBucketState`: the tokens left by the last call, and the reading at which they were
counted. -/
structure TokenBucketState where
  tokens : ℚ
  lastRefillMs : ℤ
  deriving DecidableEq, Repr

/-- `RateLimitComputation`: what each of the three algorithms returns beside the state to store. -/
structure RateLimitComputation where
  allowed : Bool
  remaining : ℤ
  resetAtMs : ℤ
  retryAfterMs : ℤ
  observedValue : ℚ
  deriving DecidableEq, Repr

/-- `apply_fixed_window`. Only an admitted call is counted, other than in the script; a state of any
other window is replaced, one that begins later included. -/
def applyFixedWindow (nowMs : ℤ) (state : Option FixedWindowState) (limit windowSeconds : ℤ) :
    FixedWindowState × RateLimitComputation :=
  let windowMs := windowSeconds * 1000
  let expectedStart := nowMs - nowMs % windowMs
  let state : FixedWindowState :=
    match state with
    | none => ⟨expectedStart, 0⟩
    | some s => if s.windowStartMs ≠ expectedStart then ⟨expectedStart, 0⟩ else s
  let nextCount := state.count + 1
  let allowed : Bool := nextCount ≤ limit
  let count := if allowed then nextCount else state.count
  let observed := if allowed then count else nextCount
  let resetAtMs := expectedStart + windowMs
  ({ state with count := count },
    { allowed := allowed
      remaining := max 0 (limit - observed)
      resetAtMs := resetAtMs
      retryAfterMs := max 0 (resetAtMs - nowMs)
      observedValue := observed })

/-- `apply_sliding_window_log`. An event exactly one window old has left the window, and only an
admitted call is appended. -/
def applySlidingWindowLog (nowMs : ℤ) (eventsMs : List ℤ) (limit windowSeconds : ℤ) :
    List ℤ × RateLimitComputation :=
  let windowMs := windowSeconds * 1000
  let cutoff := nowMs - windowMs
  let activeEvents := eventsMs.filter (cutoff < ·)
  let allowed : Bool := (activeEvents.length : ℤ) < limit
  let activeEvents := if allowed then activeEvents ++ [nowMs] else activeEvents
  let oldestTs := activeEvents.head?.getD nowMs
  let resetAtMs := oldestTs + windowMs
  (activeEvents,
    { allowed := allowed
      remaining := max 0 (limit - activeEvents.length)
      resetAtMs := resetAtMs
      retryAfterMs := max 0 (resetAtMs - nowMs)
      observedValue := activeEvents.length })

/-- `apply_token_bucket`, with `requested_tokens` at its default of one. Without a state the bucket
is full. -/
def applyTokenBucket (nowMs : ℤ) (state : Option TokenBucketState) (capacity : ℤ)
    (refillRatePerSecond : ℚ) : TokenBucketState × RateLimitComputation :=
  let state := state.getD ⟨capacity, nowMs⟩
  let elapsedMs := max 0 (nowMs - state.lastRefillMs)
  let refillAmount := (elapsedMs : ℚ) / 1000 * refillRatePerSecond
  let availableTokens := min (capacity : ℚ) (state.tokens + refillAmount)
  let allowed : Bool := 1 ≤ availableTokens
  let availableTokens := if allowed then availableTokens - 1 else availableTokens
  let missingTokens := max 0 (1 - availableTokens)
  let refillToFullMs := ⌈(capacity - availableTokens) / refillRatePerSecond * 1000⌉
  (⟨availableTokens, nowMs⟩,
    { allowed := allowed
      remaining := max 0 ⌊availableTokens⌋
      resetAtMs := nowMs + max 0 refillToFullMs
      retryAfterMs := if allowed then 0 else ⌈missingTokens / refillRatePerSecond * 1000⌉
      observedValue := availableTokens })

/-- The verdict in a computation. -/
def RateLimitComputation.verdict (c : RateLimitComputation) : Verdict :=
  ⟨c.allowed, c.remaining, c.resetAtMs, c.retryAfterMs⟩

variable {policy : PolicyBase} {now : ℤ}

/-! ## Fixed window -/

/-- The count `apply_fixed_window` starts from: that of the state if it is of the window of `now`,
else zero. -/
def windowCount (W now : ℤ) (state : Option FixedWindowState) : ℤ :=
  match state with
  | none => 0
  | some s => if s.windowStartMs ≠ FixedWindow.start W now then 0 else s.count

/-- Only the count for the current window matters of a state. -/
theorem applyFixedWindow_of_count {windowSeconds n : ℤ} (limit : ℤ)
    {state : Option FixedWindowState} (hn : windowCount (windowSeconds * 1000) now state = n) :
    applyFixedWindow now state limit windowSeconds = applyFixedWindow now
      (some ⟨FixedWindow.start (windowSeconds * 1000) now, n⟩) limit windowSeconds := by
  have hstart : now - now % (windowSeconds * 1000) = FixedWindow.start (windowSeconds * 1000) now :=
    rfl
  subst hn
  cases state with
  | none => simp only [applyFixedWindow, hstart, windowCount, ne_eq, not_true, if_false]
  | some s =>
    obtain ⟨w, count⟩ := s
    by_cases hs : w = FixedWindow.start (windowSeconds * 1000) now
    · simp [applyFixedWindow, hstart, windowCount, hs]
    · simp [applyFixedWindow, hstart, windowCount, hs]

/-- The state and the decision, from the count of the current window. -/
theorem applyFixedWindow_count {n : ℤ} {state : Option FixedWindowState}
    (hn : windowCount policy.windowMs now state = n) :
    let out := applyFixedWindow now state policy.rate policy.windowSeconds
    out.1 = ⟨FixedWindow.start policy.windowMs now, if n < policy.rate then n + 1 else n⟩ ∧
      out.2.allowed = decide (n < policy.rate) ∧
      out.2.resetAtMs = FixedWindow.start policy.windowMs now + policy.windowMs := by
  intro out
  have hout : out = applyFixedWindow now (some ⟨FixedWindow.start policy.windowMs now, n⟩)
      policy.rate policy.windowSeconds := applyFixedWindow_of_count policy.rate hn
  have hstart : now - now % (policy.windowSeconds * 1000) = FixedWindow.start policy.windowMs now :=
    rfl
  rw [hout]
  simp only [applyFixedWindow, hstart, ne_eq, not_true, if_false, decide_eq_true_eq,
    Int.add_one_le_iff, true_and]
  rfl

/-- A count that is the number of admissions gives the ideal verdict, and is kept up to date. -/
theorem applyFixedWindow_eq {state : Option FixedWindowState} {h : List ℤ}
    (hu : windowCount policy.windowMs now state = FixedWindow.used policy.windowMs h now) :
    let out := applyFixedWindow now state policy.rate policy.windowSeconds
    out.2.verdict = (FixedWindow.step policy.rate policy.windowMs h now).1 ∧
      out.1 = ⟨FixedWindow.start policy.windowMs now,
        if FixedWindow.used policy.windowMs h now < policy.rate then
          FixedWindow.used policy.windowMs h now + 1
        else FixedWindow.used policy.windowMs h now⟩ := by
  refine ⟨?_, (applyFixedWindow_count hu).1⟩
  have hretry : max 0 (FixedWindow.start policy.windowMs now + policy.windowMs - now) =
      FixedWindow.start policy.windowMs now + policy.windowMs - now := by
    have := FixedWindow.lt_start_add policy.windowMs_pos now
    exact max_eq_right (by omega)
  have hstart : now - now % policy.windowMs = FixedWindow.start policy.windowMs now := rfl
  rw [applyFixedWindow_of_count policy.rate hu]
  simp only [applyFixedWindow, ← PolicyBase.windowMs.eq_1, hstart, ne_eq, not_true, if_false,
    RateLimitComputation.verdict, hretry]
  rcases lt_or_ge (FixedWindow.used policy.windowMs h now) policy.rate with hlt | hge
  · rw [FixedWindow.step_of_lt hlt]
    have hle : FixedWindow.used policy.windowMs h now + 1 ≤ policy.rate := hlt
    have hrest : max 0 (policy.rate - (FixedWindow.used policy.windowMs h now + 1)) =
        policy.rate - (FixedWindow.used policy.windowMs h now + 1) := max_eq_right (by omega)
    simp only [hle, decide_true, if_true, hrest]
  · rw [FixedWindow.step_of_ge hge]
    have hle : ¬FixedWindow.used policy.windowMs h now + 1 ≤ policy.rate := by omega
    have hrest : max 0 (policy.rate - (FixedWindow.used policy.windowMs h now + 1)) = 0 :=
      max_eq_left (by omega)
    simp only [hle, decide_false, Bool.false_eq_true, if_false, hrest]

/-! ## Sliding log -/

theorem applySlidingWindowLog_eq {events h : List ℤ}
    (hl : SlidingLog.live policy.windowMs events now = SlidingLog.live policy.windowMs h now) :
    let out := applySlidingWindowLog now events policy.rate policy.windowSeconds
    let v := (SlidingLog.step policy.rate policy.windowMs h now).1
    out.2.verdict = v ∧
      out.1 = if v.allowed then SlidingLog.live policy.windowMs h now ++ [now]
        else SlidingLog.live policy.windowMs h now := by
  have hfilter : events.filter (now - policy.windowMs < ·) =
      SlidingLog.live policy.windowMs h now := hl
  simp only [applySlidingWindowLog, ← PolicyBase.windowMs.eq_1, hfilter,
    RateLimitComputation.verdict]
  rcases lt_or_ge ((SlidingLog.live policy.windowMs h now).length : ℤ) policy.rate with hlt | hge
  · rw [SlidingLog.step_of_lt hlt]
    have hrest :
        max 0 (policy.rate - ((SlidingLog.live policy.windowMs h now ++ [now]).length : ℤ)) =
        policy.rate - ((SlidingLog.live policy.windowMs h now).length + 1) := by
      rw [List.length_append, List.length_singleton]
      push_cast
      exact max_eq_right (by omega)
    simp only [hlt, decide_true, if_true, hrest, SlidingLog.resetAt, and_self]
  · rw [SlidingLog.step_of_ge hge]
    have hrest : max 0 (policy.rate - ((SlidingLog.live policy.windowMs h now).length : ℤ)) = 0 :=
      max_eq_left (by omega)
    simp only [not_lt.2 hge, decide_false, Bool.false_eq_true, if_false, hrest,
      SlidingLog.resetAt, and_self]

/-! ## Token bucket -/

/-- Per second or per millisecond, the refill is the same. -/
theorem refillPerMs_eq (policy : PolicyBase) :
    policy.refillPerMs = policy.rate / policy.windowSeconds / 1000 := by
  rw [PolicyBase.refillPerMs, PolicyBase.windowMs, div_div]
  push_cast
  rfl

theorem div_refillPerSecond (policy : PolicyBase) (q : ℚ) :
    q / ((policy.rate : ℚ) / policy.windowSeconds) * 1000 = q / policy.refillPerMs := by
  rw [refillPerMs_eq]
  field_simp

/-- A state that holds as much as the ideal bucket gives the ideal verdict and the ideal state. -/
theorem applyTokenBucket_eq {state : Option TokenBucketState} {b : Bucket.State ℚ}
    (hw : Bucket.WF policy.bucketParams (state.map fun s => (s.tokens, s.lastRefillMs)) now)
    (hl : Bucket.level policy.bucketParams (state.map fun s => (s.tokens, s.lastRefillMs)) now =
      Bucket.level policy.bucketParams b now) :
    let out := applyTokenBucket now state policy.headerLimit (policy.rate / policy.windowSeconds)
    out.2.verdict = (Bucket.step policy.bucketParams b now).1 ∧
      some (out.1.tokens, out.1.lastRefillMs) = (Bucket.step policy.bucketParams b now).2 := by
  have havail : min (policy.headerLimit : ℚ) ((state.getD ⟨policy.headerLimit, now⟩).tokens +
      (max 0 (now - (state.getD ⟨policy.headerLimit, now⟩).lastRefillMs) : ℤ) / 1000 *
        (policy.rate / policy.windowSeconds)) = Bucket.level policy.bucketParams b now := by
    rw [← hl]
    cases state with
    | none => simp [Bucket.level]
    | some s =>
      obtain ⟨-, -, hlast⟩ := hw s.tokens s.lastRefillMs rfl
      rw [Option.getD_some, max_eq_right (sub_nonneg.2 hlast), Option.map_some, Bucket.level,
        PolicyBase.bucketParams_capacity, PolicyBase.bucketParams_rate, refillPerMs_eq]
      congr 2
      ring
  have hcap := Bucket.level_le_capacity (P := policy.bucketParams) b now
  have hnonneg : 0 ≤ Bucket.level policy.bucketParams b now := hl ▸ hw.level_nonneg
  have hrate := policy.refillPerMs_pos
  rw [PolicyBase.bucketParams_capacity] at hcap
  simp only [applyTokenBucket, havail, RateLimitComputation.verdict, div_refillPerSecond]
  rcases le_or_gt 1 (Bucket.level policy.bucketParams b now) with hx | hx
  · rw [Bucket.step_of_le hx]
    have hfull : 0 ≤ ⌈((policy.headerLimit : ℚ) -
        (Bucket.level policy.bucketParams b now - 1)) / policy.refillPerMs⌉ :=
      Int.ceil_nonneg (div_nonneg (by linarith) hrate.le)
    have hfloor : 0 ≤ ⌊Bucket.level policy.bucketParams b now - 1⌋ :=
      Int.floor_nonneg.2 (by linarith)
    simp only [hx, decide_true, if_true, max_eq_right hfull, max_eq_right hfloor, Bucket.fullAt,
      PolicyBase.bucketParams_capacity, PolicyBase.bucketParams_rate, and_self]
  · rw [Bucket.step_of_lt hx]
    have hfull : 0 ≤ ⌈((policy.headerLimit : ℚ) -
        Bucket.level policy.bucketParams b now) / policy.refillPerMs⌉ :=
      Int.ceil_nonneg (div_nonneg (by linarith) hrate.le)
    have hmissing : max 0 (1 - Bucket.level policy.bucketParams b now) =
        1 - Bucket.level policy.bucketParams b now := max_eq_right (by linarith)
    have hfloor : 0 ≤ ⌊Bucket.level policy.bucketParams b now⌋ := Int.floor_nonneg.2 hnonneg
    simp only [not_le.2 hx, decide_false, Bool.false_eq_true, if_false, hmissing,
      max_eq_right hfull, max_eq_right hfloor, Bucket.fullAt,
      PolicyBase.bucketParams_capacity, PolicyBase.bucketParams_rate, and_self]

end RateLimiter
