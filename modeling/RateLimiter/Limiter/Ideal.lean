import RateLimiter.Limiter.Decision

/-!
# What a policy promises

The ideal limiter of a policy: it remembers every admission and, for a token bucket, the bucket,
and it decides by the rule of the policy's algorithm.  `Within` is the quota of a policy, as a
property of the list of admissions, and `Ideal.Sound` the invariant that carries it along.

Redis and the local limiter are compared with this machine, never with each other directly.
-/

set_option autoImplicit false

namespace RateLimiter

open Quota

/-- The bucket of a token-bucket policy: it holds `header_limit` tokens and refills at `rate` per
window, counted in milliseconds. -/
def PolicyBase.bucketParams (policy : PolicyBase) : Bucket.Params ℚ where
  capacity := policy.headerLimit
  rate := policy.refillPerMs
  capacity_pos := by exact_mod_cast policy.headerLimit_pos
  rate_pos := policy.refillPerMs_pos

@[simp] theorem PolicyBase.bucketParams_capacity (policy : PolicyBase) :
    policy.bucketParams.capacity = policy.headerLimit := rfl

@[simp] theorem PolicyBase.bucketParams_rate (policy : PolicyBase) :
    policy.bucketParams.rate = policy.refillPerMs := rfl

/-- The state of the ideal limiter: everything it has admitted, and a bucket. Nothing is pruned and
nothing expires, so that it can say what an implementation may forget. -/
structure Ideal where
  /-- When requests were admitted, oldest first. -/
  admitted : List ℤ
  /-- The bucket, for a token-bucket policy. -/
  bucket : Bucket.State ℚ

/-- Nothing has been admitted yet, and a bucket would be full. -/
def Ideal.empty : Ideal := ⟨[], none⟩

/-- The ideal limiter's verdict on a request at `t`, by the rule of the policy's algorithm. -/
def Ideal.verdict (policy : PolicyBase) (s : Ideal) (t : ℤ) : Verdict :=
  match policy.algorithm with
  | .fixedWindow => (FixedWindow.step policy.rate policy.windowMs s.admitted t).1
  | .slidingWindowLog => (SlidingLog.step policy.rate policy.windowMs s.admitted t).1
  | .tokenBucket => (Bucket.step policy.bucketParams s.bucket t).1

/-- The ideal limiter after a request at `t`: an admission is remembered, and a bucket moves on to
`t` in any case. -/
def Ideal.next (policy : PolicyBase) (s : Ideal) (t : ℤ) : Ideal where
  admitted := if (s.verdict policy t).allowed then s.admitted ++ [t] else s.admitted
  bucket :=
    match policy.algorithm with
    | .fixedWindow | .slidingWindowLog => s.bucket
    | .tokenBucket => (Bucket.step policy.bucketParams s.bucket t).2

section Verdict

variable {policy : PolicyBase} {s : Ideal}

theorem Ideal.verdict_fixedWindow (ha : policy.algorithm = .fixedWindow) (t : ℤ) :
    s.verdict policy t = (FixedWindow.step policy.rate policy.windowMs s.admitted t).1 := by
  simp only [verdict, ha]

theorem Ideal.verdict_slidingWindowLog (ha : policy.algorithm = .slidingWindowLog) (t : ℤ) :
    s.verdict policy t = (SlidingLog.step policy.rate policy.windowMs s.admitted t).1 := by
  simp only [verdict, ha]

theorem Ideal.verdict_tokenBucket (ha : policy.algorithm = .tokenBucket) (t : ℤ) :
    s.verdict policy t = (Bucket.step policy.bucketParams s.bucket t).1 := by
  simp only [verdict, ha]

theorem Ideal.next_fixedWindow (ha : policy.algorithm = .fixedWindow) (s : Ideal) (t : ℤ) :
    (s.next policy t).admitted =
      (FixedWindow.step policy.rate policy.windowMs s.admitted t).2 := by
  rw [FixedWindow.step_snd, ← verdict_fixedWindow ha]
  rfl

theorem Ideal.next_slidingWindowLog (ha : policy.algorithm = .slidingWindowLog) (s : Ideal)
    (t : ℤ) : (s.next policy t).admitted =
      (SlidingLog.step policy.rate policy.windowMs s.admitted t).2 := by
  rw [SlidingLog.step_snd, ← verdict_slidingWindowLog ha]
  rfl

theorem Ideal.next_tokenBucket (ha : policy.algorithm = .tokenBucket) (s : Ideal) (t : ℤ) :
    (s.next policy t).bucket = (Bucket.step policy.bucketParams s.bucket t).2 := by
  simp only [next, ha]

/-- The admissions in a window after one more request. -/
theorem Ideal.used_next (ha : policy.algorithm = .fixedWindow) (a b : ℤ) :
    FixedWindow.used policy.windowMs (s.next policy a).admitted b =
      if FixedWindow.start policy.windowMs a = FixedWindow.start policy.windowMs b ∧
          FixedWindow.used policy.windowMs s.admitted a < policy.rate then
        FixedWindow.used policy.windowMs s.admitted a + 1
      else FixedWindow.used policy.windowMs s.admitted b := by
  rw [next_fixedWindow ha]
  exact FixedWindow.used_step policy.windowMs_pos policy.rate s.admitted a b

end Verdict

/-- The quota of a policy: what the admissions of a policy's requests under one key have to satisfy.
-/
def Within (policy : PolicyBase) (admitted : List ℤ) : Prop :=
  match policy.algorithm with
  | .fixedWindow => FixedWindow.Bounded policy.rate policy.windowMs admitted
  | .slidingWindowLog => SlidingLog.Bounded policy.rate policy.windowMs admitted
  | .tokenBucket => Bucket.Bounded policy.bucketParams admitted

theorem Within.mono {policy : PolicyBase} {g h : List ℤ} (hw : Within policy h)
    (hs : g.Subperm h) : Within policy g := by
  rw [Within] at hw ⊢
  split at hw <;> exact hw.mono hs

/-- What holds of the ideal limiter at time `now`. For a window this is the quota itself; for a
bucket the quota follows from its account. -/
def Ideal.Sound (policy : PolicyBase) (s : Ideal) (now : ℤ) : Prop :=
  match policy.algorithm with
  | .fixedWindow => FixedWindow.Bounded policy.rate policy.windowMs s.admitted
  | .slidingWindowLog => SlidingLog.Bounded policy.rate policy.windowMs s.admitted
  | .tokenBucket => Bucket.Account policy.bucketParams s.admitted s.bucket now

theorem Ideal.sound_empty (policy : PolicyBase) (now : ℤ) : Ideal.empty.Sound policy now := by
  rw [Sound]
  split
  · exact FixedWindow.bounded_nil policy.rate_pos.le
  · exact SlidingLog.bounded_nil policy.rate_pos.le
  · exact Bucket.account_nil now

theorem Ideal.Sound.within {policy : PolicyBase} {s : Ideal} {now : ℤ} (h : s.Sound policy now) :
    Within policy s.admitted := by
  rw [Sound] at h
  rw [Within]
  split at h
  · exact h
  · exact h
  · exact h.bounded

theorem Ideal.Sound.later {policy : PolicyBase} {s : Ideal} {now t : ℤ} (h : s.Sound policy now)
    (hst : now ≤ t) : s.Sound policy t := by
  rw [Sound] at h ⊢
  split at h
  · exact h
  · exact h
  · exact h.later hst

theorem Ideal.admitted_sublist_next (policy : PolicyBase) (s : Ideal) (t : ℤ) :
    s.admitted.Sublist (s.next policy t).admitted := by
  rw [next]
  split
  · exact List.sublist_append_left _ _
  · exact List.Sublist.refl _

/-- **The rule keeps the invariant**, whether the request is admitted or turned down, if time does
not run backwards. -/
theorem Ideal.Sound.next {policy : PolicyBase} {s : Ideal} {now t : ℤ} (h : s.Sound policy now)
    (hst : now ≤ t) : (s.next policy t).Sound policy t := by
  rw [Sound] at h ⊢
  cases ha : policy.algorithm with
  | fixedWindow =>
    simp only [ha, next_fixedWindow ha] at h ⊢
    exact h.step policy.windowMs_pos
  | slidingWindowLog =>
    simp only [ha, next_slidingWindowLog ha] at h ⊢
    exact h.step
  | tokenBucket =>
    simp only [ha, Ideal.next, verdict] at h ⊢
    exact h.step hst

end RateLimiter
