import RateLimiter.Limiter.Ideal
import RateLimiter.Lib.Quota.Forecast
import RateLimiter.Lib.Timed

/-!
# What the ideal limiter promises

The promises in a verdict, for a policy of any algorithm: `remaining` is the number of requests that
would still be admitted (`Ideal.outputs_burst`), `retryAfter` and `resetAt` are exact
(`Ideal.exact`), and a request that was turned down does not change what later ones are told
(`Ideal.outputs_denied`).

`Exact` is stated about any limiter that answers a request at `u` with the verdict `w` when
`next u w`, so that the limiters of the service can be held to it.
-/

set_option autoImplicit false

namespace RateLimiter

open Quota

/-- How many more requests are admitted at `t`, if they all come at `t`. -/
def Ideal.available (policy : PolicyBase) (s : Ideal) (t : ℤ) : ℤ :=
  match policy.algorithm with
  | .fixedWindow => FixedWindow.available policy.rate policy.windowMs s.admitted t
  | .slidingWindowLog => SlidingLog.available policy.rate policy.windowMs s.admitted t
  | .tokenBucket => Bucket.available policy.bucketParams s.bucket t

/-- What holds of the ideal limiter after requests whose times do not run backwards. -/
structure Ideal.Reached (policy : PolicyBase) (s : Ideal) (now : ℤ) : Prop where
  /-- The invariant of the quota. -/
  sound : s.Sound policy now
  /-- Admissions lie in the past. -/
  past : ∀ a ∈ s.admitted, a ≤ now
  /-- They are in order. -/
  sorted : s.admitted.Pairwise (· ≤ ·)

variable {policy : PolicyBase} {s : Ideal} {now t u : ℤ}

theorem Ideal.reached_empty (policy : PolicyBase) (now : ℤ) : Ideal.empty.Reached policy now where
  sound := sound_empty policy now
  past _ ha := by cases ha
  sorted := .nil

theorem Ideal.Reached.later (h : s.Reached policy now) (hst : now ≤ t) : s.Reached policy t where
  sound := h.sound.later hst
  past a ha := (h.past a ha).trans hst
  sorted := h.sorted

theorem Ideal.Reached.next (h : s.Reached policy now) (hst : now ≤ t) :
    (s.next policy t).Reached policy t := by
  have hl := h.later hst
  refine ⟨h.sound.next hst, ?_, ?_⟩
  all_goals
    simp only [Ideal.next]
    split
  · exact forall_le_concat hl.past
  · exact hl.past
  · refine List.pairwise_append.2 ⟨h.sorted, List.pairwise_singleton _ _, fun a ha b hb => ?_⟩
    rw [List.mem_singleton.1 hb]
    exact hl.past a ha
  · exact h.sorted

/-! ## By algorithm -/

theorem Ideal.Reached.fixedWindow (ha : policy.algorithm = .fixedWindow)
    (h : s.Reached policy now) : FixedWindow.Bounded policy.rate policy.windowMs s.admitted := by
  have := h.sound
  simp only [Sound, ha] at this
  exact this

theorem Ideal.Reached.slidingWindowLog (ha : policy.algorithm = .slidingWindowLog)
    (h : s.Reached policy now) : SlidingLog.Bounded policy.rate policy.windowMs s.admitted := by
  have := h.sound
  simp only [Sound, ha] at this
  exact this

theorem Ideal.Reached.tokenBucket (ha : policy.algorithm = .tokenBucket)
    (h : s.Reached policy now) : Bucket.WF policy.bucketParams s.bucket now := by
  have := h.sound
  simp only [Sound, ha] at this
  exact this.wf

/-! ## How many more -/

theorem Ideal.allowed_iff : (s.verdict policy t).allowed = true ↔ 0 < s.available policy t := by
  rw [available]
  split <;> rename_i ha
  · rw [verdict_fixedWindow ha]
    exact FixedWindow.allowed_iff
  · rw [verdict_slidingWindowLog ha]
    exact SlidingLog.allowed_iff
  · rw [verdict_tokenBucket ha]
    exact Bucket.allowed_iff

theorem Ideal.available_next (policy : PolicyBase) (s : Ideal) (t : ℤ) :
    (s.next policy t).available policy t =
      s.available policy t - if (s.verdict policy t).allowed then 1 else 0 := by
  rw [available, available]
  split <;> rename_i ha
  · rw [next_fixedWindow ha, verdict_fixedWindow ha]
    exact FixedWindow.available_step policy.windowMs_pos
  · rw [next_slidingWindowLog ha, verdict_slidingWindowLog ha]
    exact SlidingLog.available_step policy.windowMs_pos
  · rw [next_tokenBucket ha, verdict_tokenBucket ha]
    exact Bucket.available_step _ _

/-- What is left is what the verdict says. -/
theorem Ideal.Reached.remaining_eq (h : s.Reached policy t) :
    (s.verdict policy t).remaining = (s.next policy t).available policy t := by
  rw [available]
  split <;> rename_i ha
  · rw [next_fixedWindow ha, verdict_fixedWindow ha]
    exact FixedWindow.remaining_eq policy.windowMs_pos (h.fixedWindow ha)
  · rw [next_slidingWindowLog ha, verdict_slidingWindowLog ha]
    exact SlidingLog.remaining_eq policy.windowMs_pos (h.slidingWindowLog ha) h.past
  · rw [next_tokenBucket ha, verdict_tokenBucket ha]
    exact (Bucket.step_spec _ _).2.1

theorem Ideal.Reached.available_nonneg (h : s.Reached policy t) : 0 ≤ s.available policy t := by
  rw [available]
  split <;> rename_i ha
  · exact sub_nonneg.2 ((h.fixedWindow ha).used_le t)
  · exact sub_nonneg.2 ((h.slidingWindowLog ha).length_live_le h.past)
  · exact Int.floor_nonneg.2 (h.tokenBucket ha).level_nonneg

theorem Ideal.available_le (policy : PolicyBase) (s : Ideal) (t : ℤ) :
    s.available policy t ≤ policy.headerLimit := by
  rw [available]
  split <;> rename_i ha
  · rw [policy.headerLimit_eq_rate (by rw [ha]; decide)]
    exact Int.sub_le_self _ (Int.natCast_nonneg _)
  · rw [policy.headerLimit_eq_rate (by rw [ha]; decide)]
    exact Int.sub_le_self _ (Int.natCast_nonneg _)
  · rw [Bucket.available, ← Int.floor_intCast (R := ℚ) policy.headerLimit]
    exact Int.floor_le_floor (Bucket.level_le_capacity _ _)

/-- A request leaves less than the whole quota, whether it was admitted or not. -/
theorem Ideal.available_next_lt (policy : PolicyBase) (s : Ideal) (t : ℤ) :
    (s.next policy t).available policy t < policy.headerLimit := by
  have hle := s.available_le policy t
  have hpos := policy.headerLimit_pos
  have hall : (s.verdict policy t).allowed = true ↔ 0 < s.available policy t := allowed_iff
  rw [available_next]
  split
  · omega
  · have : ¬0 < s.available policy t := fun h => absurd (hall.2 h) ‹_›
    omega

/-- What is said to remain is within the quota. -/
theorem Ideal.Reached.remaining_bounds (h : s.Reached policy t) :
    0 ≤ (s.verdict policy t).remaining ∧ (s.verdict policy t).remaining < policy.headerLimit := by
  rw [h.remaining_eq]
  exact ⟨(h.next le_rfl).available_nonneg, s.available_next_lt policy t⟩

theorem Ideal.Reached.available_eq_toNat (h : s.Reached policy t) :
    (s.next policy t).available policy t = ((s.verdict policy t).remaining.toNat : ℤ) := by
  rw [Int.toNat_of_nonneg h.remaining_bounds.1, h.remaining_eq]

/-- A request is turned down when nothing is left, and leaves nothing. -/
theorem Ideal.Reached.available_next_of_denied (h : s.Reached policy t)
    (hd : (s.verdict policy t).allowed = false) :
    s.available policy t = 0 ∧ (s.next policy t).available policy t = 0 := by
  have hnot : ¬0 < s.available policy t := fun ha => by
    rw [allowed_iff.2 ha] at hd
    cases hd
  have := h.available_nonneg
  rw [available_next, hd]
  exact ⟨by omega, by simp only [Bool.false_eq_true, if_false]; omega⟩

/-- A verdict shows that the whole quota was there. -/
theorem Ideal.Reached.fresh_iff (h : s.Reached policy t) :
    (s.verdict policy t).allowed = true ∧
        (s.verdict policy t).remaining = policy.headerLimit - 1 ↔
      s.available policy t = policy.headerLimit := by
  have hpos := policy.headerLimit_pos
  rw [h.remaining_eq, available_next]
  constructor
  · rintro ⟨hall, hrem⟩
    rw [if_pos hall] at hrem
    omega
  · intro hfull
    have hall : (s.verdict policy t).allowed = true := allowed_iff.2 (by omega)
    rw [if_pos hall]
    exact ⟨hall, by omega⟩

/-! ## A burst -/

variable {ι : Type} (time : ι → ℤ)

/-- The ideal limiter as a machine on requests that carry a time. -/
def Ideal.step (policy : PolicyBase) (s : Ideal) (i : ι) : Verdict × Ideal :=
  (s.verdict policy (time i), s.next policy (time i))

variable {time}

/-- **Requests at one time are admitted until none is left.** -/
theorem Ideal.outputs_burst {is : List ι} (hi : ∀ i ∈ is, time i = t) {n : ℕ}
    (hn : s.available policy t = n) (hlen : is.length = n + 1) :
    (Timed.outputs (Ideal.step time policy) s is).map (·.allowed) =
      List.replicate n true ++ [false] := by
  induction n generalizing s is with
  | zero =>
    obtain ⟨i, rfl⟩ := List.length_eq_one_iff.1 hlen
    have hdenied : (s.verdict policy (time i)).allowed = false := by
      rw [Bool.eq_false_iff, Ne, allowed_iff, hi i List.mem_cons_self, hn]
      decide
    simp [Timed.outputs, Ideal.step, hdenied]
  | succ n ih =>
    obtain ⟨i, is, rfl⟩ := List.exists_of_length_succ is hlen
    have hti := hi i List.mem_cons_self
    have hall : (s.verdict policy t).allowed = true := by
      rw [allowed_iff, hn]
      omega
    have hnext : (s.next policy t).available policy t = n := by
      rw [available_next, if_pos hall, hn]
      push_cast
      omega
    rw [Timed.outputs, List.map_cons, Ideal.step, hti, hall, List.replicate_succ, List.cons_append,
      ih (fun j hj => hi j (List.mem_cons_of_mem i hj)) hnext (by simpa using hlen)]

/-! ## When to come back -/

/-- What the answer to a request at `t` says about later ones.  `logged` is the log after it,
`seconds` its `retry_after_seconds`, and `next u w` that a request at `u`, with nothing in between,
gets the verdict `w`. -/
structure Exact (policy : PolicyBase) (logged : List ℤ) (t : ℤ) (v : Verdict) (seconds : ℤ)
    (next : ℤ → Verdict → Prop) : Prop where
  /-- A request that was turned down has to wait. -/
  retry_pos : v.allowed = false → 1 ≤ v.retryAfter
  /-- It is turned down again until then, and admitted from then on. -/
  retry : v.allowed = false → ∀ u w, t ≤ u → next u w →
    (w.allowed = true ↔ t + v.retryAfter ≤ u)
  /-- In whole seconds it waits long enough, and less than a second too long. -/
  seconds_spec : v.allowed = false →
    v.retryAfter ≤ seconds * 1000 ∧ seconds * 1000 < v.retryAfter + 1000
  /-- A window or a bucket is as good as new from the reset on, and not before. -/
  reset : policy.algorithm ≠ .slidingWindowLog → ∀ u w, t ≤ u → next u w →
    (w.allowed = true ∧ w.remaining = policy.headerLimit - 1 ↔ v.resetAt ≤ u)
  /-- The oldest logged admission leaves the window at the reset. -/
  oldest : policy.algorithm = .slidingWindowLog →
    ∃ o, IsLeast {a | a ∈ logged ∧ t - policy.windowMs < a} o ∧
      ∀ u, u - policy.windowMs < o ↔ u < v.resetAt

theorem Exact.mono {logged : List ℤ} {v : Verdict} {seconds : ℤ} {next next' : ℤ → Verdict → Prop}
    (h : Exact policy logged t v seconds next) (hnext : ∀ u w, t ≤ u → next' u w → next u w) :
    Exact policy logged t v seconds next' where
  retry_pos := h.retry_pos
  retry hd u w hu hw := h.retry hd u w hu (hnext u w hu hw)
  seconds_spec := h.seconds_spec
  reset ha u w hu hw := h.reset ha u w hu (hnext u w hu hw)
  oldest := h.oldest

/-- Another log with the same live admissions does as well. -/
theorem Exact.relog {logged logged' : List ℤ} {v : Verdict} {seconds : ℤ}
    {next : ℤ → Verdict → Prop} (h : Exact policy logged t v seconds next)
    (hlive : policy.algorithm = .slidingWindowLog →
      SlidingLog.live policy.windowMs logged' t = SlidingLog.live policy.windowMs logged t) :
    Exact policy logged' t v seconds next where
  retry_pos := h.retry_pos
  retry := h.retry
  seconds_spec := h.seconds_spec
  reset := h.reset
  oldest ha := by
    obtain ⟨o, ho, hu⟩ := h.oldest ha
    have hset : {a | a ∈ logged' ∧ t - policy.windowMs < a} =
        {a | a ∈ logged ∧ t - policy.windowMs < a} := by
      ext a
      have hmem := congrArg (a ∈ ·) (hlive ha)
      simpa [SlidingLog.live] using hmem
    exact ⟨o, hset ▸ ho, hu⟩

theorem ceilSeconds_spec (r : ℤ) : r ≤ ceilSeconds r * 1000 ∧ ceilSeconds r * 1000 < r + 1000 := by
  have hle : (r : ℚ) / 1000 ≤ ceilSeconds r := Int.le_ceil _
  have hlt : (ceilSeconds r : ℚ) < (r : ℚ) / 1000 + 1 := Int.ceil_lt_add_one _
  rw [div_le_iff₀ (by norm_num)] at hle
  rw [← sub_lt_iff_lt_add, lt_div_iff₀ (by norm_num)] at hlt
  constructor
  · exact_mod_cast hle
  · have : ((ceilSeconds r * 1000 : ℤ) : ℚ) < ((r + 1000 : ℤ) : ℚ) := by
      push_cast
      linarith
    exact_mod_cast this

/-- The verdict on the next request, as `Exact` wants it. -/
abbrev Ideal.Next (policy : PolicyBase) (s : Ideal) (u : ℤ) (w : Verdict) : Prop :=
  w = s.verdict policy u

section Exact

variable (h : s.Reached policy t)

include h

theorem Ideal.Reached.exact_fixedWindow (ha : policy.algorithm = .fixedWindow) :
    Exact policy (s.next policy t).admitted t (s.verdict policy t)
      (ceilSeconds (s.verdict policy t).retryAfter) (Ideal.Next policy (s.next policy t)) := by
  have hW := policy.windowMs_pos
  have hlt := FixedWindow.lt_start_add hW t
  have hv := verdict_fixedWindow (s := s) ha t
  have hreset := FixedWindow.resetAt_eq policy.rate policy.windowMs s.admitted t
  have hretry := FixedWindow.retryAfter_eq policy.rate policy.windowMs s.admitted t
  rw [← hv] at hreset hretry
  have hlimit := policy.headerLimit_eq_rate (by rw [ha]; decide)
  have hpos := policy.headerLimit_pos
  have hnext := h.next le_rfl
  have hlater : ∀ u, t ≤ u → (s.next policy t).available policy u =
      if u < (s.verdict policy t).resetAt then (s.next policy t).available policy t
      else policy.headerLimit := by
    intro u hu
    rw [hreset, hlimit]
    simp only [Ideal.available, ha]
    exact FixedWindow.available_later hW hnext.past hu
  refine ⟨fun _ => by rw [hretry]; omega, fun hd u w hu hw => ?_, fun _ => ceilSeconds_spec _,
    fun _ u w hu hw => ?_, fun hs => by rw [ha] at hs; cases hs⟩
  · have hempty := (h.available_next_of_denied hd).2
    rw [hw, allowed_iff, hlater u hu]
    split <;> omega
  · have := s.available_next_lt policy t
    rw [hw, (hnext.later hu).fresh_iff, hlater u hu]
    split <;> omega

theorem Ideal.Reached.exact_slidingWindowLog (ha : policy.algorithm = .slidingWindowLog) :
    Exact policy (s.next policy t).admitted t (s.verdict policy t)
      (ceilSeconds (s.verdict policy t).retryAfter) (Ideal.Next policy (s.next policy t)) := by
  have hv := verdict_slidingWindowLog (s := s) ha t
  have hreset := SlidingLog.resetAt_eq policy.windowMs_pos policy.rate s.admitted t
  have hretry := SlidingLog.retryAfter_eq policy.rate policy.windowMs s.admitted t
  rw [← hv, ← next_slidingWindowLog ha] at hreset
  rw [← hv] at hretry
  have hnext := h.next le_rfl
  have havail : ∀ u, (s.next policy t).available policy u =
      SlidingLog.available policy.rate policy.windowMs (s.next policy t).admitted u := fun u => by
    simp only [Ideal.available, ha]
  -- a request that was turned down leaves a full log, one that was admitted leaves itself in it
  obtain ⟨o, l, hl⟩ :
      ∃ o l, SlidingLog.live policy.windowMs (s.next policy t).admitted t = o :: l := by
    refine List.exists_cons_of_length_pos ?_
    have hlt := s.available_next_lt policy t
    rw [havail, SlidingLog.available, policy.headerLimit_eq_rate (by rw [ha]; decide)] at hlt
    omega
  have hleast := SlidingLog.isLeast_head hnext.sorted hl
  have ho : (s.verdict policy t).resetAt = o + policy.windowMs := by
    rw [hreset, hl]
    rfl
  refine ⟨fun _ => ?_, fun hd u w hu hw => ?_, fun _ => ceilSeconds_spec _, fun hs => absurd ha hs,
    fun _ => ⟨o, hleast, fun u => by omega⟩⟩
  · have := hleast.1.2
    rw [hretry, ho]
    omega
  · have hlive := hleast.1.2
    have hempty := (h.available_next_of_denied hd).2
    obtain ⟨hbefore, hafter⟩ := SlidingLog.available_later policy.rate hnext.sorted hl hu
    rw [havail] at hempty
    rw [hempty] at hbefore hafter
    rw [hw, allowed_iff, havail, hretry, ho]
    constructor
    · intro hpos
      by_contra hlt
      have := hbefore (by omega)
      omega
    · intro hle
      exact hafter (by omega)

theorem Ideal.Reached.exact_tokenBucket (ha : policy.algorithm = .tokenBucket) :
    Exact policy (s.next policy t).admitted t (s.verdict policy t)
      (ceilSeconds (s.verdict policy t).retryAfter) (Ideal.Next policy (s.next policy t)) := by
  have hcap : 1 ≤ policy.bucketParams.capacity := by
    have := policy.headerLimit_pos
    rw [PolicyBase.bucketParams_capacity]
    exact_mod_cast this
  have hv := verdict_tokenBucket (s := s) ha t
  have hnext := h.next le_rfl
  have havail : ∀ u, (s.next policy t).available policy u =
      Bucket.available policy.bucketParams (Bucket.step policy.bucketParams s.bucket t).2 u :=
    fun u => by simp only [Ideal.available, ha, next_tokenBucket ha]
  have hlevel : (s.verdict policy t).allowed = false →
      Bucket.level policy.bucketParams s.bucket t < 1 := by
    intro hd
    have hz := (h.available_next_of_denied hd).1
    simp only [Ideal.available, ha, Bucket.available, Int.floor_eq_zero_iff] at hz
    exact hz.2
  obtain ⟨hkept, -, hreset⟩ := Bucket.step_spec (P := policy.bucketParams) s.bucket t
  refine ⟨fun hd => ?_, fun hd u w hu hw => ?_, fun _ => ceilSeconds_spec _, fun _ u w hu hw => ?_,
    fun hs => by rw [ha] at hs; cases hs⟩
  · have hx := hlevel hd
    rw [hv, Bucket.step_of_lt hx]
    exact Int.one_le_ceil_iff.2 (div_pos (by linarith) policy.bucketParams.rate_pos)
  · rw [hw, allowed_iff, havail, hv]
    exact Bucket.available_later hcap (hlevel hd)
  · rw [hw, (hnext.later hu).fresh_iff, havail, hv, hreset, ← Bucket.level_eq_capacity_iff,
      ← hkept]
    exact Bucket.available_eq_iff rfl

/-- **Retry and reset are exact.** -/
theorem Ideal.Reached.exact : Exact policy (s.next policy t).admitted t (s.verdict policy t)
    (ceilSeconds (s.verdict policy t).retryAfter) (Ideal.Next policy (s.next policy t)) := by
  cases ha : policy.algorithm with
  | fixedWindow => exact h.exact_fixedWindow ha
  | slidingWindowLog => exact h.exact_slidingWindowLog ha
  | tokenBucket => exact h.exact_tokenBucket ha

end Exact

/-! ## Requests that are turned down -/

/-- Two states of the ideal limiter that nobody can tell apart from `now` on. -/
structure Ideal.Alike (policy : PolicyBase) (now : ℤ) (s s' : Ideal) : Prop where
  /-- They remember the same admissions. -/
  admitted : s.admitted = s'.admitted
  /-- The buckets hold the same. -/
  level : ∀ t, now ≤ t → Bucket.level policy.bucketParams s.bucket t =
    Bucket.level policy.bucketParams s'.bucket t

/-- Alike limiters decide alike, and stay alike. -/
theorem Ideal.Alike.step {s' : Ideal} (h : Alike policy now s s') (hst : now ≤ t) :
    s.verdict policy t = s'.verdict policy t ∧
      Alike policy t (s.next policy t) (s'.next policy t) := by
  obtain ⟨hadm, hlevel⟩ := h
  have hb := Bucket.step_congr (hlevel t hst)
  have hv : s.verdict policy t = s'.verdict policy t := by
    simp only [verdict, hadm, hb]
  refine ⟨hv, ?_, fun u hu => ?_⟩
  · simp only [next, hv, hadm]
  · simp only [next]
    split
    · exact hlevel u (hst.trans hu)
    · exact hlevel u (hst.trans hu)
    · rw [hb]

/-- A request that is turned down leaves the limiter as it was. -/
theorem Ideal.alike_of_denied (hd : (s.verdict policy t).allowed = false) :
    Alike policy t (s.next policy t) s where
  admitted := if_neg (by rw [hd]; exact Bool.false_ne_true)
  level u hu := by
    simp only [next]
    split <;> rename_i ha
    · rfl
    · rfl
    · refine Bucket.level_congr ?_ hu
      rw [verdict_tokenBucket ha] at hd
      rw [Bucket.level_step, hd]
      exact sub_zero _

end RateLimiter
