import RateLimiter.Limiter.Algorithms

/-!
# The local fallback limiter

`LocalFallbackLimiter` keeps a dictionary for each algorithm.  `apply` evicts what has expired, runs
the algorithm on the state under the policy's key and stores the result with a new expiry.  It never
awaits while it holds its lock, so one call is one step.

`LocalRepresents` relates the dictionaries to the ideal limiter.  Eviction keeps it for fixed
windows and token buckets.  A sliding log may be evicted too early: its expiry follows the oldest
event of the log, not the newest.  There the relation is claimed for a limiter that never evicts,
which `Expiry.ignored` stands for here as it does for Redis.
-/

set_option autoImplicit false

namespace RateLimiter

open Quota

/-- `_StoredState`: what is stored under a key, and the reading of the clock from which on it may be
evicted. -/
structure StoredState (α : Type) where
  value : α
  expiresAtMs : ℤ
  deriving DecidableEq, Repr

/-- `LocalFallbackDecision`: the fields of a decision, without the two flags that tell how it came
about. -/
structure LocalFallbackDecision where
  allowed : Bool
  limit : ℤ
  remaining : ℤ
  resetAtEpochSeconds : ℤ
  retryAfterSeconds : ℤ
  deriving DecidableEq, Repr

/-- A dictionary of `LocalFallbackLimiter`, from keys to what is stored under them. -/
abbrev StateDict (α : Type) := String → Option (StoredState α)

/-- `LocalFallbackLimiter`: one dictionary for each algorithm, so that a key that has changed its
algorithm finds nothing of the old one. -/
structure LocalFallbackLimiter where
  /-- `_fixed_windows`. -/
  fixedWindows : StateDict FixedWindowState
  /-- `_sliding_windows`. -/
  slidingWindows : StateDict (List ℤ)
  /-- `_token_buckets`. -/
  tokenBuckets : StateDict TokenBucketState

/-- The loop body of `_evict_expired`: a state goes when the clock has reached its `expires_at_ms`.
-/
def StateDict.evict {α : Type} (x : Expiry) (nowMs : ℤ) (dict : StateDict α) : StateDict α :=
  match x with
  | .ignored => dict
  | .enforced => fun key => (dict key).filter fun state => nowMs < state.expiresAtMs

/-- `_to_decision`: what both limiters report, with seconds in the place of milliseconds. -/
def toDecision (policy : PolicyBase) (computation : RateLimitComputation) :
    LocalFallbackDecision where
  allowed := computation.allowed
  limit := policy.headerLimit
  remaining := computation.remaining
  resetAtEpochSeconds := ceilSeconds computation.resetAtMs
  retryAfterSeconds := if computation.allowed then 0 else ceilSeconds computation.retryAfterMs

namespace LocalFallbackLimiter

/-- `__init__`. -/
def empty : LocalFallbackLimiter := ⟨fun _ => none, fun _ => none, fun _ => none⟩

/-- `_evict_expired`: every call evicts from all three dictionaries and under all keys, not only its
own. -/
def evictExpired (x : Expiry) (nowMs : ℤ) (self : LocalFallbackLimiter) : LocalFallbackLimiter :=
  ⟨self.fixedWindows.evict x nowMs, self.slidingWindows.evict x nowMs,
    self.tokenBuckets.evict x nowMs⟩

variable (stateTtlMs : ℤ) (policy : PolicyBase) (key : String) (nowMs : ℤ)
  (self : LocalFallbackLimiter)

/-- `_apply_fixed_window`: the state is kept until its window ends, or for `state_ttl_ms` if that is
longer. -/
def applyFixedWindow : LocalFallbackDecision × LocalFallbackLimiter :=
  let out := RateLimiter.applyFixedWindow nowMs ((self.fixedWindows key).map (·.value)) policy.rate
    policy.windowSeconds
  let stored : StoredState FixedWindowState := ⟨out.1, max out.2.resetAtMs (nowMs + stateTtlMs)⟩
  (toDecision policy out.2,
    { self with fixedWindows := Function.update self.fixedWindows key (some stored) })

/-- `_apply_sliding_window`: the log is kept until its oldest event leaves the window, or for
`state_ttl_ms` if that is longer. -/
def applySlidingWindow : LocalFallbackDecision × LocalFallbackLimiter :=
  let events := ((self.slidingWindows key).map (·.value)).getD []
  let out := applySlidingWindowLog nowMs events policy.rate policy.windowSeconds
  let stored : StoredState (List ℤ) := ⟨out.1, max out.2.resetAtMs (nowMs + stateTtlMs)⟩
  (toDecision policy out.2,
    { self with slidingWindows := Function.update self.slidingWindows key (some stored) })

/-- `_apply_token_bucket`: the state is kept until the bucket is full again, and `state_ttl_ms`
longer. -/
def applyTokenBucket : LocalFallbackDecision × LocalFallbackLimiter :=
  let capacity := policy.headerLimit
  let refillRate : ℚ := policy.rate / policy.windowSeconds
  let out := RateLimiter.applyTokenBucket nowMs ((self.tokenBuckets key).map (·.value)) capacity
    refillRate
  let refillToFullMs := ⌈(capacity - out.1.tokens) / refillRate * 1000⌉
  let stored : StoredState TokenBucketState :=
    ⟨out.1, max (nowMs + refillToFullMs + stateTtlMs) (nowMs + 1000)⟩
  (toDecision policy out.2,
    { self with tokenBuckets := Function.update self.tokenBuckets key (some stored) })

/-- `apply`, with the settings' `state_ttl_seconds`, at the clock reading `now_ms`: evict, then
decide by the policy's algorithm under the policy's key. -/
def apply (x : Expiry) (stateTtlSeconds : ℤ) (policy : PolicyRead) (identity : RequestIdentity)
    (nowMs : ℤ) (self : LocalFallbackLimiter) : LocalFallbackDecision × LocalFallbackLimiter :=
  let stateTtlMs := max 1 stateTtlSeconds * 1000
  let key := buildRateLimitKey policy identity
  let self := self.evictExpired x nowMs
  match policy.algorithm with
  | .fixedWindow => self.applyFixedWindow stateTtlMs policy.toPolicyBase key nowMs
  | .slidingWindowLog => self.applySlidingWindow stateTtlMs policy.toPolicyBase key nowMs
  | .tokenBucket => self.applyTokenBucket stateTtlMs policy.toPolicyBase key nowMs

end LocalFallbackLimiter

/-- The five fields the decisions of both limiters have. -/
def RateLimitDecision.fields (d : RateLimitDecision) : LocalFallbackDecision :=
  ⟨d.allowed, d.limit, d.remaining, d.resetAtEpochSeconds, d.retryAfterSeconds⟩

/-- The decision `_recover_after_redis_failure` makes of the local limiter's: the same five fields,
marked as degraded and local. -/
def LocalFallbackDecision.degraded (d : LocalFallbackDecision) : RateLimitDecision :=
  ⟨d.allowed, d.limit, d.remaining, d.resetAtEpochSeconds, d.retryAfterSeconds, true, true⟩

theorem toDecision_eq (policy : PolicyBase) (c : RateLimitComputation) :
    toDecision policy c = (decisionOf policy.headerLimit c.verdict).fields := rfl

/-! ## What the dictionaries say about the ideal limiter -/

variable {x : Expiry} {policy : PolicyBase} {now t : ℤ} {h : List ℤ} {s : Ideal}

theorem StateDict.evict_eq_or {α : Type} (x : Expiry) (now : ℤ) (dict : StateDict α)
    (key : String) :
    dict.evict x now key = dict key ∨
      dict.evict x now key = none ∧ x = .enforced ∧ ∀ e ∈ dict key, e.expiresAtMs ≤ now := by
  cases x with
  | ignored => exact Or.inl rfl
  | enforced =>
    show (dict key).filter _ = _ ∨ (dict key).filter _ = _ ∧ _
    rcases hk : dict key with _ | e
    · exact Or.inl rfl
    · by_cases he : now < e.expiresAtMs
      · simp [he]
      · simpa [he] using not_lt.1 he

/-- What may be stored for a fixed window with admissions `h`: nothing, or a state that counts them
and is kept until the window is over. -/
structure WindowStored (x : Expiry) (policy : PolicyBase) (now : ℤ)
    (st : Option (StoredState FixedWindowState)) (h : List ℤ) : Prop where
  /-- From now on the state counts the admissions. -/
  count : ∀ t, now ≤ t →
    windowCount policy.windowMs t (st.map (·.value)) = FixedWindow.used policy.windowMs h t
  /-- The window has begun. -/
  past : ∀ e ∈ st, e.value.windowStartMs ≤ FixedWindow.start policy.windowMs now
  /-- The state outlives the window. -/
  expiry : x = .enforced → ∀ e ∈ st, e.value.windowStartMs + policy.windowMs ≤ e.expiresAtMs

theorem WindowStored.later {st : Option (StoredState FixedWindowState)}
    (hw : WindowStored x policy now st h) (hst : now ≤ t) : WindowStored x policy t st h :=
  ⟨fun u hu => hw.count u (hst.trans hu), fun e hm =>
    (hw.past e hm).trans (FixedWindow.start_mono policy.windowMs_pos hst), hw.expiry⟩

theorem WindowStored.evict {dict : StateDict FixedWindowState} {key : String}
    (hw : WindowStored x policy now (dict key) h) (hst : now ≤ t) :
    WindowStored x policy t (dict.evict x t key) h := by
  rcases dict.evict_eq_or x t key with he | ⟨he, hx, hgone⟩ <;> rw [he]
  · exact hw.later hst
  · refine ⟨fun u hu => ?_, fun e hm => ?_, fun _ e hm => ?_⟩ <;> try cases hm
    rw [← hw.count u (hst.trans hu)]
    cases hk : dict key with
    | none => rfl
    | some e =>
      have h1 := hw.expiry hx e hk
      have h2 := hgone e hk
      have h3 := FixedWindow.lt_start_add policy.windowMs_pos u
      have hne : e.value.windowStartMs ≠ FixedWindow.start policy.windowMs u := by omega
      simp [windowCount, hne]

theorem WindowStored.next {st : Option (StoredState FixedWindowState)} {expiresAt : ℤ}
    (ha : policy.algorithm = .fixedWindow) (hw : WindowStored x policy t st s.admitted)
    (he : FixedWindow.start policy.windowMs t + policy.windowMs ≤ expiresAt) :
    WindowStored x policy t (some ⟨⟨FixedWindow.start policy.windowMs t,
      if FixedWindow.used policy.windowMs s.admitted t < policy.rate then
        FixedWindow.used policy.windowMs s.admitted t + 1
      else FixedWindow.used policy.windowMs s.admitted t⟩, expiresAt⟩)
      (s.next policy t).admitted where
  past e hm := by rw [← Option.mem_some_iff.1 hm]
  expiry _ e hm := by
    rw [← Option.mem_some_iff.1 hm]
    exact he
  count u hu := by
    rw [Ideal.used_next ha]
    by_cases hs : FixedWindow.start policy.windowMs t = FixedWindow.start policy.windowMs u
    · simp [windowCount, hs, FixedWindow.used_congr s.admitted hs]
    · -- nothing stored at `t` can be the count of a later window
      have hzero : FixedWindow.used policy.windowMs s.admitted u = 0 := by
        rw [← hw.count u hu]
        cases st with
        | none => rfl
        | some e =>
          have h1 := hw.past e rfl
          have h2 := FixedWindow.start_mono policy.windowMs_pos hu
          have hne : e.value.windowStartMs ≠ FixedWindow.start policy.windowMs u := by omega
          simp [windowCount, hne]
      simp [windowCount, hs, hzero]

/-- What may be stored for a token bucket: nothing once the bucket is full, or a state that holds as
many tokens as the ideal bucket. -/
structure BucketStored (x : Expiry) (policy : PolicyBase) (now : ℤ)
    (st : Option (StoredState TokenBucketState)) (b : Bucket.State ℚ) : Prop where
  /-- The token count is in range. -/
  wf : Bucket.WF policy.bucketParams (st.map fun e => (e.value.tokens, e.value.lastRefillMs)) now
  /-- It holds as much as the ideal bucket. -/
  level : Bucket.level policy.bucketParams
    (st.map fun e => (e.value.tokens, e.value.lastRefillMs)) now =
      Bucket.level policy.bucketParams b now
  /-- The state outlives the refill. -/
  expiry : x = .enforced → ∀ e ∈ st, e.value.lastRefillMs +
    ⌈((policy.headerLimit : ℚ) - e.value.tokens) / policy.refillPerMs⌉ ≤ e.expiresAtMs

theorem BucketStored.later {st : Option (StoredState TokenBucketState)} {b : Bucket.State ℚ}
    (hb : BucketStored x policy now st b) (hst : now ≤ t) : BucketStored x policy t st b :=
  ⟨hb.wf.mono hst, Bucket.level_congr hb.level hst, hb.expiry⟩

theorem BucketStored.evict {dict : StateDict TokenBucketState} {key : String} {b : Bucket.State ℚ}
    (hb : BucketStored x policy now (dict key) b) (hst : now ≤ t) :
    BucketStored x policy t (dict.evict x t key) b := by
  rcases dict.evict_eq_or x t key with he | ⟨he, hx, hgone⟩ <;> rw [he]
  · exact hb.later hst
  · refine ⟨Bucket.wf_none, ?_, fun _ e hm => by cases hm⟩
    rw [← Bucket.level_congr hb.level hst]
    cases hk : dict key with
    | none => rfl
    | some e =>
      have h1 := hb.expiry hx e hk
      have h2 := hgone e hk
      have hfull : ((policy.headerLimit : ℚ) - e.value.tokens) / policy.refillPerMs ≤
          ((t - e.value.lastRefillMs : ℤ) : ℚ) := (Int.le_ceil _).trans (by exact_mod_cast by omega)
      rw [Option.map_some, Bucket.level_eq_capacity hfull]
      rfl

/-- The dictionaries of a local limiter, seen from `now` on, hold for `policy` under `key` what the
ideal limiter `s` does. -/
def LocalRepresents (x : Expiry) (policy : PolicyBase) (key : String) (now : ℤ)
    (self : LocalFallbackLimiter) (s : Ideal) : Prop :=
  match policy.algorithm with
  | .fixedWindow => WindowStored x policy now (self.fixedWindows key) s.admitted
  | .slidingWindowLog => x = .ignored → ∀ t, now ≤ t →
      SlidingLog.live policy.windowMs (((self.slidingWindows key).map (·.value)).getD []) t =
        SlidingLog.live policy.windowMs s.admitted t
  | .tokenBucket => BucketStored x policy now (self.tokenBuckets key) s.bucket

section LocalRepresents

variable {self : LocalFallbackLimiter} {key : String} {ttl : ℤ}

theorem localRepresents_fixedWindow (ha : policy.algorithm = .fixedWindow) :
    LocalRepresents x policy key now self s ↔
      WindowStored x policy now (self.fixedWindows key) s.admitted := by
  simp only [LocalRepresents, ha]

theorem localRepresents_slidingWindowLog (ha : policy.algorithm = .slidingWindowLog) :
    LocalRepresents x policy key now self s ↔ (x = .ignored → ∀ t, now ≤ t →
      SlidingLog.live policy.windowMs (((self.slidingWindows key).map (·.value)).getD []) t =
        SlidingLog.live policy.windowMs s.admitted t) := by
  simp only [LocalRepresents, ha]

theorem localRepresents_tokenBucket (ha : policy.algorithm = .tokenBucket) :
    LocalRepresents x policy key now self s ↔
      BucketStored x policy now (self.tokenBuckets key) s.bucket := by
  simp only [LocalRepresents, ha]

theorem localRepresents_empty (now : ℤ) : LocalRepresents x policy key now .empty .empty := by
  cases ha : policy.algorithm with
  | fixedWindow =>
    rw [localRepresents_fixedWindow ha]
    exact ⟨fun _ _ => rfl, fun e hm => (by cases hm), fun _ e hm => (by cases hm)⟩
  | slidingWindowLog =>
    rw [localRepresents_slidingWindowLog ha]
    exact fun _ _ _ => rfl
  | tokenBucket =>
    rw [localRepresents_tokenBucket ha]
    exact ⟨Bucket.wf_none, rfl, fun _ e hm => (by cases hm)⟩

theorem LocalRepresents.later (hr : LocalRepresents x policy key now self s) (hst : now ≤ t) :
    LocalRepresents x policy key t self s := by
  cases ha : policy.algorithm with
  | fixedWindow =>
    rw [localRepresents_fixedWindow ha] at hr ⊢
    exact hr.later hst
  | slidingWindowLog =>
    rw [localRepresents_slidingWindowLog ha] at hr ⊢
    exact fun hx u hu => hr hx u (hst.trans hu)
  | tokenBucket =>
    rw [localRepresents_tokenBucket ha] at hr ⊢
    exact hr.later hst

theorem LocalRepresents.evict (hr : LocalRepresents x policy key now self s) (hst : now ≤ t) :
    LocalRepresents x policy key t (self.evictExpired x t) s := by
  cases ha : policy.algorithm with
  | fixedWindow =>
    rw [localRepresents_fixedWindow ha] at hr ⊢
    exact hr.evict hst
  | slidingWindowLog =>
    rw [localRepresents_slidingWindowLog ha] at hr ⊢
    rintro rfl u hu
    exact hr rfl u (hst.trans hu)
  | tokenBucket =>
    rw [localRepresents_tokenBucket ha] at hr ⊢
    exact hr.evict hst

theorem LocalRepresents.applyFixedWindow (ha : policy.algorithm = .fixedWindow)
    (hr : LocalRepresents x policy key t self s) :
    (self.applyFixedWindow ttl policy key t).1 =
        (decisionOf policy.headerLimit (s.verdict policy t)).fields ∧
      LocalRepresents x policy key t (self.applyFixedWindow ttl policy key t).2
        (s.next policy t) := by
  rw [localRepresents_fixedWindow ha] at hr ⊢
  obtain ⟨hv, hst⟩ := applyFixedWindow_eq (hr.count t le_rfl)
  refine ⟨?_, ?_⟩
  · rw [Ideal.verdict_fixedWindow ha, ← hv, ← toDecision_eq]
    rfl
  · simp only [LocalFallbackLimiter.applyFixedWindow, Function.update_self]
    rw [hst]
    exact hr.next ha (le_max_left _ _)

theorem LocalRepresents.applySlidingWindow (ha : policy.algorithm = .slidingWindowLog)
    (hr : LocalRepresents .ignored policy key t self s) :
    (self.applySlidingWindow ttl policy key t).1 =
        (decisionOf policy.headerLimit (s.verdict policy t)).fields ∧
      LocalRepresents .ignored policy key t (self.applySlidingWindow ttl policy key t).2
        (s.next policy t) := by
  rw [localRepresents_slidingWindowLog ha] at hr ⊢
  obtain ⟨hv, hst⟩ := applySlidingWindowLog_eq (hr rfl t le_rfl)
  refine ⟨?_, fun _ u hu => ?_⟩
  · rw [Ideal.verdict_slidingWindowLog ha, ← hv, ← toDecision_eq]
    rfl
  · simp only [LocalFallbackLimiter.applySlidingWindow, Function.update_self, Option.map_some,
      Option.getD_some, Ideal.next_slidingWindowLog ha]
    rw [hst, SlidingLog.live_step _ hu]

theorem LocalRepresents.applyTokenBucket (ha : policy.algorithm = .tokenBucket)
    (httl : 0 ≤ ttl) (hr : LocalRepresents x policy key t self s) :
    (self.applyTokenBucket ttl policy key t).1 =
        (decisionOf policy.headerLimit (s.verdict policy t)).fields ∧
      LocalRepresents x policy key t (self.applyTokenBucket ttl policy key t).2
        (s.next policy t) := by
  rw [localRepresents_tokenBucket ha] at hr ⊢
  have hmap : ((self.tokenBuckets key).map (·.value)).map (fun e => (e.tokens, e.lastRefillMs)) =
      (self.tokenBuckets key).map fun e => (e.value.tokens, e.value.lastRefillMs) := by
    rw [Option.map_map]
    rfl
  have hw := hr.wf
  have hl := hr.level
  rw [← hmap] at hw hl
  obtain ⟨hv, hst⟩ := applyTokenBucket_eq hw hl
  have hbucket : (s.next policy t).bucket = (Bucket.step policy.bucketParams s.bucket t).2 := by
    simp only [Ideal.next, ha]
  refine ⟨?_, ?_⟩
  · rw [Ideal.verdict_tokenBucket ha, ← hv, ← toDecision_eq]
    rfl
  · rw [hbucket]
    simp only [LocalFallbackLimiter.applyTokenBucket, Function.update_self]
    refine ⟨?_, ?_, fun _ e he => ?_⟩
    · have := hw.step (t := t) le_rfl
      rw [Bucket.step_congr hl, ← hst] at this
      exact this
    · rw [← hst]
      rfl
    · rw [← Option.mem_some_iff.1 he, div_refillPerSecond]
      have hlast := congrArg (Option.map Prod.snd) hst
      rw [Bucket.step_snd_time] at hlast
      have hlast' := Option.some_inj.1 hlast
      simp only at hlast' ⊢
      rw [hlast']
      exact le_max_of_le_left (by omega)

/-- **One call of the local limiter is one step of the ideal limiter.** A log is the exception when
states are evicted, since it may lose events that still count. -/
theorem LocalRepresents.apply {policy : PolicyRead} {identity : RequestIdentity}
    (hr : LocalRepresents x policy.toPolicyBase (buildRateLimitKey policy identity) now self s)
    (ttl : ℤ) (hst : now ≤ t) (hx : policy.algorithm = .slidingWindowLog → x = .ignored) :
    (self.apply x ttl policy identity t).1 =
        (decisionOf policy.headerLimit (s.verdict policy.toPolicyBase t)).fields ∧
      LocalRepresents x policy.toPolicyBase (buildRateLimitKey policy identity) t
        (self.apply x ttl policy identity t).2 (s.next policy.toPolicyBase t) := by
  have he := hr.evict hst
  rw [LocalFallbackLimiter.apply]
  split
  · exact he.applyFixedWindow ‹_›
  · obtain rfl := hx ‹_›
    exact he.applySlidingWindow ‹_›
  · exact he.applyTokenBucket ‹_› (by omega)

/-- `apply` leaves the other keys as eviction left them. -/
theorem LocalFallbackLimiter.apply_of_ne (self : LocalFallbackLimiter) (x : Expiry) (ttl t : ℤ)
    {q : PolicyRead} {identity : RequestIdentity} (hne : key ≠ buildRateLimitKey q identity) :
    (self.apply x ttl q identity t).2.fixedWindows key =
        (self.evictExpired x t).fixedWindows key ∧
      (self.apply x ttl q identity t).2.slidingWindows key =
        (self.evictExpired x t).slidingWindows key ∧
      (self.apply x ttl q identity t).2.tokenBuckets key =
        (self.evictExpired x t).tokenBuckets key := by
  simp only [apply]
  split <;> simp only [applyFixedWindow, applySlidingWindow, applyTokenBucket,
    Function.update_of_ne hne, and_self]

/-- What is stored under other keys is at most evicted. -/
theorem LocalRepresents.apply_other {q : PolicyRead} {identity : RequestIdentity}
    (hr : LocalRepresents x policy key now self s) (ttl : ℤ) (hst : now ≤ t)
    (hne : key ≠ buildRateLimitKey q identity) :
    LocalRepresents x policy key t (self.apply x ttl q identity t).2 s := by
  have he := hr.evict hst
  obtain ⟨hf, hs, hb⟩ := self.apply_of_ne x ttl t hne
  rw [LocalRepresents] at he ⊢
  rwa [hf, hs, hb]

end LocalRepresents

end RateLimiter
