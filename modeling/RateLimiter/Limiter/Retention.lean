import RateLimiter.Lib.Transition
import RateLimiter.Limiter.LocalFallback

/-!
# What the local limiter keeps

`apply` evicts what has expired, of all keys, before it stores a state.  How long that one is kept
depends on its policy and on `local_fallback_state_ttl_seconds` only (`PolicyBase.keptMs`), so a
limiter that has had no call for so long holds nothing that its next call would not evict
(`LocalFallbackLimiter.LentTo.evictExpired_eq_empty`).
-/

set_option autoImplicit false

namespace RateLimiter

/-- For how long a state is stored, at most, counted from the call that has stored it. -/
def PolicyBase.keptMs (policy : PolicyBase) (stateTtlMs : ℤ) : ℤ :=
  match policy.algorithm with
  | .fixedWindow | .slidingWindowLog => max policy.windowMs stateTtlMs
  | .tokenBucket => ⌈(policy.headerLimit : ℚ) / policy.refillPerMs⌉ + stateTtlMs

/-! ## Dictionaries -/

/-- Every state is stored for one of the `users`, under its key, at `now` for no longer than its
policy allows, and `fits`. -/
def StateDict.LentTo {α : Type} (users : PolicyRead → RequestIdentity → Prop) (fits : α → Prop)
    (stateTtlMs now : ℤ) (dict : StateDict α) : Prop :=
  ∀ key, ∀ state ∈ dict key, fits state.value ∧ ∃ p a, users p a ∧ key = buildRateLimitKey p a ∧
    state.expiresAtMs ≤ now + p.keptMs stateTtlMs

namespace StateDict.LentTo

variable {α : Type} {users users' : PolicyRead → RequestIdentity → Prop} {fits fits' : α → Prop}
  {stateTtlMs now now' : ℤ} {dict : StateDict α}

theorem empty : LentTo users fits stateTtlMs now fun _ => none := fun _ _ h => by cases h

theorem mono (h : dict.LentTo users fits stateTtlMs now) (hle : now ≤ now')
    (husers : ∀ p a, users p a → users' p a) (hfits : ∀ value, fits value → fits' value) :
    dict.LentTo users' fits' stateTtlMs now' := by
  intro key state hstate
  obtain ⟨hvalue, p, a, hpa, hkey, hexpires⟩ := h key state hstate
  exact ⟨hfits _ hvalue, p, a, husers p a hpa, hkey, by omega⟩

theorem evict (h : dict.LentTo users fits stateTtlMs now) (t : ℤ) :
    (dict.evict .enforced t).LentTo users fits stateTtlMs now :=
  fun key state hstate => h key state (Option.mem_filter_iff.1 hstate).1

theorem put {policy : PolicyRead} {identity : RequestIdentity} {state : StoredState α}
    (h : dict.LentTo users fits stateTtlMs now) (huser : users policy identity)
    (hvalue : fits state.value) (hexpires : state.expiresAtMs ≤ now + policy.keptMs stateTtlMs) :
    LentTo users fits stateTtlMs now
      (Function.update dict (buildRateLimitKey policy identity) (some state)) := by
  intro key state' hstate
  rcases Transition.mem_update_some hstate with ⟨rfl, rfl⟩ | hstate
  · exact ⟨hvalue, policy, identity, huser, rfl, hexpires⟩
  · exact h key state' hstate

theorem evict_eq_empty {most : ℤ} (h : dict.LentTo users fits stateTtlMs now)
    (hmost : ∀ p a, users p a → p.keptMs stateTtlMs ≤ most) (hnow : now + most ≤ now') :
    dict.evict .enforced now' = fun _ => none := by
  funext key
  refine Option.filter_eq_none_iff.2 fun state hstate => ?_
  obtain ⟨-, p, a, hpa, -, hexpires⟩ := h key state hstate
  have hkept := hmost p a hpa
  simp only [decide_eq_true_eq, not_lt]
  omega

end StateDict.LentTo

/-! ## The algorithms -/

theorem applySlidingWindowLog_bounds {now : ℤ} {events : List ℤ} (limit windowSeconds : ℤ)
    (hpast : ∀ e ∈ events, e ≤ now) :
    let out := applySlidingWindowLog now events limit windowSeconds
    (∀ e ∈ out.1, e ≤ now) ∧
      ((out.1.length : ℤ) ≤ limit ∨ out.1.length ≤ events.length) ∧
      out.2.resetAtMs ≤ now + windowSeconds * 1000 := by
  intro out
  have hactive : ∀ e ∈ out.1, e ≤ now := by
    intro e he
    simp only [out, applySlidingWindowLog] at he
    split at he
    · rcases List.mem_append.1 he with he | he
      · exact hpast e (List.mem_filter.1 he).1
      · exact (List.mem_singleton.1 he).le
    · exact hpast e (List.mem_filter.1 he).1
  refine ⟨hactive, ?_, ?_⟩
  · have hle := List.length_filter_le (fun e : ℤ => now - windowSeconds * 1000 < e) events
    simp only [out, applySlidingWindowLog]
    split
    · rename_i hallowed
      rw [decide_eq_true_eq] at hallowed
      rw [List.length_append, List.length_singleton]
      exact Or.inl (by omega)
    · exact Or.inr hle
  · have hreset : out.2.resetAtMs = out.1.head?.getD now + windowSeconds * 1000 := rfl
    have holdest : out.1.head?.getD now ≤ now := by
      cases hhead : out.1.head? with
      | none => exact le_rfl
      | some e => exact hactive e (List.mem_of_mem_head? hhead)
    omega

theorem applyTokenBucket_tokens {now : ℤ} {state : Option TokenBucketState} {capacity : ℤ}
    {refillRatePerSecond : ℚ} (hcapacity : 0 ≤ capacity) (hrate : 0 ≤ refillRatePerSecond)
    (hstate : ∀ s ∈ state, 0 ≤ s.tokens) :
    0 ≤ (applyTokenBucket now state capacity refillRatePerSecond).1.tokens := by
  have hcapacity' : (0 : ℚ) ≤ capacity := by exact_mod_cast hcapacity
  have htokens : 0 ≤ (state.getD ⟨capacity, now⟩).tokens := by
    cases state with
    | none => exact hcapacity'
    | some s => exact hstate s rfl
  have helapsed : (0 : ℚ) ≤ (max 0 (now - (state.getD ⟨capacity, now⟩).lastRefillMs) : ℤ) := by
    exact_mod_cast le_max_left _ _
  simp only [applyTokenBucket]
  split
  · rename_i hallowed
    rw [decide_eq_true_eq] at hallowed
    exact sub_nonneg.2 hallowed
  · exact le_min hcapacity' (by positivity)

/-! ## The limiter -/

/-- What the limiter keeps is stored for the `users`: the policies and identities whose calls it has
served. -/
structure LocalFallbackLimiter.LentTo (users : PolicyRead → RequestIdentity → Prop)
    (stateTtlMs now : ℤ) (limiter : LocalFallbackLimiter) : Prop where
  fixedWindows : limiter.fixedWindows.LentTo users (fun _ => True) stateTtlMs now
  /-- A log is of the past and no longer than some quota. -/
  slidingWindows : limiter.slidingWindows.LentTo users
    (fun events => (∀ e ∈ events, e ≤ now) ∧ ∃ p a, users p a ∧ (events.length : ℤ) ≤ p.rate)
    stateTtlMs now
  /-- No bucket is overdrawn. -/
  tokenBuckets : limiter.tokenBuckets.LentTo users (fun state => 0 ≤ state.tokens) stateTtlMs now

namespace LocalFallbackLimiter.LentTo

variable {users users' : PolicyRead → RequestIdentity → Prop} {stateTtlMs now now' nowMs : ℤ}
  {self : LocalFallbackLimiter} {policy : PolicyRead} {identity : RequestIdentity}

theorem empty : LentTo users stateTtlMs now .empty := ⟨.empty, .empty, .empty⟩

theorem mono (h : self.LentTo users stateTtlMs now) (hle : now ≤ now')
    (husers : ∀ p a, users p a → users' p a) : self.LentTo users' stateTtlMs now' where
  fixedWindows := h.fixedWindows.mono hle husers fun _ h => h
  slidingWindows := h.slidingWindows.mono hle husers fun _ ⟨hpast, p, a, hpa, hlen⟩ =>
    ⟨fun e he => (hpast e he).trans hle, p, a, husers p a hpa, hlen⟩
  tokenBuckets := h.tokenBuckets.mono hle husers fun _ h => h

theorem evictExpired (h : self.LentTo users stateTtlMs now) (t : ℤ) :
    (self.evictExpired .enforced t).LentTo users stateTtlMs now :=
  ⟨h.fixedWindows.evict t, h.slidingWindows.evict t, h.tokenBuckets.evict t⟩

theorem applyFixedWindow (ha : policy.algorithm = .fixedWindow)
    (h : self.LentTo users stateTtlMs nowMs) (huser : users policy identity) :
    (self.applyFixedWindow stateTtlMs policy.toPolicyBase (buildRateLimitKey policy identity)
      nowMs).2.LentTo users stateTtlMs nowMs := by
  refine { h with fixedWindows := h.fixedWindows.put huser trivial ?_ }
  have hkept : policy.keptMs stateTtlMs = max policy.windowMs stateTtlMs := by
    rw [PolicyBase.keptMs, ha]
  have hreset : (RateLimiter.applyFixedWindow nowMs
      ((self.fixedWindows (buildRateLimitKey policy identity)).map (·.value)) policy.rate
      policy.windowSeconds).2.resetAtMs = Quota.FixedWindow.start policy.windowMs nowMs +
        policy.windowMs := (applyFixedWindow_count rfl).2.2
  have hstart := Quota.FixedWindow.start_le policy.windowMs_pos nowMs
  dsimp only
  rw [hreset, hkept]
  omega

theorem applySlidingWindow (ha : policy.algorithm = .slidingWindowLog)
    (h : self.LentTo users stateTtlMs nowMs) (huser : users policy identity) :
    (self.applySlidingWindow stateTtlMs policy.toPolicyBase (buildRateLimitKey policy identity)
      nowMs).2.LentTo users stateTtlMs nowMs := by
  -- The log that is there is of the past, and so is the next one.
  have hevents : ∀ events, events = ((self.slidingWindows (buildRateLimitKey policy identity)).map
      (·.value)).getD [] → (∀ e ∈ events, e ≤ nowMs) ∧
        ∃ p a, users p a ∧ (events.length : ℤ) ≤ p.rate := by
    rintro events rfl
    cases hstored : self.slidingWindows (buildRateLimitKey policy identity) with
    | none => exact ⟨by simp, policy, identity, huser, by simpa using policy.rate_pos.le⟩
    | some state => exact (h.slidingWindows _ state hstored).1
  obtain ⟨hpast, p, a, hpa, hlen⟩ := hevents _ rfl
  obtain ⟨hpast', hlen', hreset⟩ := applySlidingWindowLog_bounds policy.rate policy.windowSeconds
    hpast
  have hkept : policy.keptMs stateTtlMs = max policy.windowMs stateTtlMs := by
    rw [PolicyBase.keptMs, ha]
  refine { h with slidingWindows := h.slidingWindows.put huser ⟨hpast', ?_⟩ ?_ }
  · rcases hlen' with hlen' | hlen'
    · exact ⟨policy, identity, huser, hlen'⟩
    · exact ⟨p, a, hpa, (Int.ofNat_le.2 hlen').trans hlen⟩
  · dsimp only
    rw [hkept, PolicyBase.windowMs]
    omega

theorem applyTokenBucket (ha : policy.algorithm = .tokenBucket) (httl : 1000 ≤ stateTtlMs)
    (h : self.LentTo users stateTtlMs nowMs) (huser : users policy identity) :
    (self.applyTokenBucket stateTtlMs policy.toPolicyBase (buildRateLimitKey policy identity)
      nowMs).2.LentTo users stateTtlMs nowMs := by
  have hrate : (0 : ℚ) < policy.rate / policy.windowSeconds :=
    div_pos (by exact_mod_cast policy.rate_pos) (by exact_mod_cast policy.windowSeconds_pos)
  have htokens : 0 ≤ (RateLimiter.applyTokenBucket nowMs
      ((self.tokenBuckets (buildRateLimitKey policy identity)).map (·.value)) policy.headerLimit
      (policy.rate / policy.windowSeconds)).1.tokens := by
    refine applyTokenBucket_tokens policy.headerLimit_pos.le hrate.le fun s hs => ?_
    obtain ⟨state, hstate, rfl⟩ := Option.map_eq_some_iff.1 hs
    exact (h.tokenBuckets _ state hstate).1
  refine { h with tokenBuckets := h.tokenBuckets.put huser htokens ?_ }
  -- An empty bucket takes longest to refill.
  have hrefill : ∀ tokens : ℚ, 0 ≤ tokens →
      ⌈((policy.headerLimit : ℚ) - tokens) / (policy.rate / policy.windowSeconds) * 1000⌉ ≤
        ⌈(policy.headerLimit : ℚ) / policy.refillPerMs⌉ := by
    intro tokens htokens
    rw [div_refillPerSecond]
    have hpos := policy.refillPerMs_pos
    gcongr
    exact sub_le_self _ htokens
  have hle := hrefill _ htokens
  have hceil : 0 ≤ ⌈(policy.headerLimit : ℚ) / policy.refillPerMs⌉ := by
    have hpos := policy.refillPerMs_pos
    have hcapacity : (0 : ℚ) ≤ policy.headerLimit := by exact_mod_cast policy.headerLimit_pos.le
    positivity
  have hkept : policy.keptMs stateTtlMs =
      ⌈(policy.headerLimit : ℚ) / policy.refillPerMs⌉ + stateTtlMs := by
    rw [PolicyBase.keptMs, ha]
  dsimp only
  rw [hkept]
  omega

/-- **One call more.**  It is one of the `users` that the call is for. -/
theorem apply {stateTtlSeconds : ℤ} (h : self.LentTo users (max 1 stateTtlSeconds * 1000) now)
    (hle : now ≤ nowMs) (huser : users policy identity) :
    (self.apply .enforced stateTtlSeconds policy identity nowMs).2.LentTo users
      (max 1 stateTtlSeconds * 1000) nowMs := by
  have hevicted := (h.evictExpired nowMs).mono hle fun _ _ hpa => hpa
  rw [LocalFallbackLimiter.apply]
  split
  · exact hevicted.applyFixedWindow ‹_› huser
  · exact hevicted.applySlidingWindow ‹_› huser
  · exact hevicted.applyTokenBucket ‹_› (by omega) huser

/-- **What is on loan is given back.** Once every loan is over, one eviction leaves nothing. -/
theorem evictExpired_eq_empty {most : ℤ} (h : self.LentTo users stateTtlMs now)
    (hmost : ∀ p a, users p a → p.keptMs stateTtlMs ≤ most) (hnow : now + most ≤ now') :
    self.evictExpired .enforced now' = .empty := by
  rw [LocalFallbackLimiter.evictExpired, h.fixedWindows.evict_eq_empty hmost hnow,
    h.slidingWindows.evict_eq_empty hmost hnow, h.tokenBuckets.evict_eq_empty hmost hnow]
  rfl

end LocalFallbackLimiter.LentTo

end RateLimiter
