import RateLimiter.Service.Invariant
import Mathlib.Algebra.BigOperators.Group.Finset.Basic
import Mathlib.Algebra.BigOperators.Ring.Finset
import Mathlib.Algebra.Order.BigOperators.Group.Finset
import Mathlib.Data.Fintype.Card

/-!
# The quota of a fleet

Without the local fallback and with a policy that fails closed, only Redis admits requests, and the
fleet as a whole keeps the quota (`fail_closed_quota`).  With the local fallback each of the `N`
instances may admit as much again on its own, and no more: what the fleet admits is the sum of what
`N + 1` limiters admit, each of which keeps the quota (`degraded_quota`).
-/

set_option autoImplicit false

namespace RateLimiter

open Quota

variable {ι κ : Type} [DecidableEq ι] [DecidableEq κ] {C : Catalog ι} {settings : Settings}
  {f : Fleet ι κ}

/-! ## One Redis -/

/-- Without a fallback, what a fail-closed policy admits Redis has admitted. -/
theorem Fleet.Sound.source_eq_redis (h : f.Sound C settings)
    (hfb : settings.enableLocalFallbackLimiter = false) {a : Answer ι κ} (ha : a ∈ f.answers)
    (hfc : (C.policy a.policy).failureMode = .failClosed) (hallowed : a.decision.allowed = true) :
    ∃ ms, a.source = .redis ms := by
  have hj := h.justified a ha
  rw [Answer.Justified] at hj
  split at hj
  · exact ⟨_, ‹_›⟩
  · rw [hfb] at hj
    cases hj
  · obtain ⟨-, s, hd⟩ := hj
    rw [hd, buildDegradedDecision, hfc] at hallowed
    cases hallowed

/-- **Fail-closed, the fleet keeps the quota.**  Whatever is interleaved, retried, lost or late, the
requests of a policy that were admitted were admitted by Redis, and they stay within the policy's
quota at the times of the scripts that admitted them. -/
theorem fail_closed_quota (C : Catalog ι) (settings : Settings)
    (hfb : settings.enableLocalFallbackLimiter = false) {es : List (Event ι κ)}
    (hr : Transition.run (Fleet.step C settings) (.initial ι κ) es = some f) (i : ι)
    (hfc : (C.policy i).failureMode = .failClosed) :
    (∀ a ∈ f.answers, a.policy = i → a.decision.allowed = true → ∃ ms, a.source = .redis ms) ∧
      Within (C.policy i).toPolicyBase (f.stamps i fun _ => true) := by
  have h := Fleet.sound_of_run hr
  have hsource : ∀ a ∈ f.answers, a.policy = i → a.decision.allowed = true →
      ∃ ms, a.source = .redis ms := by
    rintro a ha rfl hallowed
    exact h.source_eq_redis hfb ha hfc hallowed
  refine ⟨hsource, ?_⟩
  obtain ⟨s, -, hsound, hsub⟩ := h.redis i
  have hstamps : f.stamps i (fun _ => true) = f.stamps i Source.isRedis := by
    refine List.filterMap_congr fun a ha => ?_
    by_cases hadm : a.policy = i ∧ a.decision.allowed = true
    · obtain ⟨ms, hms⟩ := hsource a ha hadm.1 hadm.2
      simp [Answer.stamp, hms, Source.isRedis]
    · rw [Answer.stamp, Answer.stamp, if_neg fun h' => hadm ⟨h'.1, h'.2.1⟩,
        if_neg fun h' => hadm ⟨h'.1, h'.2.1⟩]
  rw [hstamps]
  exact hsound.within.mono hsub.subperm

/-- Two instances, a lost reply, a retry that runs the script again and a second call. -/
theorem fail_closed_quota_sample :
    ∃ f, Transition.run (Fleet.step Catalog.sample ⟨1, false, 120⟩) (.initial _ Bool)
        [.begin 0 false .fixedWindow .sample, .lose 0 (.atSecond 30) "",
          .begin 1 true .fixedWindow .sample, .reply 1 (.atSecond 31) "",
          .reply 0 (.atSecond 32) ""] = some f ∧
      Within (Catalog.sample.policy .fixedWindow).toPolicyBase
        (f.stamps .fixedWindow fun _ => true) :=
  Transition.exists_run_of_isSome (by decide +kernel) fun _ hf =>
    (fail_closed_quota Catalog.sample _ rfl hf .fixedWindow (by decide)).2

/-! ## Redis and the local limiters -/

theorem countP_filterMap_cons {α : Type} (g : α → Option ℤ) (P : ℤ → Bool) (a : α) (as : List α) :
    ((a :: as).filterMap g).countP P = (g a).toList.countP P + (as.filterMap g).countP P := by
  rw [List.filterMap_cons]
  cases h : g a with
  | none => simp
  | some t => simp [List.countP_cons, Nat.add_comm]

/-- A stamp comes from Redis or from one instance. -/
theorem countP_stamp [Fintype κ] (a : Answer ι κ) (i : ι) (P : ℤ → Bool) :
    (a.stamp i fun _ => true).toList.countP P = (a.stamp i Source.isRedis).toList.countP P +
      ∑ j, (a.stamp i (Source.isLocal j)).toList.countP P := by
  cases hs : a.source with
  | redis ms => simp [Answer.stamp, hs, Source.isRedis, Source.isLocal]
  | degraded => simp [Answer.stamp, hs, Source.ms]
  | localLimiter o ms =>
    have hlocal : ∀ j, a.stamp i (Source.isLocal j) =
        if o = j then a.stamp i (fun _ => true) else none := by
      intro j
      by_cases hj : o = j <;> simp [Answer.stamp, hs, Source.isLocal, hj]
    have hredis : a.stamp i Source.isRedis = none := by simp [Answer.stamp, hs, Source.isRedis]
    have hsum : ∀ j, (a.stamp i (Source.isLocal j)).toList.countP P =
        if o = j then (a.stamp i fun _ => true).toList.countP P else 0 := by
      intro j
      rw [hlocal]
      split <;> rfl
    simp [hsum, hredis]

/-- Every stamp comes from Redis or from one of the instances. -/
theorem countP_stamps [Fintype κ] (f : Fleet ι κ) (i : ι) (P : ℤ → Bool) :
    (f.stamps i fun _ => true).countP P = (f.stamps i Source.isRedis).countP P +
      ∑ j, (f.stamps i (Source.isLocal j)).countP P := by
  simp only [Fleet.stamps]
  induction f.answers with
  | nil => simp
  | cons a as ih =>
    simp only [countP_filterMap_cons, ih, countP_stamp a, Finset.sum_add_distrib]
    omega

/-- What `N + 1` limiters admit, each at most `b`. -/
theorem countP_stamps_le {K : Type} [Semiring K] [PartialOrder K] [IsOrderedRing K] [Fintype κ]
    (f : Fleet ι κ) (i : ι) (P : ℤ → Bool) {b : K}
    (hredis : ((f.stamps i Source.isRedis).countP P : K) ≤ b)
    (hlocal : ∀ j, ((f.stamps i (Source.isLocal j)).countP P : K) ≤ b) :
    ((f.stamps i fun _ => true).countP P : K) ≤ (Fintype.card κ + 1) * b := by
  rw [countP_stamps]
  push_cast
  calc ((f.stamps i Source.isRedis).countP P : K) +
        ∑ j, ((f.stamps i (Source.isLocal j)).countP P : K)
      ≤ b + ∑ _j : κ, b := add_le_add hredis (Finset.sum_le_sum fun j _ => hlocal j)
    _ = (Fintype.card κ + 1) * b := by
      rw [Finset.sum_const, Finset.card_univ, nsmul_eq_mul, add_mul, one_mul, add_comm]

/-- **With the local fallback, `N` instances and Redis admit `N + 1` quotas at most.** -/
theorem degraded_quota [Fintype κ] (C : Catalog ι) (settings : Settings)
    (hfb : settings.enableLocalFallbackLimiter = true) {es : List (Event ι κ)}
    (hr : Transition.run (Fleet.step C settings) (.initial ι κ) es = some f) (i : ι) :
    (∀ a ∈ f.answers, a.source ≠ .degraded) ∧
      ((C.policy i).algorithm = .fixedWindow → ∀ k : ℤ,
        (countIco (f.stamps i fun _ => true) (k * (C.policy i).windowMs)
          ((k + 1) * (C.policy i).windowMs) : ℤ) ≤ (Fintype.card κ + 1) * (C.policy i).rate) ∧
      ((C.policy i).algorithm = .tokenBucket → ∀ a b : ℤ, a ≤ b →
        (countIcc (f.stamps i fun _ => true) a b : ℚ) ≤
          (Fintype.card κ + 1) *
            ((C.policy i).headerLimit + ((b - a : ℤ) : ℚ) * (C.policy i).refillPerMs)) := by
  have h := Fleet.sound_of_run hr
  obtain ⟨s, -, hsound, hsub⟩ := h.redis i
  have hredis := hsound.within.mono hsub.subperm
  refine ⟨fun a ha hd => ?_, fun halg k => ?_, fun halg a b hab => ?_⟩
  · have hj := h.justified a ha
    rw [Answer.Justified, hd] at hj
    rw [hfb] at hj
    cases hj.1
  · have hlocal := fun j => h.limiter j i (by rw [halg]; decide)
    rw [Within, halg] at hredis
    refine countP_stamps_le f i _ (hredis k) fun j => ?_
    obtain ⟨s', -, hsound', hsub'⟩ := hlocal j
    have hw := hsound'.within.mono hsub'.subperm
    rw [Within, halg] at hw
    exact hw k
  · have hlocal := fun j => h.limiter j i (by rw [halg]; decide)
    rw [Within, halg] at hredis
    refine countP_stamps_le f i _ (hredis a b hab) fun j => ?_
    obtain ⟨s', -, hsound', hsub'⟩ := hlocal j
    have hw := hsound'.within.mono hsub'.subperm
    rw [Within, halg] at hw
    exact hw a b hab

/-- One instance falls back to its local limiter, the other one reaches Redis. -/
theorem degraded_quota_sample :
    ∃ f, Transition.run (Fleet.step Catalog.sample ⟨0, true, 120⟩) (.initial _ Bool)
        [.begin 0 false .tokenBucket .sample, .fail 0, .recover 0 30000,
          .begin 1 true .tokenBucket .sample, .reply 1 (.atSecond 31) ""] = some f ∧
      (countIcc (f.stamps .tokenBucket fun _ => true) 30000 31000 : ℚ) ≤
        (Fintype.card Bool + 1) * ((Catalog.sample.policy .tokenBucket).headerLimit +
          ((31000 - 30000 : ℤ) : ℚ) * (Catalog.sample.policy .tokenBucket).refillPerMs) :=
  Transition.exists_run_of_isSome (by decide +kernel) fun _ hf =>
    (degraded_quota Catalog.sample _ rfl hf .tokenBucket).2.2 (by decide) _ _ (by decide)

end RateLimiter
