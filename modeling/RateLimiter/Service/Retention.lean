import RateLimiter.Limiter.Retention
import RateLimiter.Redis.Retention
import RateLimiter.Service.System

/-!
# The service forgets

Keys, logs and buckets are made for every route, user and address that a policy tells apart, so what
the service stores has to go away by itself.  `System.stores_forget` says that it does: after any
run every entry in Redis and every state of a local limiter is on loan to a call, for no longer than
the policy of the call asks for, and once the last loan has ended both are empty.

The one thing that can go wrong is a token bucket that refills so slowly that Redis refuses the
deadline of its key (`System.DeadlineAccepted`).
-/

set_option autoImplicit false

namespace RateLimiter

/-! ## One fleet -/

namespace Fleet

variable {κ : Type} {f f' : Fleet PolicyRead κ} {n : ℕ} {c c' : EvaluateCall PolicyRead κ}
  {stateTtlMs : ℤ}

/-- A call has had this policy for this request. -/
def Uses (f : Fleet PolicyRead κ) (p : PolicyRead) (a : RequestIdentity) : Prop :=
  ∃ n c, f.calls n = some c ∧ c.policy = p ∧ c.identity = a

/-- What is stored is stored for the calls: every entry is there for the policy and the identity of
some call, and for a bounded time. -/
structure OnLoan (stateTtlMs : ℤ) (f : Fleet PolicyRead κ) : Prop where
  redis : f.redis.LentTo f.Uses f.clock
  limiter : ∀ j, (f.limiter j).LentTo f.Uses stateTtlMs (f.localClock j)

theorem onLoan_initial : (Fleet.initial PolicyRead κ).OnLoan stateTtlMs where
  redis := .empty 0
  limiter _ := .empty

/-- A call that goes on keeps its policy. -/
theorem Proceeds.uses (h : f.Proceeds n c c' f') (hc : f.calls n = some c) (p : PolicyRead)
    (a : RequestIdentity) (hpa : f.Uses p a) : f'.Uses p a := by
  obtain ⟨m, d, hd, rfl, rfl⟩ := hpa
  rcases eq_or_ne m n with rfl | hne
  · obtain rfl : c = d := Option.some_inj.1 (hc.symm.trans hd)
    exact ⟨m, c', by simp [h.calls], h.policy, h.identity⟩
  · exact ⟨m, d, by simp [h.calls, hne, hd], rfl, rfl⟩

theorem uses_put (hfree : f.calls n = none) (p : PolicyRead) (a : RequestIdentity)
    (hpa : f.Uses p a) : (f.put n c).Uses p a := by
  obtain ⟨m, d, hd, rfl, rfl⟩ := hpa
  have hne : m ≠ n := fun hmn => by simp [hmn, hfree] at hd
  exact ⟨m, d, by simp [hne, hd], rfl, rfl⟩

section

variable [DecidableEq κ] (f) (c) (settings : Settings) (nowMs : ℤ)

theorem recovered_redis : (f.recovered c settings nowMs).redis = f.redis := by
  rw [recovered]
  split <;> rfl

theorem recovered_clock : (f.recovered c settings nowMs).clock = f.clock := by
  rw [recovered]
  split <;> rfl

theorem recovered_localClock : (f.recovered c settings nowMs).localClock =
    Function.update f.localClock c.origin nowMs := by
  rw [recovered]
  split <;> rfl

theorem recovered_limiter : (f.recovered c settings nowMs).limiter =
    if settings.enableLocalFallbackLimiter then Function.update f.limiter c.origin
      ((f.limiter c.origin).apply .enforced settings.localFallbackStateTtlSeconds c.policy
        c.identity nowMs).2
    else f.limiter := by
  rw [recovered]
  split <;> rfl

end

namespace OnLoan

theorem congr (h : f.OnLoan stateTtlMs) (huses : ∀ p a, f.Uses p a → f'.Uses p a)
    (hredis : f'.redis = f.redis) (hclock : f'.clock = f.clock) (hlimiter : f'.limiter = f.limiter)
    (hlocal : f'.localClock = f.localClock) : f'.OnLoan stateTtlMs where
  redis := by
    rw [hredis, hclock]
    exact h.redis.mono le_rfl huses
  limiter j := by
    rw [hlimiter, hlocal]
    exact (h.limiter j).mono le_rfl huses

/-- Redis runs the script of a call. -/
theorem ran (h : f.OnLoan stateTtlMs) (hc : f.calls n = some c) {t : RedisTime} {member : String}
    (hrun : f.CanRun c t member) (ha : expiryAccepted (f.evalFor c t member).1 = true)
    (hproceeds : f.Proceeds n c c' f') (hredis : f'.redis = (f.evalFor c t member).2)
    (hclock : f'.clock = t.ms) (hlimiter : f'.limiter = f.limiter)
    (hlocal : f'.localClock = f.localClock) : f'.OnLoan stateTtlMs where
  redis := by
    rw [hredis, hclock]
    exact (h.redis.runPolicy hrun.1 ⟨n, c, hc, rfl, rfl⟩ ha).mono le_rfl (hproceeds.uses hc)
  limiter j := by
    rw [hlimiter, hlocal]
    exact (h.limiter j).mono le_rfl (hproceeds.uses hc)

theorem attempt (h : f.OnLoan stateTtlMs) (hc : f.calls n = some c) {t : RedisTime}
    {member : String} {outcome : RedisOutcome}
    (hrun : outcome.executed = true → f.CanRun c t member)
    (ha : outcome.executed = true → expiryAccepted (f.evalFor c t member).1 = true) :
    (f.attempt c t member n outcome).OnLoan stateTtlMs := by
  obtain ⟨c', hproceeds⟩ := f.proceeds_attempt n c t member outcome
  cases outcome with
  | failed => exact h.congr (hproceeds.uses hc) rfl rfl rfl rfl
  | lost => exact h.ran hc (hrun rfl) (ha rfl) hproceeds rfl rfl rfl rfl
  | replied =>
    refine h.ran hc (hrun rfl) (ha rfl) hproceeds ?_ ?_ ?_ ?_ <;> rw [Fleet.attempt] <;> split <;>
      rfl

/-- The local limiter decides, or nobody does. -/
theorem recover [DecidableEq κ] {settings : Settings} {nowMs : ℤ}
    (h : f.OnLoan (max 1 settings.localFallbackStateTtlSeconds * 1000)) (hc : f.calls n = some c)
    (hclock : f.localClock c.origin ≤ nowMs) :
    ((f.recovered c settings nowMs).put n c.answer).OnLoan
      (max 1 settings.localFallbackStateTtlSeconds * 1000) := by
  have huses := (proceeds_recovered (f := f) (n := n) (c := c) settings nowMs).uses hc
  refine ⟨?_, fun j => ?_⟩
  · show (f.recovered c settings nowMs).redis.LentTo _ (f.recovered c settings nowMs).clock
    rw [recovered_redis, recovered_clock]
    exact h.redis.mono le_rfl huses
  · show ((f.recovered c settings nowMs).limiter j).LentTo _ _
      ((f.recovered c settings nowMs).localClock j)
    rw [recovered_localClock, recovered_limiter]
    rcases eq_or_ne j c.origin with rfl | hne
    · rw [Function.update_self]
      split
      · rw [Function.update_self]
        exact ((h.limiter c.origin).apply hclock ⟨n, c, hc, rfl, rfl⟩).mono le_rfl huses
      · exact (h.limiter c.origin).mono hclock huses
    · rw [Function.update_of_ne hne]
      split
      · rw [Function.update_of_ne hne]
        exact (h.limiter j).mono le_rfl huses
      · exact (h.limiter j).mono le_rfl huses

end OnLoan

end Fleet

/-! ## The service -/

namespace System

variable {κ : Type} [DecidableEq κ] {cacheSettings : CacheSettings} {settings : Settings}
  {s s' : System κ} {e : SystemEvent κ}

/-- If Redis runs a script then `PEXPIRE` does not cut it off.  A script that sets no deadline, such
as one that turns a request down, asks for nothing here. -/
def DeadlineAccepted (s : System κ) : SystemEvent κ → Prop
  | .attempt n t member outcome => outcome.executed = true →
    ∀ c ∈ s.fleet.calls n, expiryAccepted (s.fleet.evalFor c t member).1 = true
  | .late n t member => ∀ c ∈ s.fleet.calls n, expiryAccepted (s.fleet.evalFor c t member).1 = true
  | _ => True

instance (s : System κ) : (e : SystemEvent κ) → Decidable (s.DeadlineAccepted e)
  | .attempt n t member outcome => inferInstanceAs (Decidable (outcome.executed = true →
    ∀ c ∈ s.fleet.calls n, expiryAccepted (s.fleet.evalFor c t member).1 = true))
  | .late n t member => inferInstanceAs
    (Decidable (∀ c ∈ s.fleet.calls n, expiryAccepted (s.fleet.evalFor c t member).1 = true))
  | .policies _ | .evaluate _ _ _ | .select _ | .abandon _ | .recover _ _ => .isTrue trivial

/-- What is stored is stored for the calls, and these are told apart by their numbers. -/
structure OnLoan (settings : Settings) (s : System κ) : Prop where
  numbered : s.Numbered
  fleet : s.fleet.OnLoan (max 1 settings.localFallbackStateTtlSeconds * 1000)

theorem OnLoan.step (h : s.OnLoan settings) (he : s.DeadlineAccepted e)
    (hs : s.step cacheSettings settings e = some s') : s'.OnLoan settings := by
  refine ⟨h.numbered.step hs, ?_⟩
  cases e with
  | policies e =>
    simp only [System.step, Option.ite_none_left_eq_some] at hs
    obtain ⟨policies, -, rfl⟩ := Option.map_eq_some_iff.1 hs.2
    exact h.fleet
  | evaluate n host identity =>
    obtain ⟨policies, -, rfl⟩ := Option.map_eq_some_iff.1 hs
    exact h.fleet
  | select n =>
    obtain ⟨identity, policies, r, -, hw, -, rfl⟩ := eq_select_of_step hs
    have hfree := h.numbered.waiting n (by simp [hw])
    rw [System.select]
    cases selectBestPolicy policies identity with
    | none => exact h.fleet
    | some policy => exact h.fleet.congr (Fleet.uses_put hfree) rfl rfl rfl rfl
  | attempt n t member outcome =>
    obtain ⟨c, hc, -, hrun, rfl⟩ := eq_attempt_of_step hs
    exact h.fleet.attempt hc hrun fun hx => he hx c hc
  | abandon n =>
    obtain ⟨c, hc, -, rfl⟩ := eq_abandon_of_step hs
    have hproceeds : s.fleet.Proceeds n c { c.fail with onTheWay := c.onTheWay + 1 }
        (s.fleet.put n { c.fail with onTheWay := c.onTheWay + 1 }) :=
      ⟨rfl, rfl, rfl, id, fun _ h => Or.inl h⟩
    exact h.fleet.congr (hproceeds.uses hc) rfl rfl rfl rfl
  | late n t member =>
    obtain ⟨c, hc, -, hrun, rfl⟩ := eq_late_of_step hs
    exact h.fleet.ran hc hrun (he c hc) ⟨rfl, rfl, rfl, id, fun _ h => Or.inl h⟩ rfl rfl rfl rfl
  | recover n nowMs =>
    obtain ⟨c, hc, -, hclock, rfl⟩ := eq_recover_of_step hs
    exact h.fleet.recover hc hclock

/-- **What the service stores goes away by itself.**  Whatever has been interleaved, lost or late:
every entry in Redis has a deadline, which its policy bounds, and holds no more than a quota, and so
it is with the local limiters.  When nothing has been stored for `most` milliseconds, which is as
long as any policy asks for, Redis has deleted all keys, and the next call of a local limiter begins
with empty dictionaries. -/
theorem stores_forget (table : Table) {es : List (SystemEvent κ)}
    (hes : Transition.Each (System.step cacheSettings settings) DeadlineAccepted
      (initial κ table) es)
    (hr : Transition.run (System.step cacheSettings settings) (initial κ table) es = some s) :
    let stateTtlMs := max 1 settings.localFallbackStateTtlSeconds * 1000
    s.fleet.redis.LentTo s.fleet.Uses s.fleet.clock ∧
      (∀ j, (s.fleet.limiter j).LentTo s.fleet.Uses stateTtlMs (s.fleet.localClock j)) ∧
      ∀ most, (∀ p a, s.fleet.Uses p a → p.expiryMs ≤ most ∧ p.keptMs stateTtlMs ≤ most) →
        (∀ now, s.fleet.clock + most ≤ now → purge .enforced now s.fleet.redis = .empty) ∧
        ∀ j now, s.fleet.localClock j + most ≤ now →
          (s.fleet.limiter j).evictExpired .enforced now = .empty := by
  intro stateTtlMs
  have h : s.OnLoan settings := Transition.run_invariant_of_each (fun h he hs => h.step he hs)
    ⟨numbered_initial table, Fleet.onLoan_initial⟩ hes hr
  refine ⟨h.fleet.redis, h.fleet.limiter, fun most hmost => ⟨fun now hnow => ?_,
    fun j now hnow => ?_⟩⟩
  · exact h.fleet.redis.purge_eq_empty (fun p a hpa => (hmost p a hpa).1) hnow
  · exact (h.fleet.limiter j).evictExpired_eq_empty (fun p a hpa => (hmost p a hpa).2) hnow

/-- After the sample run Redis holds a counter, for a while. -/
theorem stores_forget_sample :
    ∃ s, Transition.run (System.step ⟨30, 30, true⟩ ⟨1, false, 120⟩) (initial Bool .sample)
        sampleRun = some s ∧ s.fleet.redis.LentTo s.fleet.Uses s.fleet.clock :=
  Transition.exists_run_of_isSome (by decide +kernel) fun _ hs =>
    (stores_forget .sample (by decide +kernel) hs).1

end System

end RateLimiter
