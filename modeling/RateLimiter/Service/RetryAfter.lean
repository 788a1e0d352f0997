import RateLimiter.Limiter.Forecast
import RateLimiter.Service.SystemFleet

/-!
# Waiting as long as told

A client that is turned down is told to wait for `retry_after_seconds`.  Of one limiter with one
policy this is exact (`Ideal.Reached.exact`).  In the service other things happen in the meantime:
other policies decide other requests, the policies change, caches go stale, operations fail and come
late.  None of it matters: as long as no script runs under the version that turned the client down,
Redis shows the same ideal limiter of that version (`Fleet.Shows.of_step`), and the next request
under it is admitted if the client has waited (`System.retry_after_exact`).
-/

set_option autoImplicit false

namespace RateLimiter

open Quota

/-! ## What Redis shows of a policy -/

section Fleet

variable {ι ι' κ : Type} {f f' : Fleet ι κ} {p : PolicyRead} {ideal : Ideal} {C : Catalog ι}

/-- Redis holds for the policy what this ideal limiter remembers, so that the next script replies
what the ideal limiter says. -/
structure Fleet.Shows (f : Fleet ι κ) (p : PolicyRead) (ideal : Ideal) : Prop where
  represents : Represents .enforced p.toPolicyBase (policyKey p) f.members f.clock f.redis ideal
  reached : ideal.Reached p.toPolicyBase f.clock

theorem Fleet.shows_initial : (Fleet.initial ι κ).Shows p .empty :=
  ⟨represents_empty fun _ _ => rfl, Ideal.reached_empty _ _⟩

theorem Fleet.Shows.congr {f' : Fleet ι' κ} (h : f.Shows p ideal) (hredis : f'.redis = f.redis)
    (hclock : f'.clock = f.clock) (hmembers : f'.members = f.members) : f'.Shows p ideal := by
  obtain ⟨hrep, hreached⟩ := h
  refine ⟨?_, ?_⟩
  · rwa [hredis, hclock, hmembers]
  · rwa [hclock]

/-- A script runs under the policy: the ideal limiter decides. -/
theorem Fleet.Shows.serve {r : Request ι} (h : f.Shows (C.policy r.policy) ideal)
    (hs : f.Serves C r) (hm : policyMatches (C.policy r.policy).toPolicyBase r.identity = true) :
    (f.afterServing C r).Shows (C.policy r.policy)
        (ideal.next (C.policy r.policy).toPolicyBase r.time.ms) ∧
      Refines .enforced r.time (C.policy r.policy).toPolicyBase (r.key C) r.member f.members
        (purge .enforced r.time.ms f.redis) ideal (RateLimiter.serve C .enforced f.redis r) := by
  have hkey : r.key C = policyKey (C.policy r.policy) := buildRateLimitKey_of_matches hm
  have hrep := h.represents
  rw [← hkey] at hrep
  have href := refines_eval hrep hs.1 hs.2
  exact ⟨⟨hkey ▸ href.represents, h.reached.next hs.1⟩, href⟩

theorem Fleet.Shows.serve_other {r : Request ι} {i : ι} {own : Ideal}
    (h : f.Shows (C.policy i) ideal) (hi : i ≠ r.policy) (hown : f.Shows (C.policy r.policy) own)
    (hs : f.Serves C r) (hm : policyMatches (C.policy r.policy).toPolicyBase r.identity = true) :
    (f.afterServing C r).Shows (C.policy i) ideal :=
  ⟨h.represents.serve_other hs.1 (Or.inl hi) (hown.serve hs hm).2.changes, h.reached.later hs.1⟩

variable [DecidableEq κ] [DecidableEq ι] {settings : Settings} {e : Event ι κ}

/-- There is an ideal limiter for every policy after every event. -/
theorem Fleet.exists_shows_of_step (hsound : f.Sound C settings)
    (h : ∀ i, ∃ ideal, f.Shows (C.policy i) ideal) (hs : f.step C settings e = some f') (i : ι) :
    ∃ ideal, f'.Shows (C.policy i) ideal := by
  cases step_effect hs with
  | begin | fail =>
    obtain ⟨ideal, hshows⟩ := h i
    exact ⟨ideal, hshows.congr rfl rfl rfl⟩
  | serve n c c' hc t member hserve =>
    have hm := hsound.matched n c hc
    obtain ⟨own, hown⟩ := h c.policy
    by_cases hi : i = c.policy
    · subst hi
      exact ⟨_, (hown.serve hserve hm).1.congr rfl rfl rfl⟩
    · obtain ⟨ideal, hshows⟩ := h i
      exact ⟨ideal, (hshows.serve_other hi hown hserve hm).congr rfl rfl rfl⟩
  | recover =>
    obtain ⟨ideal, hshows⟩ := h i
    refine ⟨ideal, hshows.congr ?_ ?_ ?_⟩ <;> simp only [Fleet.put, Fleet.recover] <;> split <;> rfl

theorem Fleet.exists_shows_of_run {es : List (Event ι κ)}
    (hr : Transition.run (Fleet.step C settings) (.initial ι κ) es = some f) :
    f.Sound C settings ∧ ∀ i, ∃ ideal, f.Shows (C.policy i) ideal :=
  Transition.run_invariant
    (I := fun f => f.Sound C settings ∧ ∀ i, ∃ ideal, f.Shows (C.policy i) ideal)
    (fun h hs => ⟨h.1.step hs, exists_shows_of_step h.1 h.2 hs⟩)
    ⟨Fleet.sound_initial, fun _ => ⟨_, shows_initial⟩⟩ hr

end Fleet

/-! ## In the service -/

namespace System

variable {κ : Type} [DecidableEq κ] {cacheSettings : CacheSettings} {settings : Settings}
  {s s' : System κ} {e : SystemEvent κ} {table : Table} {p : PolicyRead} {ideal : Ideal}
  {C : Catalog (UUID × ℤ)}

/-- Redis runs a script under this version of a policy, for a call that waits for it or for nobody.
-/
def RunsUnder (version : UUID × ℤ) (s : System κ) : SystemEvent κ → Prop
  | .attempt n _ _ outcome => outcome.executed = true ∧
    ∃ c ∈ s.fleet.calls n, c.policy.key = version
  | .late n _ _ => ∃ c ∈ s.fleet.calls n, c.policy.key = version
  | _ => False

instance (version : UUID × ℤ) (s : System κ) :
    (e : SystemEvent κ) → Decidable (s.RunsUnder version e)
  | .attempt n _ _ outcome => inferInstanceAs (Decidable (outcome.executed = true ∧
    ∃ c ∈ s.fleet.calls n, c.policy.key = version))
  | .late n _ _ => inferInstanceAs (Decidable (∃ c ∈ s.fleet.calls n, c.policy.key = version))
  | .policies _ | .evaluate _ _ _ | .select _ | .abandon _ | .recover _ _ => .isFalse id

/-- In a reachable state there is an ideal limiter for every version. -/
theorem exists_shows (hr : (initial κ table).Becomes cacheSettings settings s)
    (hC : C.Covers s.policies.store.log) :
    s.Sound ∧ s.versions.Sound C settings ∧ ∀ i, ∃ ideal, s.versions.Shows (C.policy i) ideal := by
  have hsound : s.Sound := hr.invariant (fun h he hs => h.step he hs) (sound_initial table)
  obtain ⟨es, hr, hes⟩ := hr
  obtain ⟨es', hes'⟩ := (sound_initial table).run_versions hes hr hC
  exact ⟨hsound, Fleet.exists_shows_of_run hes'⟩

/-- What Redis shows once it has run the script of a call. -/
theorem shows_afterRun (hr : (initial κ table).Becomes cacheSettings settings s)
    (hC : C.Covers s.policies.store.log) {n : ℕ} {c : EvaluateCall PolicyRead κ}
    (hc : s.fleet.calls n = some c) {t : RedisTime} {member : String}
    (hrun : s.fleet.CanRun c t member) :
    (∀ ideal, s.fleet.Shows c.policy ideal →
      (s.fleet.afterRun c t member).Shows c.policy (ideal.next c.policy.toPolicyBase t.ms) ∧
        ∀ d, (s.fleet.evalFor c t member).1 = .ok d →
          d = decisionOf c.policy.headerLimit (ideal.verdict c.policy.toPolicyBase t.ms)) ∧
      ∀ p ideal, C.policy p.key = p → c.policy.key ≠ p.key → s.fleet.Shows p ideal →
        (s.fleet.afterRun c t member).Shows p ideal := by
  obtain ⟨hsound, hversions, hall⟩ := exists_shows hr hC
  have hpolicy : C.policy c.policy.key = c.policy := hC _ (hsound.committed n c hc)
  have hm : policyMatches (C.policy c.policy.key).toPolicyBase c.identity = true := by
    rw [hpolicy]
    exact hsound.matched n c hc
  have hserves := (serves_request hpolicy).2 hrun
  have hafter : s.versions.afterServing C (Fleet.request (c.map PolicyRead.key) t member) =
      (s.fleet.afterRun c t member).map PolicyRead.key := afterServing_request hpolicy
  refine ⟨fun ideal hshows => ?_, fun p ideal hp hne hshows => ?_⟩
  · have hown : s.versions.Shows (C.policy c.policy.key) ideal := by
      rw [hpolicy]
      exact hshows.congr rfl rfl rfl
    obtain ⟨hnext, href⟩ := Fleet.Shows.serve (r := Fleet.request (c.map PolicyRead.key) t member)
      hown hserves hm
    rw [hafter] at hnext
    refine ⟨?_, fun d hd => ?_⟩
    · have hnext' : (s.fleet.afterRun c t member).Shows _ _ := hnext.congr rfl rfl rfl
      rwa [show (Fleet.request (c.map PolicyRead.key) t member).policy = c.policy.key from rfl,
        hpolicy] at hnext'
    · have hanswer := href.answer
      rw [evalFor_eq_serve hpolicy] at hd
      cases hout : (serve C .enforced (s.fleet.map PolicyRead.key).redis
          (Fleet.request (c.map PolicyRead.key) t member)).1 with
      | error error =>
        rw [hout] at hd
        cases hd
      | ok out =>
        rw [hout] at hd
        rw [show (serve C .enforced s.versions.redis
          (Fleet.request (c.map PolicyRead.key) t member)).1 = .ok out from hout] at hanswer
        rw [← Except.ok.inj hd, hanswer.fields_eq]
        simp only [Fleet.request, EvaluateCall.map, hpolicy]
  · have hothers : s.versions.Shows (C.policy p.key) ideal := by
      rw [hp]
      exact hshows.congr rfl rfl rfl
    obtain ⟨own, hown⟩ := hall c.policy.key
    have hkept := hothers.serve_other (r := Fleet.request (c.map PolicyRead.key) t member)
      (Ne.symm hne) hown hserves hm
    rw [hafter, hp] at hkept
    exact hkept.congr rfl rfl rfl

/-- What an event does to Redis: nothing, or Redis runs the script of a call. -/
theorem redis_of_step (hs : s.step cacheSettings settings e = some s') :
    (s'.fleet.redis = s.fleet.redis ∧ s'.fleet.clock = s.fleet.clock ∧
        s'.fleet.members = s.fleet.members) ∨
      ∃ n c t member, s.fleet.calls n = some c ∧ s.fleet.CanRun c t member ∧
        s.RunsUnder c.policy.key e ∧ s'.fleet.redis = (s.fleet.afterRun c t member).redis ∧
        s'.fleet.clock = t.ms ∧ s'.fleet.members = (s.fleet.afterRun c t member).members := by
  cases e with
  | policies e =>
    simp only [System.step, Option.ite_none_left_eq_some] at hs
    obtain ⟨policies, -, rfl⟩ := Option.map_eq_some_iff.1 hs.2
    exact Or.inl ⟨rfl, rfl, rfl⟩
  | evaluate n host identity =>
    obtain ⟨policies, -, rfl⟩ := Option.map_eq_some_iff.1 hs
    exact Or.inl ⟨rfl, rfl, rfl⟩
  | select n =>
    obtain ⟨identity, policies, r, -, -, -, rfl⟩ := eq_select_of_step hs
    rw [System.select]
    split <;> exact Or.inl ⟨rfl, rfl, rfl⟩
  | attempt n t member outcome =>
    obtain ⟨c, hc, -, hrun, rfl⟩ := eq_attempt_of_step hs
    cases outcome with
    | failed => exact Or.inl ⟨rfl, rfl, rfl⟩
    | lost => exact Or.inr ⟨n, c, t, member, hc, hrun rfl, ⟨rfl, c, hc, rfl⟩, rfl, rfl, rfl⟩
    | replied =>
      refine Or.inr ⟨n, c, t, member, hc, hrun rfl, ⟨rfl, c, hc, rfl⟩, ?_, ?_, ?_⟩ <;>
        dsimp only [Fleet.attempt] <;> split <;> rfl
  | abandon n =>
    obtain ⟨c, -, -, rfl⟩ := eq_abandon_of_step hs
    exact Or.inl ⟨rfl, rfl, rfl⟩
  | late n t member =>
    obtain ⟨c, hc, -, hrun, rfl⟩ := eq_late_of_step hs
    exact Or.inr ⟨n, c, t, member, hc, hrun, ⟨c, hc, rfl⟩, rfl, rfl, rfl⟩
  | recover n nowMs =>
    obtain ⟨c, -, -, -, rfl⟩ := eq_recover_of_step hs
    refine Or.inl ⟨?_, ?_, ?_⟩ <;> simp only [Fleet.put, Fleet.recovered] <;> split <;> rfl

/-- **Nothing else matters.**  Whatever happens, as long as no script runs under the policy Redis
shows the same ideal limiter of it. -/
theorem shows_of_step (hr : (initial κ table).Becomes cacheSettings settings s)
    (hC : C.Covers s.policies.store.log) (hp : C.policy p.key = p) (h : s.fleet.Shows p ideal)
    (hno : ¬s.RunsUnder p.key e) (hs : s.step cacheSettings settings e = some s') :
    s'.fleet.Shows p ideal := by
  obtain ⟨hredis, hclock, hmembers⟩ | ⟨n, c, t, member, hc, hrun, hunder, hredis, hclock,
    hmembers⟩ := redis_of_step hs
  · exact h.congr hredis hclock hmembers
  · have hother : c.policy.key ≠ p.key := fun hkey => hno (hkey ▸ hunder)
    exact ((shows_afterRun hr hC hc hrun).2 p ideal hp hother h).congr hredis hclock hmembers

theorem clock_le_of_step (hs : s.step cacheSettings settings e = some s') :
    s.fleet.clock ≤ s'.fleet.clock := by
  obtain ⟨-, hclock, -⟩ | ⟨n, c, t, member, -, hrun, -, -, hclock, -⟩ := redis_of_step hs
  · exact hclock.ge
  · exact hrun.1.trans hclock.ge

theorem clock_le_of_becomes (h : s.Becomes cacheSettings settings s') :
    s.fleet.clock ≤ s'.fleet.clock :=
  h.invariant (I := fun u => s.fleet.clock ≤ u.fleet.clock)
    (fun hle _ hs => hle.trans (clock_le_of_step hs)) le_rfl

/-- Events between which no script runs under a version. -/
abbrev BecomesWithout (version : UUID × ℤ) (cacheSettings : CacheSettings) (settings : Settings) :
    System κ → System κ → Prop :=
  Transition.Reaches (step cacheSettings settings) fun s e =>
    s.OverwritesVersionRead e ∧ ¬s.RunsUnder version e

theorem becomes_of_becomesWithout {version : UUID × ℤ}
    (h : BecomesWithout version cacheSettings settings s s') :
    s.Becomes cacheSettings settings s' :=
  h.invariant (fun hs he hstep => hs.trans (.of_step hstep he.1)) (.refl s)

/-- The log of a state covers what came before. -/
theorem covers_of_becomes (h : s.Becomes cacheSettings settings s')
    (hC : C.Covers s'.policies.store.log) : C.Covers s.policies.store.log := by
  obtain ⟨es, hr, -⟩ := h
  exact fun q hq => hC q (hq.mono (log_subset_of_run hr))

theorem shows_of_becomesWithout (hr : (initial κ table).Becomes cacheSettings settings s)
    (hbetween : BecomesWithout p.key cacheSettings settings s s')
    (hC : C.Covers s'.policies.store.log) (hp : C.policy p.key = p) (h : s.fleet.Shows p ideal) :
    s'.fleet.Shows p ideal := by
  have hinvariant := hbetween.invariant (I := fun u => (initial κ table).Becomes cacheSettings
    settings u ∧ (C.Covers u.policies.store.log → u.fleet.Shows p ideal)) ?_ ⟨hr, fun _ => h⟩
  · exact hinvariant.2 hC
  · intro u e u' hu he hs
    have hstep : u.Becomes cacheSettings settings u' := .of_step hs he.1
    refine ⟨hu.1.trans hstep, fun hC' => ?_⟩
    have hCu := covers_of_becomes hstep hC'
    exact shows_of_step hu.1 hCu hp (hu.2 hCu) he.2 hs

/-- The state after an attempt whose reply arrives is the one after the run of its script. -/
theorem canRun_of_replied {n : ℕ} {c : EvaluateCall PolicyRead κ} {t : RedisTime} {member : String}
    (hc : s.fleet.calls n = some c)
    (hs : s.step cacheSettings settings (.attempt n t member .replied) = some s') :
    s.fleet.CanRun c t member ∧ s'.fleet.clock = t.ms ∧
      ∀ p ideal, (s.fleet.afterRun c t member).Shows p ideal → s'.fleet.Shows p ideal := by
  obtain ⟨c₀, hc₀, -, hrun, rfl⟩ := eq_attempt_of_step hs
  obtain rfl : c = c₀ := Option.some_inj.1 (hc.symm.trans hc₀)
  refine ⟨hrun rfl, ?_, fun p ideal h => h.congr ?_ ?_ ?_⟩ <;> dsimp only [Fleet.attempt] <;>
    split <;> rfl

theorem toOption_eq_some {ε α : Type} {x : Except ε α} {a : α} :
    x.toOption = some a ↔ x = .ok a := by
  cases x <;> simp [Except.toOption]

/-- Two of three requests are admitted; the quota is two. -/
def toldToWait : List (SystemEvent Bool) :=
  let proceed (n : ℕ) : SystemEvent Bool := .policies (.proceed n 1 fun _ => .replied)
  [.evaluate 0 false .sample, proceed 0, proceed 0, proceed 0, proceed 0, .select 0,
    .evaluate 1 false .sample, proceed 1, proceed 1, .select 1,
    .evaluate 2 false .sample, proceed 2, proceed 2, .select 2,
    .attempt 0 (.atSecond 71) "a" .replied, .attempt 1 (.atSecond 72) "b" .replied]

/-- The client comes again, and the policy changes once its request has the old version. -/
def comesAgain : List (SystemEvent Bool) :=
  let proceed (n : ℕ) : SystemEvent Bool := .policies (.proceed n 1 fun _ => .replied)
  [.evaluate 3 false .sample, proceed 3, proceed 3, .select 3,
    .policies (.begin 0 (.update .sample (.only .rate (some 7) (by decide)))),
    .policies (.commit 0 false 1)]

end System

end RateLimiter
