import RateLimiter.Service.Invariant
import RateLimiter.Service.System

/-!
# The service as a fleet with a fixed catalog

The policies of the service change while it runs.  Each of its versions does not, and its calls use
nothing else: as long as every overwrite finds the version that was read, the versions that were
ever committed form a catalog, and what the service does to Redis and to the local limiters is what
a fleet with that catalog does (`System.run_refines_fleet`).  So what is known of fleets holds of
the service, for each version of a policy (`System.versions_keep_quota`).
-/

set_option autoImplicit false

namespace RateLimiter

open Quota

/-! ## Renaming policies -/

section Map

variable {ι ι' κ : Type} (g : ι → ι')

/-- The call under another name of its policy. What it has tried and taken is the same. -/
def EvaluateCall.map (c : EvaluateCall ι κ) : EvaluateCall ι' κ where
  origin := c.origin
  policy := g c.policy
  identity := c.identity
  failed := c.failed
  onTheWay := c.onTheWay
  answered := c.answered
  executed := c.executed
  taken := c.taken

/-- The answer under another name of its policy, with its decision and its source. -/
def Answer.map (a : Answer ι κ) : Answer ι' κ := ⟨g a.policy, a.decision, a.source⟩

/-- The fleet under other names of its policies: Redis and the local limiters never see a policy's
name. -/
def Fleet.map (f : Fleet ι κ) : Fleet ι' κ where
  redis := f.redis
  clock := f.clock
  members := f.members
  limiter := f.limiter
  localClock := f.localClock
  calls n := (f.calls n).map (EvaluateCall.map g)
  answers := f.answers.map (Answer.map g)

@[simp] theorem Fleet.map_put (f : Fleet ι κ) (n : ℕ) (c : EvaluateCall ι κ) :
    (f.put n c).map g = (f.map g).put n (c.map g) := by
  simp only [Fleet.put, Fleet.map, Fleet.mk.injEq, true_and, and_true]
  funext m
  rcases eq_or_ne m n with rfl | hne
  · simp
  · simp [hne]

theorem Fleet.map_answers (f : Fleet ι κ) (as : List (Answer ι κ)) :
    ({ f with answers := as } : Fleet ι κ).map g =
      { f.map g with answers := as.map (Answer.map g) } := rfl

end Map

/-! ## Calls under their versions -/

/-- The catalog has the policies that were committed, each under its id and version. -/
def Catalog.Covers (C : Catalog (UUID × ℤ)) (log : List (UUID × Row)) : Prop :=
  ∀ p, Committed log p → C.policy p.key = p

section Call

variable {κ : Type} {C : Catalog (UUID × ℤ)} {settings : Settings} {f : Fleet PolicyRead κ}
  {c : EvaluateCall PolicyRead κ} {n : ℕ} {t : RedisTime} {member : String}

/-! Its request is the one the service sends. -/

theorem serve_request (hC : C.policy c.policy.key = c.policy) (ks : Keyspace) :
    serve C .enforced ks (Fleet.request (c.map PolicyRead.key) t member) =
      eval .enforced t (policyScript c.policy.toPolicyBase
        (buildRateLimitKey c.policy c.identity) member) ks := by
  simp [serve, Request.script, Request.key, Fleet.request, EvaluateCall.map, hC]

theorem serves_request (hC : C.policy c.policy.key = c.policy) :
    (f.map PolicyRead.key).Serves C (Fleet.request (c.map PolicyRead.key) t member) ↔
      f.CanRun c t member := by
  simp [Fleet.Serves, Fleet.CanRun, Request.logMember, Fleet.request, EvaluateCall.map, Fleet.map,
    hC]

theorem afterServing_request (hC : C.policy c.policy.key = c.policy) :
    (f.map PolicyRead.key).afterServing C (Fleet.request (c.map PolicyRead.key) t member) =
      (f.afterRun c t member).map PolicyRead.key := by
  simp only [Fleet.afterServing, Fleet.afterRun, Fleet.map, serve_request hC]
  simp [Request.logMember, Fleet.request, EvaluateCall.map, hC, Fleet.evalFor, runPolicy]

theorem charge_unitsFor_request (hC : C.policy c.policy.key = c.policy) :
    (c.map PolicyRead.key).charge ((f.map PolicyRead.key).unitsFor C
        (Fleet.request (c.map PolicyRead.key) t member)) =
      (f.charged c t member).map PolicyRead.key := by
  have hunits : (f.map PolicyRead.key).unitsFor C
      (Fleet.request (c.map PolicyRead.key) t member) = f.unitsRun c t member := by
    simp only [Fleet.unitsFor, Fleet.unitsRun, Fleet.map, serve_request hC]
    simp [Request.key, Fleet.request, EvaluateCall.map, hC, Fleet.evalFor, runPolicy]
  rw [hunits]
  rfl

theorem evalFor_eq_serve (hC : C.policy c.policy.key = c.policy) :
    (f.evalFor c t member).1 = (serve C .enforced (f.map PolicyRead.key).redis
      (Fleet.request (c.map PolicyRead.key) t member)).1.map parseCommonDecision := by
  rw [serve_request hC]
  rfl

variable [DecidableEq κ]

/-- **An attempt of the service is one of the fleet.** -/
theorem attempt_step (hC : C.policy c.policy.key = c.policy) (hc : f.calls n = some c)
    (ht : c.Trying settings) {outcome : RedisOutcome}
    (hrun : outcome.executed = true → f.CanRun c t member) :
    ∃ e, (f.map PolicyRead.key).step C settings e =
      some ((f.attempt c t member n outcome).map PolicyRead.key) := by
  have hcall : (f.map PolicyRead.key).calls n = some (c.map PolicyRead.key) := by
    simp [Fleet.map, hc]
  have htrying : (c.map PolicyRead.key).Trying settings := ht
  cases outcome with
  | failed =>
    refine ⟨.fail n, ?_⟩
    simp only [Fleet.step, hcall, Option.bind_some, if_pos htrying, Fleet.attempt, Fleet.map_put]
    rfl
  | lost =>
    refine ⟨.lose n t member, ?_⟩
    have hserves := (serves_request hC).2 (hrun rfl)
    simp only [Fleet.step, hcall, Option.bind_some, if_pos (And.intro htrying hserves),
      Fleet.attempt, Fleet.map_put, afterServing_request hC, charge_unitsFor_request hC]
    rfl
  | replied =>
    refine ⟨.reply n t member, ?_⟩
    have hserves := (serves_request hC).2 (hrun rfl)
    simp only [Fleet.step, hcall, Option.bind_some, if_pos (And.intro htrying hserves),
      Fleet.attempt, evalFor_eq_serve hC, afterServing_request hC, charge_unitsFor_request hC]
    cases (serve C .enforced (f.map PolicyRead.key).redis
      (Fleet.request (c.map PolicyRead.key) t member)).1 with
    | ok reply =>
      simp only [Except.map, Fleet.map_answers, Fleet.map_put, List.map_append]
      rfl
    | error error =>
      simp only [Except.map, Fleet.map_put]
      rfl

theorem late_step (hC : C.policy c.policy.key = c.policy) (hc : f.calls n = some c)
    (hw : 0 < c.onTheWay) (hrun : f.CanRun c t member) :
    ∃ e, (f.map PolicyRead.key).step C settings e =
      some (((f.afterRun c t member).put n
        { f.charged c t member with onTheWay := c.onTheWay - 1 }).map PolicyRead.key) := by
  have hcall : (f.map PolicyRead.key).calls n = some (c.map PolicyRead.key) := by
    simp [Fleet.map, hc]
  have hway : 0 < (c.map PolicyRead.key).onTheWay := hw
  refine ⟨.late n t member, ?_⟩
  simp only [Fleet.step, hcall, Option.bind_some,
    if_pos (And.intro hway ((serves_request hC).2 hrun)), Fleet.map_put, afterServing_request hC,
    charge_unitsFor_request hC]
  rfl

theorem abandon_step (hc : f.calls n = some c) (ht : c.Trying settings) :
    ∃ e, (f.map PolicyRead.key).step C settings e =
      some ((f.put n { c.fail with onTheWay := c.onTheWay + 1 }).map PolicyRead.key) := by
  have hcall : (f.map PolicyRead.key).calls n = some (c.map PolicyRead.key) := by
    simp [Fleet.map, hc]
  have htrying : (c.map PolicyRead.key).Trying settings := ht
  refine ⟨.abandon n, ?_⟩
  simp only [Fleet.step, hcall, Option.bind_some, if_pos htrying, Fleet.map_put]
  rfl

theorem recover_step (hC : C.policy c.policy.key = c.policy) (hc : f.calls n = some c)
    (hr : c.Recovering settings) {nowMs : ℤ} (hnow : f.localClock c.origin ≤ nowMs) :
    ∃ e, (f.map PolicyRead.key).step C settings e =
      some (((f.recovered c settings nowMs).put n c.answer).map PolicyRead.key) := by
  have hcall : (f.map PolicyRead.key).calls n = some (c.map PolicyRead.key) := by
    simp [Fleet.map, hc]
  have hrecovering : (c.map PolicyRead.key).Recovering settings ∧
      (f.map PolicyRead.key).localClock (c.map PolicyRead.key).origin ≤ nowMs := ⟨hr, hnow⟩
  have hpolicy : C.policy (c.map PolicyRead.key).policy = c.policy := hC
  refine ⟨.recover n nowMs, ?_⟩
  simp only [Fleet.step, hcall, Option.bind_some, if_pos hrecovering, Fleet.map_put]
  have hrecover : (f.map PolicyRead.key).recover C settings (c.map PolicyRead.key) nowMs =
      (f.recovered c settings nowMs).map PolicyRead.key := by
    simp only [Fleet.recover, Fleet.recovered, hpolicy]
    split <;> simp [Fleet.map, EvaluateCall.map, Answer.map]
  rw [hrecover]
  rfl

end Call

/-! ## The invariant -/

namespace System

variable {κ : Type} {s s' : System κ}

/-- The policies of the calls were committed, and they match the requests they are for. -/
structure Sound (s : System κ) : Prop where
  /-- The policies on lists were committed, and versions name them. -/
  policies : s.policies.Traceable
  /-- The policies of the calls were committed. -/
  committed : ∀ n c, s.fleet.calls n = some c → Committed s.policies.store.log c.policy
  matched : ∀ n c, s.fleet.calls n = some c →
    policyMatches c.policy.toPolicyBase c.identity = true
  /-- A number belongs to one call. -/
  numbered : s.Numbered

theorem sound_initial (table : Table) : (initial κ table).Sound where
  policies := PolicyFleet.traceable_initial table
  committed _ _ h := by cases h
  matched _ _ h := by cases h
  numbered := numbered_initial table

variable [DecidableEq κ] {cacheSettings : CacheSettings} {settings : Settings} {e : SystemEvent κ}

theorem mem_of_selectBestPolicy {policies : List PolicyRead} {identity : RequestIdentity}
    {p : PolicyRead} (h : selectBestPolicy policies identity = some p) :
    p ∈ policies ∧ policyMatches p.toPolicyBase identity = true := by
  obtain ⟨hmem, hp⟩ := List.mem_filter.1 (List.argmax_mem h)
  exact ⟨hmem, ((Bool.and_eq_true _ _).mp hp).2⟩

/-- **Every event keeps the invariant**, if its commit finds what its call has read. -/
theorem Sound.step (h : s.Sound) (he : s.OverwritesVersionRead e)
    (hs : s.step cacheSettings settings e = some s') : s'.Sound := by
  have hnumbered := h.numbered.step hs
  cases step_effect hs with
  | policies hp =>
    exact ⟨h.policies.step he hp,
      fun n c hc => (h.committed n c hc).mono (PolicyFleet.log_subset hp), h.matched, hnumbered⟩
  | evaluate hfree hp =>
    exact ⟨h.policies.step (fun w hw => by cases hw) hp,
      fun n c hc => (h.committed n c hc).mono (PolicyFleet.log_subset hp), h.matched, hnumbered⟩
  | @selects n identity r policies hw hr hp =>
    rw [System.select] at hnumbered ⊢
    cases hbest : selectBestPolicy policies identity with
    | none =>
      rw [hbest] at hnumbered
      exact ⟨h.policies, h.committed, h.matched, hnumbered⟩
    | some policy =>
      rw [hbest] at hnumbered
      obtain ⟨hmem, hmatch⟩ := mem_of_selectBestPolicy hbest
      refine ⟨h.policies, fun m c hc => ?_, fun m c hc => ?_, hnumbered⟩
      · rcases Transition.mem_update_some hc with ⟨-, rfl⟩ | hc
        · exact h.policies.committed hr hp hmem
        · exact h.committed m c hc
      · rcases Transition.mem_update_some hc with ⟨-, rfl⟩ | hc
        · exact hmatch
        · exact h.matched m c hc
  | @proceeds _ n c c' fleet hc hproceeds =>
    refine ⟨h.policies, fun m d hd => ?_, fun m d hd => ?_, hnumbered⟩ <;>
      rw [hproceeds.calls] at hd <;>
      rcases Transition.mem_update_some hd with ⟨-, rfl⟩ | hd
    · rw [hproceeds.policy]
      exact h.committed n c hc
    · exact h.committed m d hd
    · rw [hproceeds.policy, hproceeds.identity]
      exact h.matched n c hc
    · exact h.matched m d hd

/-! ## The refinement -/

/-- The fleet in which versions name policies, so that what is known of a fleet with a fixed catalog
can be used. -/
def versions (s : System κ) : Fleet (UUID × ℤ) κ := s.fleet.map PolicyRead.key

/-- **A step of the service is one of the fleet, or nothing to it**, if the catalog has the policies
that were committed. -/
theorem Sound.step_versions {C : Catalog (UUID × ℤ)} (h : s.Sound)
    (hC : C.Covers s.policies.store.log) (hs : s.step cacheSettings settings e = some s') :
    s'.versions = s.versions ∨ ∃ e', s.versions.step C settings e' = some s'.versions := by
  have hpolicy : ∀ n c, s.fleet.calls n = some c → C.policy c.policy.key = c.policy :=
    fun n c hc => hC _ (h.committed n c hc)
  cases e with
  | policies e =>
    simp only [System.step, Option.ite_none_left_eq_some] at hs
    obtain ⟨policies, -, rfl⟩ := Option.map_eq_some_iff.1 hs.2
    exact Or.inl rfl
  | evaluate n host identity =>
    obtain ⟨policies, -, rfl⟩ := Option.map_eq_some_iff.1 hs
    exact Or.inl rfl
  | select n =>
    obtain ⟨identity, policies, r, hr, hw, hp, rfl⟩ := eq_select_of_step hs
    cases hbest : selectBestPolicy policies identity with
    | none =>
      simp only [System.select, hbest]
      exact Or.inl rfl
    | some policy =>
      obtain ⟨hmem, hmatch⟩ := mem_of_selectBestPolicy hbest
      have hfree : s.versions.calls n = none := by
        simp [versions, Fleet.map, h.numbered.waiting n (by simp [hw])]
      refine Or.inr ⟨.begin n r.host policy.key identity, ?_⟩
      rw [Fleet.step, hC _ (h.policies.committed hr hp hmem), if_pos ⟨hfree, hmatch⟩]
      simp only [System.select, hbest, versions, Fleet.map_put]
      rfl
  | attempt n t member outcome =>
    obtain ⟨c, hc, ht, hrun, rfl⟩ := eq_attempt_of_step hs
    exact Or.inr (attempt_step (hpolicy n c hc) hc ht hrun)
  | abandon n =>
    obtain ⟨c, hc, ht, rfl⟩ := eq_abandon_of_step hs
    exact Or.inr (abandon_step hc ht)
  | late n t member =>
    obtain ⟨c, hc, hw, hrun, rfl⟩ := eq_late_of_step hs
    exact Or.inr (late_step (hpolicy n c hc) hc hw hrun)
  | recover n nowMs =>
    obtain ⟨c, hc, hr, hnow, rfl⟩ := eq_recover_of_step hs
    exact Or.inr (recover_step (hpolicy n c hc) hc hr hnow)

/-! ## Runs -/

/-- While versions increase, the committed policies form a catalog. -/
theorem exists_catalog {log : List (UUID × Row)} (h : VersionsIncrease log) :
    ∃ C : Catalog (UUID × ℤ), C.Covers log := by
  have hpolicy : ∀ k : UUID × ℤ, ∃ p : PolicyRead, p.key = k ∧
      ∀ q, Committed log q → q.key = k → p = q := by
    intro k
    by_cases hk : ∃ q, Committed log q ∧ q.key = k
    · obtain ⟨q, hq, hkey⟩ := hk
      exact ⟨q, hkey, fun q' hq' hkey' => h.committed_unique hq hq' (hkey.trans hkey'.symm)⟩
    · exact ⟨{ PolicyRead.sample .fixedWindow 1 with id := k.1, version := k.2 }, rfl,
        fun q hq hkey => absurd ⟨q, hq, hkey⟩ hk⟩
  choose policy hkey hunique using hpolicy
  refine ⟨⟨policy, fun i j hid hversion => ?_⟩, fun p hp => hunique p.key p hp rfl⟩
  rw [← hkey i, ← hkey j]
  exact Prod.ext hid hversion

variable {table : Table} {es : List (SystemEvent κ)}

theorem log_subset_of_run
    (hr : Transition.run (System.step cacheSettings settings) s es = some s') :
    s.policies.store.log ⊆ s'.policies.store.log := by
  refine Transition.run_invariant (I := fun u => s.policies.store.log ⊆ u.policies.store.log)
    (fun {u e u'} h hs => List.Subset.trans h ?_) (List.Subset.refl _) hr
  cases step_effect hs with
  | policies hp | evaluate _ hp => exact PolicyFleet.log_subset hp
  | proceeds => exact List.Subset.refl _
  | selects =>
    rw [System.select]
    split <;> exact List.Subset.refl _

/-- A run of the service is one of the fleet, with a catalog of the policies it has committed. -/
theorem Sound.run_versions {C : Catalog (UUID × ℤ)} (h : s.Sound)
    (hes : Transition.Each (System.step cacheSettings settings) OverwritesVersionRead s es)
    (hr : Transition.run (System.step cacheSettings settings) s es = some s')
    (hC : C.Covers s'.policies.store.log) :
    ∃ es', Transition.run (Fleet.step C settings) s.versions es' = some s'.versions := by
  refine Transition.run_simulation versions (I := Sound)
    (fun h he hs => h.step he hs) ?_ h hes hr
  rintro u e u' h he hs ⟨es, hes⟩
  have hlog := log_subset_of_run (Transition.run_cons_eq_some.2 ⟨u', hs, hes⟩)
  exact h.step_versions (fun p hp => hC p (hp.mono hlog)) hs

/-- **The service refines a fleet with a fixed catalog.**  In every run whose overwrites find the
version that was read, the versions committed so far form a catalog, and what the `evaluate` calls
have done is what they do in a run of a fleet with that catalog. -/
theorem run_refines_fleet (table : Table)
    (hes : Transition.Each (System.step cacheSettings settings) OverwritesVersionRead
      (initial κ table) es)
    (hr : Transition.run (System.step cacheSettings settings) (initial κ table) es = some s) :
    ∃ C : Catalog (UUID × ℤ), C.Covers s.policies.store.log ∧
      ∃ es', Transition.run (Fleet.step C settings) (.initial (UUID × ℤ) κ) es' =
        some s.versions := by
  have hsound : s.Sound := Transition.run_invariant_of_each (fun h he hs => h.step he hs)
    (sound_initial table) hes hr
  obtain ⟨C, hC⟩ := exists_catalog hsound.policies.increase
  exact ⟨C, hC, (sound_initial table).run_versions hes hr hC⟩

/-- A policy changes between two requests. -/
theorem run_refines_fleet_sample :
    ∃ s, Transition.run (System.step ⟨30, 30, true⟩ ⟨1, false, 120⟩) (initial Bool .sample)
        sampleRun = some s ∧
      ∃ C : Catalog (UUID × ℤ), C.Covers s.policies.store.log ∧
        ∃ es', Transition.run (Fleet.step C ⟨1, false, 120⟩) (.initial (UUID × ℤ) Bool) es' =
          some s.versions :=
  Transition.exists_run_of_isSome (by decide +kernel) fun _ hs =>
    run_refines_fleet .sample (by decide +kernel) hs

end System

end RateLimiter
