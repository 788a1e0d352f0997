import RateLimiter.Service.Charges
import RateLimiter.Service.Quota
import RateLimiter.Service.SystemFleet

/-!
# What the service as a whole guarantees

Through the refinement every version of a policy keeps its quota, whatever instances still decide
with earlier ones (`System.versions_keep_quota`).  Which policy decides is a different matter, and
no versions are needed for it: it is always the best one of a table the database has held
(`System.decided_by_best`).
-/

set_option autoImplicit false

namespace RateLimiter

namespace System

variable {κ : Type} [DecidableEq κ] {cacheSettings : CacheSettings} {settings : Settings}
  {s s' : System κ} {e : SystemEvent κ} {table : Table} {es : List (SystemEvent κ)}

/-! ## Quotas -/

/-- When requests were admitted under a version of a policy, by those of the sources `p` that have a
clock: Redis and the local limiters.  A degraded decision is nobody's and has no time, so what it
admits is not in this list, and has to be excluded separately (`source_eq_redis`). -/
def admissions (s : System κ) (version : UUID × ℤ) (p : Source κ → Bool) : List ℤ :=
  s.versions.stamps version p

/-- Without a fallback, whatever a version that fails closed admits Redis has admitted: neither a
local limiter nor a degraded decision lets a request through. -/
theorem source_eq_redis {C : Catalog (UUID × ℤ)} (h : s.versions.Sound C settings)
    (hfb : settings.enableLocalFallbackLimiter = false) {p : PolicyRead}
    (hp : C.policy p.key = p) (hfc : p.failureMode = .failClosed) {a : Answer PolicyRead κ}
    (ha : a ∈ s.fleet.answers) (hkey : a.policy.key = p.key)
    (hallowed : a.decision.allowed = true) : ∃ ms, a.source = .redis ms := by
  refine h.source_eq_redis hfb (a := a.map PolicyRead.key) (List.mem_map_of_mem ha) ?_ hallowed
  rw [show (a.map PolicyRead.key).policy = a.policy.key from rfl, hkey, hp, hfc]

/-- So the admissions of that version with a time are those of Redis. -/
theorem admissions_eq_redis {C : Catalog (UUID × ℤ)} (h : s.versions.Sound C settings)
    (hfb : settings.enableLocalFallbackLimiter = false) {p : PolicyRead}
    (hp : C.policy p.key = p) (hfc : p.failureMode = .failClosed) :
    s.admissions p.key (fun _ => true) = s.admissions p.key Source.isRedis := by
  refine List.filterMap_congr fun a ha => ?_
  by_cases hadmits : a.policy = p.key ∧ a.decision.allowed = true
  · obtain ⟨ms, hms⟩ := h.source_eq_redis hfb ha (by rw [hadmits.1, hp, hfc]) hadmits.2
    simp [Answer.stamp, hms, Source.isRedis]
  · have hother : ∀ b, ¬(a.policy = p.key ∧ a.decision.allowed = true ∧ b) :=
      fun b hb => hadmits ⟨hb.1, hb.2.1⟩
    rw [Answer.stamp, Answer.stamp, if_neg (hother _), if_neg (hother _)]

/-- The service has made of Redis and the limiters what a fleet with a catalog of the committed
policies makes of them. -/
theorem exists_accounted (hr : (initial κ table).Becomes cacheSettings settings s) :
    ∃ C : Catalog (UUID × ℤ), C.Covers s.policies.store.log ∧ s.versions.Accounted C settings := by
  have hservice : s.Sound := hr.invariant (fun h he hs => h.step he hs) (sound_initial table)
  obtain ⟨C, hC⟩ := exists_catalog hservice.policies.increase
  obtain ⟨es, hr, hes⟩ := hr
  obtain ⟨es', hes'⟩ := (sound_initial table).run_versions hes hr hC
  exact ⟨C, hC, Transition.run_invariant (fun h hs => h.step hs) Fleet.accounted_initial hes'⟩

/-- What Redis admits under a version of a policy is within its quota. -/
theorem within_redis {C : Catalog (UUID × ℤ)} (h : s.versions.Sound C settings) {p : PolicyRead}
    (hp : C.policy p.key = p) : Within p.toPolicyBase (s.admissions p.key Source.isRedis) := by
  obtain ⟨ideal, -, hideal, hsub⟩ := h.redis p.key
  rw [hp] at hideal
  exact hideal.within.mono hsub.subperm

/-- The policy of a request by some table the database has held. -/
def BestBy (history : List Table) (identity : RequestIdentity) (result : Option PolicyRead) :
    Prop :=
  ∃ table ∈ history, ∃ policies, listPolicies true table = .ok policies ∧
    selectBestPolicy policies identity = result

/-- What the calls have decided with: the best policy of a list that the database has held, for
every answer and every request let through. -/
structure DecidedByBest (s : System κ) : Prop where
  /-- A number belongs to one call. -/
  numbered : s.Numbered
  /-- Lists come from tables. -/
  history : s.policies.FromHistory
  /-- A call's policy is the best one for its request. -/
  calls : ∀ n c, s.fleet.calls n = some c →
    BestBy s.policies.history c.identity (some c.policy)
  /-- A call without a policy had none. -/
  unlimited : ∀ identity ∈ s.unlimited, BestBy s.policies.history identity none
  /-- An answer is that of a call. -/
  answers : ∀ a ∈ s.fleet.answers, ∃ n c, s.fleet.calls n = some c ∧ c.answered = true ∧
    a.policy = c.policy

omit [DecidableEq κ] in
theorem decidedByBest_initial (table : Table) : (initial κ table).DecidedByBest where
  numbered := numbered_initial table
  history := PolicyFleet.fromHistory_initial table
  calls _ _ h := by cases h
  unlimited _ h := by cases h
  answers _ h := by cases h

theorem BestBy.mono {history history' : List Table} {identity : RequestIdentity}
    {result : Option PolicyRead} (h : BestBy history identity result)
    (hsub : history ⊆ history') : BestBy history' identity result := by
  obtain ⟨table, htable, hresult⟩ := h
  exact ⟨table, hsub htable, hresult⟩

theorem history_subset {policies policies' : PolicyFleet κ} {a : CacheEvent κ}
    (hp : policies.step cacheSettings a = some policies') :
    policies.history ⊆ policies'.history := by
  rcases PolicyFleet.history_of_step hp with ⟨hhistory, -⟩ | hhistory <;> rw [hhistory]
  · exact List.Subset.refl _
  · exact List.subset_append_left _ _

omit [DecidableEq κ] in
/-- What a list call has returned was read from a table. -/
theorem bestBy_of_returned (h : s.policies.FromHistory) {n : ℕ} {r : ListRun κ}
    (hr : r ∈ s.policies.lists n) {policies : List PolicyRead} (hp : r.phase = .returned policies)
    (identity : RequestIdentity) :
    BestBy s.policies.history identity (selectBestPolicy policies identity) := by
  obtain ⟨k, -, table, hk, hlist⟩ := h.lists.carried n r hr policies (by rw [hp]; rfl)
  exact ⟨table, List.mem_of_getElem? hk, policies, hlist, rfl⟩

/-- **Every event keeps it**, whatever fails: a list that was read once stays a list that the
database has held. -/
theorem DecidedByBest.step (h : s.DecidedByBest)
    (hs : s.step cacheSettings settings e = some s') : s'.DecidedByBest := by
  have hnumbered := h.numbered.step hs
  cases step_effect hs with
  | policies hp | evaluate hfree hp =>
    have hsub := history_subset hp
    exact ⟨hnumbered, h.history.step hp, fun n c hc => (h.calls n c hc).mono hsub,
      fun identity hi => (h.unlimited identity hi).mono hsub, h.answers⟩
  | @selects n identity r policies hw hr hp =>
    have hbest := bestBy_of_returned h.history hr hp identity
    have hfree := h.numbered.waiting n (by simp [hw])
    rw [System.select] at hnumbered ⊢
    cases hselect : selectBestPolicy policies identity with
    | none =>
      rw [hselect] at hnumbered hbest
      refine ⟨hnumbered, h.history, h.calls, fun identity' hi => ?_, h.answers⟩
      rcases List.mem_append.1 hi with hi | hi
      · exact h.unlimited identity' hi
      · rwa [List.mem_singleton.1 hi]
    | some policy =>
      rw [hselect] at hnumbered hbest
      refine ⟨hnumbered, h.history, fun m c hc => ?_, h.unlimited, fun a ha => ?_⟩
      · rcases Transition.mem_update_some hc with ⟨-, rfl⟩ | hc
        · exact hbest
        · exact h.calls m c hc
      · obtain ⟨m, c, hc, hanswered, hpolicy⟩ := h.answers a ha
        have hne : m ≠ n := fun hmn => by simp [hmn, hfree] at hc
        exact ⟨m, c, by simpa [hne] using hc, hanswered, hpolicy⟩
  | @proceeds _ n c c' fleet hc hproceeds =>
    have hself : fleet.calls n = some c' := by simp [hproceeds.calls]
    refine ⟨hnumbered, h.history, fun m d hd => ?_, h.unlimited, fun a ha => ?_⟩
    · rw [hproceeds.calls] at hd
      rcases Transition.mem_update_some hd with ⟨-, rfl⟩ | hd
      · rw [hproceeds.policy, hproceeds.identity]
        exact h.calls n c hc
      · exact h.calls m d hd
    · rcases hproceeds.answers a ha with ha | ⟨hanswered, hpolicy⟩
      · obtain ⟨m, d, hd, hanswered, hpolicy⟩ := h.answers a ha
        rcases eq_or_ne m n with rfl | hne
        · obtain rfl : c = d := Option.some_inj.1 (hc.symm.trans hd)
          exact ⟨m, c', hself, hproceeds.answered hanswered, by rw [hpolicy, hproceeds.policy]⟩
        · exact ⟨m, d, by simpa [hproceeds.calls, hne] using hd, hanswered, hpolicy⟩
      · exact ⟨n, c', hself, hanswered, hpolicy⟩

/-- **Requests are decided by the best policy of a table the database has held.**  Whatever the
calls interleave with and whatever fails, the policy of a call is the one that `select_best_policy`
finds for its request on such a table, every answer is that of a call that has returned, and a
request is let through without a decision only if none of the policies applies to it on one. -/
theorem decided_by_best (table : Table)
    (hr : Transition.run (System.step cacheSettings settings) (initial κ table) es = some s) :
    (∀ n c, s.fleet.calls n = some c →
      BestBy s.policies.history c.identity (some c.policy)) ∧
      (∀ a ∈ s.fleet.answers, ∃ n c, s.fleet.calls n = some c ∧ c.answered = true ∧
        a.policy = c.policy) ∧
      ∀ identity ∈ s.unlimited, BestBy s.policies.history identity none := by
  have h : s.DecidedByBest :=
    Transition.run_invariant (fun h hs => h.step hs) (decidedByBest_initial table) hr
  exact ⟨h.calls, h.answers, h.unlimited⟩

theorem decided_by_best_sample :
    ∃ s, Transition.run (System.step ⟨30, 30, true⟩ ⟨1, false, 120⟩) (initial Bool .sample)
        sampleRun = some s ∧
      ∀ n c, s.fleet.calls n = some c →
        BestBy s.policies.history c.identity (some c.policy) :=
  Transition.exists_run_of_isSome (by decide +kernel) fun _ hs => (decided_by_best .sample hs).1

end System

end RateLimiter
