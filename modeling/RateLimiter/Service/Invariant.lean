import RateLimiter.Service.Fleet
import RateLimiter.Limiter.Agreement

/-!
# What holds of a fleet in every reachable state

`step_effect` says once what an event can do to a fleet; everything else is derived from it.
`Fleet.Sound` is the invariant.  Redis represents an ideal limiter for each policy, and so does
the local limiter of each instance, and the admissions the answers tell of are among those of the
ideal limiter that decided them.  A run of a script whose reply nobody gets is an admission no
answer tells of.
-/

set_option autoImplicit false

namespace RateLimiter

variable {ι κ : Type}

/-! ## When requests were admitted -/

/-- The clock reading that decided: the `TIME` of the script, or the clock of the instance. The
degraded decision counts against no quota and has none. -/
def Source.ms : Source κ → Option ℤ
  | .redis ms | .localLimiter _ ms => some ms
  | .degraded => none

/-- Did Redis decide? Its answers share one quota, whatever instance they were given on. -/
def Source.isRedis : Source κ → Bool
  | .redis _ => true
  | .localLimiter _ _ | .degraded => false

/-- Did the local limiter of `j` decide? Each instance has a quota of its own. -/
def Source.isLocal [DecidableEq κ] (j : κ) : Source κ → Bool
  | .localLimiter origin _ => origin = j
  | .redis _ | .degraded => false

section Stamps

variable [DecidableEq ι]

/-- The clock reading of an answer that admits a request of policy `i`, if its source is one of
`p`. -/
def Answer.stamp (i : ι) (p : Source κ → Bool) (a : Answer ι κ) : Option ℤ :=
  if a.policy = i ∧ a.decision.allowed = true ∧ p a.source = true then a.source.ms else none

/-- When requests of policy `i` were admitted by the sources `p`. -/
def Fleet.stamps (f : Fleet ι κ) (i : ι) (p : Source κ → Bool) : List ℤ :=
  f.answers.filterMap (Answer.stamp i p)

/-- What an answer adds to the stamps of its own policy and source. -/
theorem filterMap_stamp_own {p : Source κ → Bool} (l : List (Answer ι κ)) (i : ι)
    (d : RateLimitDecision) {src : Source κ} (ms : ℤ) (hp : p src = true)
    (hms : src.ms = some ms) :
    (l ++ [(⟨i, d, src⟩ : Answer ι κ)]).filterMap (Answer.stamp i p) =
      l.filterMap (Answer.stamp i p) ++ if d.allowed then [ms] else [] := by
  rw [List.filterMap_append]
  congr 1
  cases hd : d.allowed <;> simp [Answer.stamp, hp, hms, hd]

/-- An answer adds nothing to the stamps of other policies and other sources. -/
theorem filterMap_stamp_other {i : ι} {p : Source κ → Bool} {a : Answer ι κ}
    (l : List (Answer ι κ)) (h : a.policy ≠ i ∨ p a.source = false) :
    (l ++ [a]).filterMap (Answer.stamp i p) = l.filterMap (Answer.stamp i p) := by
  have hnone : a.stamp i p = none := if_neg fun h' => by
    rcases h with h | h
    · exact h h'.1
    · exact absurd h'.2.2 (by simp [h])
  rw [List.filterMap_append, List.filterMap_cons_none hnone, List.filterMap_nil, List.append_nil]

/-- The limiter whose state is related to `s` has admitted at least `stamps`, within the quota. -/
def Admits (policy : PolicyBase) (now : ℤ) (stamps : List ℤ) (s : Ideal) : Prop :=
  s.Sound policy now ∧ stamps.Sublist s.admitted

variable {policy : PolicyBase} {now t : ℤ} {stamps : List ℤ} {s : Ideal} {l : List (Answer ι κ)}
  {i : ι} {p : Source κ → Bool}

theorem Admits.later (h : Admits policy now stamps s) (hst : now ≤ t) :
    Admits policy t stamps s :=
  ⟨h.1.later hst, h.2⟩

/-- The limiter decides, and no answer tells what. -/
theorem Admits.next (h : Admits policy now stamps s) (hst : now ≤ t) :
    Admits policy t stamps (s.next policy t) :=
  ⟨h.1.next hst, h.2.trans (Ideal.admitted_sublist_next _ _ _)⟩

/-- The limiter decides, and an answer tells what. -/
theorem Admits.next_own (h : Admits policy now (l.filterMap (Answer.stamp i p)) s) (hst : now ≤ t)
    {d : RateLimitDecision} {src : Source κ} (hp : p src = true) (hms : src.ms = some t)
    (hd : d.allowed = (s.verdict policy t).allowed) :
    Admits policy t ((l ++ [(⟨i, d, src⟩ : Answer ι κ)]).filterMap (Answer.stamp i p))
      (s.next policy t) := by
  refine ⟨h.1.next hst, ?_⟩
  rw [filterMap_stamp_own _ _ _ t hp hms, hd, Ideal.next]
  split
  · exact h.2.append_right _
  · rw [List.append_nil]
    exact h.2

/-- An answer tells what somebody else decided. -/
theorem Admits.other (h : Admits policy now (l.filterMap (Answer.stamp i p)) s) {a : Answer ι κ}
    (ha : a.policy ≠ i ∨ p a.source = false) :
    Admits policy now ((l ++ [a]).filterMap (Answer.stamp i p)) s := by
  rwa [filterMap_stamp_other _ ha]

end Stamps

variable [DecidableEq κ] {C : Catalog ι} {settings : Settings} {f f' : Fleet ι κ} {e : Event ι κ}

/-! ## What an event does -/

/-- What a run of the script does to the record of the call it is for. -/
inductive Charged (settings : Settings) (units : ℚ) (c : EvaluateCall ι κ) :
    EvaluateCall ι κ → Prop
  | answered (h : c.Trying settings) : Charged settings units c (c.charge units).answer
  | failed (h : c.Trying settings) : Charged settings units c (c.charge units).fail
  | late (h : 0 < c.onTheWay) :
      Charged settings units c { c.charge units with onTheWay := c.onTheWay - 1 }

/-- The four things an event can do. The invariants of a fleet are proved against these and never
against the seven events. -/
inductive Effect (C : Catalog ι) (settings : Settings) (f : Fleet ι κ) : Fleet ι κ → Prop
  /-- A call begins. -/
  | begin (n : ℕ) (c : EvaluateCall ι κ) (hfree : f.calls n = none)
      (hm : policyMatches (C.policy c.policy).toPolicyBase c.identity = true)
      (hc : c = { origin := c.origin, policy := c.policy, identity := c.identity }) :
      Effect C settings f (f.put n c)
  /-- An attempt fails and no script runs. -/
  | fail (n : ℕ) (c : EvaluateCall ι κ) (hc : f.calls n = some c) (ht : c.Trying settings)
      (more : ℕ) (hmore : more ≤ 1) :
      Effect C settings f (f.put n { c.fail with onTheWay := c.onTheWay + more })
  /-- Redis runs a script, and perhaps a call is answered. -/
  | serve (n : ℕ) (c c' : EvaluateCall ι κ) (hc : f.calls n = some c) (t : RedisTime)
      (member : String) (hs : f.Serves C (Fleet.request c t member))
      (hc' : Charged settings (f.unitsFor C (Fleet.request c t member)) c c')
      (as : List (Answer ι κ))
      (has : as = [] ∨ ∃ r, (RateLimiter.serve C .enforced f.redis (Fleet.request c t member)).1 =
        .ok r ∧ as = [⟨c.policy, parseCommonDecision r, .redis t.ms⟩]) :
      Effect C settings f { (f.afterServing C (Fleet.request c t member)).put n c' with
        answers := f.answers ++ as }
  /-- A call recovers from its last failure. -/
  | recover (n : ℕ) (c : EvaluateCall ι κ) (hc : f.calls n = some c)
      (hr : c.Recovering settings) (nowMs : ℤ) (hnow : f.localClock c.origin ≤ nowMs) :
      Effect C settings f ((f.recover C settings c nowMs).put n c.answer)

/-- **Every event does one of the four.** -/
theorem step_effect (h : f.step C settings e = some f') : Effect C settings f f' := by
  cases e with
  | begin n origin policy identity =>
    simp only [Fleet.step, Option.ite_none_right_eq_some, Option.some.injEq] at h
    obtain ⟨⟨hfree, hm⟩, rfl⟩ := h
    exact .begin n _ hfree hm rfl
  | reply n t member =>
    simp only [Fleet.step, Option.bind_eq_some_iff, Option.ite_none_right_eq_some] at h
    obtain ⟨c, hc, ⟨ht, hs⟩, h⟩ := h
    split at h
    · rename_i result hr
      cases h
      exact .serve n c _ hc t member hs (.answered ht) _ (Or.inr ⟨result, hr, rfl⟩)
    · cases h
      have : Effect C settings f _ := .serve n c _ hc t member hs (.failed ht) [] (Or.inl rfl)
      rwa [List.append_nil] at this
  | lose n t member =>
    simp only [Fleet.step, Option.bind_eq_some_iff, Option.ite_none_right_eq_some,
      Option.some.injEq] at h
    obtain ⟨c, hc, ⟨ht, hs⟩, rfl⟩ := h
    have : Effect C settings f _ := .serve n c _ hc t member hs (.failed ht) [] (Or.inl rfl)
    rwa [List.append_nil] at this
  | fail n =>
    simp only [Fleet.step, Option.bind_eq_some_iff, Option.ite_none_right_eq_some,
      Option.some.injEq] at h
    obtain ⟨c, hc, ht, rfl⟩ := h
    exact .fail n c hc ht 0 (Nat.zero_le 1)
  | abandon n =>
    simp only [Fleet.step, Option.bind_eq_some_iff, Option.ite_none_right_eq_some,
      Option.some.injEq] at h
    obtain ⟨c, hc, ht, rfl⟩ := h
    exact .fail n c hc ht 1 le_rfl
  | late n t member =>
    simp only [Fleet.step, Option.bind_eq_some_iff, Option.ite_none_right_eq_some,
      Option.some.injEq] at h
    obtain ⟨c, hc, ⟨hw, hs⟩, rfl⟩ := h
    have : Effect C settings f _ := .serve n c _ hc t member hs (.late hw) [] (Or.inl rfl)
    rwa [List.append_nil] at this
  | recover n nowMs =>
    simp only [Fleet.step, Option.bind_eq_some_iff, Option.ite_none_right_eq_some,
      Option.some.injEq] at h
    obtain ⟨c, hc, ⟨hr, hnow⟩, rfl⟩ := h
    exact .recover n c hc hr nowMs hnow

/-! ## The invariant -/

variable [DecidableEq ι]

/-- What an answer's source says about it: a local decision needs the fallback, and a degraded one
follows the failure mode. -/
def Answer.Justified (C : Catalog ι) (settings : Settings) (a : Answer ι κ) : Prop :=
  match a.source with
  | .redis _ => True
  | .localLimiter _ _ => settings.enableLocalFallbackLimiter = true
  | .degraded => settings.enableLocalFallbackLimiter = false ∧
      ∃ s, a.decision = buildDegradedDecision (C.policy a.policy).toPolicyBase s

/-- The invariant of a fleet: whatever was lost, repeated or late, Redis and each local limiter have
admitted no less than the answers tell of, and no more than the quota. -/
structure Fleet.Sound (C : Catalog ι) (settings : Settings) (f : Fleet ι κ) : Prop where
  /-- Calls have a policy that matches them. -/
  matched : ∀ n c, f.calls n = some c →
    policyMatches (C.policy c.policy).toPolicyBase c.identity = true
  /-- Redis represents an ideal limiter of each policy. -/
  redis : ∀ i, ∃ s, Represents .enforced (C.policy i).toPolicyBase (policyKey (C.policy i))
    f.members f.clock f.redis s ∧
      Admits (C.policy i).toPolicyBase f.clock (f.stamps i Source.isRedis) s
  /-- So does each local limiter, for fixed windows and token buckets. -/
  limiter : ∀ j i, (C.policy i).algorithm ≠ .slidingWindowLog →
    ∃ s, LocalRepresents .enforced (C.policy i).toPolicyBase (policyKey (C.policy i))
      (f.localClock j) (f.limiter j) s ∧
      Admits (C.policy i).toPolicyBase (f.localClock j) (f.stamps i (Source.isLocal j)) s
  /-- Sources tell the truth. -/
  justified : ∀ a ∈ f.answers, a.Justified C settings

theorem Fleet.sound_initial : (Fleet.initial ι κ).Sound C settings where
  matched n c h := by cases h
  redis i := ⟨.empty, represents_empty fun _ _ => rfl, Ideal.sound_empty _ _, List.nil_sublist _⟩
  limiter j i _ := ⟨.empty, localRepresents_empty _, Ideal.sound_empty _ _, List.nil_sublist _⟩
  justified a h := absurd h List.not_mem_nil

theorem Fleet.Sound.put (h : f.Sound C settings) {n : ℕ} {c : EvaluateCall ι κ}
    (hm : policyMatches (C.policy c.policy).toPolicyBase c.identity = true) :
    (f.put n c).Sound C settings where
  matched m d hd := by
    rcases Transition.mem_update_some hd with ⟨-, rfl⟩ | hd
    · exact hm
    · exact h.matched m d hd
  redis := h.redis
  limiter := h.limiter
  justified := h.justified

/-- Redis runs a script; `as` is what its reply answers. -/
theorem Fleet.Sound.serve (h : f.Sound C settings) {r : Request ι} (hs : f.Serves C r)
    (hm : policyMatches (C.policy r.policy).toPolicyBase r.identity = true)
    {as : List (Answer ι κ)}
    (has : as = [] ∨ ∃ out, (RateLimiter.serve C .enforced f.redis r).1 = .ok out ∧
      as = [⟨r.policy, parseCommonDecision out, .redis r.time.ms⟩]) :
    ({ f.afterServing C r with answers := f.answers ++ as } : Fleet ι κ).Sound C settings := by
  obtain ⟨hclock, hfresh⟩ := hs
  have hkey : r.key C = policyKey (C.policy r.policy) := buildRateLimitKey_of_matches hm
  obtain ⟨s, hrep, hadmits⟩ := h.redis r.policy
  rw [← hkey] at hrep
  have href := refines_eval hrep hclock hfresh
  refine ⟨h.matched, fun i => ?_, fun j i hi => ?_, fun a ha => ?_⟩
  · by_cases hi : i = r.policy
    · subst hi
      refine ⟨s.next (C.policy r.policy).toPolicyBase r.time.ms, hkey ▸ href.represents, ?_⟩
      rcases has with rfl | ⟨out, hout, rfl⟩
      · rw [List.append_nil]
        exact hadmits.next hclock
      · -- the reply tells of an admission exactly if the ideal limiter makes one
        have hans : Answers _ _ _ (RateLimiter.serve C .enforced f.redis r).1 := href.answer
        rw [hout] at hans
        refine hadmits.next_own hclock ?_ ?_ ?_
        · rfl
        · rfl
        · rw [hans.fields_eq]
          rfl
    · obtain ⟨s', hrep', hadmits'⟩ := h.redis i
      refine ⟨s', hrep'.serve_other hclock (Or.inl hi) href.changes, ?_⟩
      rcases has with rfl | ⟨out, -, rfl⟩
      · rw [List.append_nil]
        exact hadmits'.later hclock
      · exact (hadmits'.later hclock).other (Or.inl (Ne.symm hi))
  · obtain ⟨s', hrep', hadmits'⟩ := h.limiter j i hi
    refine ⟨s', hrep', ?_⟩
    rcases has with rfl | ⟨out, -, rfl⟩
    · rwa [List.append_nil]
    · exact hadmits'.other (Or.inr rfl)
  · rcases List.mem_append.1 ha with ha | ha
    · exact h.justified a ha
    · rcases has with rfl | ⟨out, -, rfl⟩
      · cases ha
      · rw [List.mem_singleton.1 ha]
        trivial

/-- An answer that does not come from Redis says nothing about Redis. -/
theorem Fleet.Sound.redis_concat (h : f.Sound C settings) {a : Answer ι κ}
    (ha : a.source.isRedis = false) (i : ι) :
    ∃ s, Represents .enforced (C.policy i).toPolicyBase (policyKey (C.policy i)) f.members f.clock
        f.redis s ∧
      Admits (C.policy i).toPolicyBase f.clock
        ((f.answers ++ [a]).filterMap (Answer.stamp i Source.isRedis)) s := by
  obtain ⟨s, hrep, hadmits⟩ := h.redis i
  exact ⟨s, hrep, hadmits.other (Or.inr ha)⟩

theorem Fleet.Sound.justified_concat (h : f.Sound C settings) {a : Answer ι κ}
    (ha : a.Justified C settings) : ∀ b ∈ f.answers ++ [a], b.Justified C settings := by
  intro b hb
  rcases List.mem_append.1 hb with hb | hb
  · exact h.justified b hb
  · rwa [List.mem_singleton.1 hb]

/-- A call recovers, and its instance's local limiter decides. -/
theorem Fleet.Sound.recover_local (h : f.Sound C settings) {c : EvaluateCall ι κ} {nowMs : ℤ}
    (hfb : settings.enableLocalFallbackLimiter = true)
    (hm : policyMatches (C.policy c.policy).toPolicyBase c.identity = true)
    (hnow : f.localClock c.origin ≤ nowMs) : (f.recover C settings c nowMs).Sound C settings := by
  have hkey := buildRateLimitKey_of_matches hm
  rw [Fleet.recover, if_pos hfb]
  refine ⟨h.matched, h.redis_concat rfl, fun j i hi => ?_, h.justified_concat hfb⟩
  obtain ⟨s, hrep, hadmits⟩ := h.limiter j i hi
  by_cases hj : j = c.origin
  · subst hj
    simp only [Function.update_self]
    by_cases hpi : i = c.policy
    · subst hpi
      rw [← hkey] at hrep
      obtain ⟨hdec, hrep'⟩ := hrep.apply settings.localFallbackStateTtlSeconds hnow
        fun ha => absurd ha hi
      refine ⟨_, hkey ▸ hrep', hadmits.next_own hnow ?_ ?_ ?_⟩
      · simp [Source.isLocal]
      · rfl
      · rw [hdec]
        rfl
    · exact ⟨s, hrep.apply_other _ hnow (buildRateLimitKey_ne hpi _ _),
        (hadmits.later hnow).other (Or.inl (Ne.symm hpi))⟩
  · simp only [Function.update_of_ne hj]
    exact ⟨s, hrep, hadmits.other (Or.inr (by simp [Source.isLocal, Ne.symm hj]))⟩

theorem Fleet.Sound.recover_degraded (h : f.Sound C settings) {c : EvaluateCall ι κ} {nowMs : ℤ}
    (hfb : settings.enableLocalFallbackLimiter = false)
    (hnow : f.localClock c.origin ≤ nowMs) : (f.recover C settings c nowMs).Sound C settings := by
  rw [Fleet.recover, if_neg (by simp [hfb])]
  refine ⟨h.matched, h.redis_concat rfl, fun j i hi => ?_, h.justified_concat ⟨hfb, _, rfl⟩⟩
  obtain ⟨s, hrep, hadmits⟩ := h.limiter j i hi
  have hclock : f.localClock j ≤ Function.update f.localClock c.origin nowMs j := by
    by_cases hj : j = c.origin
    · rwa [hj, Function.update_self]
    · rw [Function.update_of_ne hj]
  exact ⟨s, hrep.later hclock, (hadmits.later hclock).other (Or.inr rfl)⟩

/-- A call recovers from its last failure. -/
theorem Fleet.Sound.recover (h : f.Sound C settings) {c : EvaluateCall ι κ} {nowMs : ℤ}
    (hm : policyMatches (C.policy c.policy).toPolicyBase c.identity = true)
    (hnow : f.localClock c.origin ≤ nowMs) : (f.recover C settings c nowMs).Sound C settings := by
  cases hfb : settings.enableLocalFallbackLimiter with
  | true => exact h.recover_local hfb hm hnow
  | false => exact h.recover_degraded hfb hnow

/-- **Every event keeps the invariant.** The cases are the four effects, and only a script and a
recovery touch a limiter. -/
theorem Fleet.Sound.step (h : f.Sound C settings) (hs : f.step C settings e = some f') :
    f'.Sound C settings := by
  cases step_effect hs with
  | begin n c hfree hm hc => exact h.put hm
  | fail n c hc ht more hmore => exact h.put (h.matched n c hc)
  | serve n c c' hc t member hserve hc' as has =>
    have hm := h.matched n c hc
    refine (h.serve hserve hm has).put ?_
    cases hc' <;> exact hm
  | recover n c hc hr nowMs hnow =>
    have hm := h.matched n c hc
    exact (h.recover hm hnow).put hm

/-- **The invariant holds in every reachable state**, whatever the order of the events was. -/
theorem Fleet.sound_of_run {es : List (Event ι κ)}
    (hr : Transition.run (Fleet.step C settings) (.initial ι κ) es = some f) :
    f.Sound C settings :=
  Transition.run_invariant (fun h hs => h.step hs) Fleet.sound_initial hr

end RateLimiter
