import RateLimiter.Limiter.Machines
import RateLimiter.Redis.Server

/-!
# A local limiter that serves many policies

The calls of one `LocalFallbackLimiter`, for the policies of a catalog.  Every call evicts from all
three dictionaries, for every key.  `callsUnder` picks the calls of one key out of a run, and
`callsUnder_rule` is the way to prove something about them: the calls of other keys do nothing but
evict.  For fixed windows and token buckets eviction is invisible (`eviction_invisible`).
-/

set_option autoImplicit false

namespace RateLimiter

/-- A call of `LocalFallbackLimiter.apply`.  The reading is positive: for a `now_ms` of zero `apply`
looks at the clock itself. -/
structure LocalCall (ι : Type) where
  policy : ι
  /-- Whose request it is. -/
  identity : RequestIdentity
  /-- `now_ms`. -/
  nowMs : ℤ
  /-- It is not zero. -/
  nowMs_pos : 0 < nowMs

variable {ι : Type} (C : Catalog ι) (stateTtlSeconds : ℤ)

/-- The key `apply` builds. -/
def LocalCall.key (c : LocalCall ι) : String := buildRateLimitKey (C.policy c.policy) c.identity

/-- Serve one call: `apply` with eviction, under the policy the catalog has for the call. -/
def serveLocal (self : LocalFallbackLimiter) (c : LocalCall ι) :
    LocalFallbackDecision × LocalFallbackLimiter :=
  self.apply .enforced stateTtlSeconds (C.policy c.policy) c.identity c.nowMs

/-- The calls under one key, as readings and decisions, out of a run in which calls under all keys
are mixed. -/
def callsUnder (key : String) (calls : List (LocalCall ι)) : List (ℤ × LocalFallbackDecision) :=
  ((Timed.trace (serveLocal C stateTtlSeconds) .empty calls).filter fun e => e.1.key C = key).map
    fun e => (e.1.nowMs, e.2)

/-- The readings of the calls under one key. -/
def readingsUnder (key : String) (calls : List (LocalCall ι)) : List ℤ :=
  (calls.filter fun c => c.key C = key).map LocalCall.nowMs

/-- The readings at which calls were admitted, which is what a quota speaks of. -/
def admittedOf (es : List (ℤ × LocalFallbackDecision)) : List ℤ :=
  (es.filter fun e => e.2.allowed).map Prod.fst

/-- Readings that do not run backwards, as those of a clock that is never set back. -/
def Steady (calls : List (LocalCall ι)) : Prop := calls.Pairwise fun c d => c.nowMs ≤ d.nowMs

instance (calls : List (LocalCall ι)) : Decidable (Steady calls) :=
  inferInstanceAs (Decidable (List.Pairwise _ calls))

variable {C stateTtlSeconds} {key : String} {calls : List (LocalCall ι)} {c : LocalCall ι}

theorem callsUnder_concat (calls : List (LocalCall ι)) (c : LocalCall ι) :
    callsUnder C stateTtlSeconds key (calls ++ [c]) = callsUnder C stateTtlSeconds key calls ++
      if c.key C = key then [(c.nowMs, (serveLocal C stateTtlSeconds
        (Timed.final (serveLocal C stateTtlSeconds) .empty calls) c).1)] else [] := by
  rw [callsUnder, Timed.trace_concat, List.filter_append, List.map_append, callsUnder]
  split <;> simp [*]

theorem admittedOf_concat (es : List (ℤ × LocalFallbackDecision)) (t : ℤ)
    (d : LocalFallbackDecision) :
    admittedOf (es ++ [(t, d)]) = if d.allowed then admittedOf es ++ [t] else admittedOf es := by
  rw [admittedOf, List.filter_append, List.map_append]
  cases hd : d.allowed with
  | false => simp [hd, admittedOf]
  | true => simp [hd, admittedOf]

theorem map_fst_callsUnder (calls : List (LocalCall ι)) :
    (callsUnder C stateTtlSeconds key calls).map Prod.fst = readingsUnder C key calls := by
  conv_rhs => rw [readingsUnder, ← Timed.map_fst_trace (serveLocal C stateTtlSeconds) .empty calls]
  rw [callsUnder, List.map_map, List.filter_map, List.map_map]
  rfl

/-- `apply` depends on the identity through its key only. -/
theorem LocalFallbackLimiter.apply_congr {policy : PolicyRead} {a b : RequestIdentity} (x : Expiry)
    (ttl t : ℤ) (self : LocalFallbackLimiter)
    (h : buildRateLimitKey policy a = buildRateLimitKey policy b) :
    self.apply x ttl policy a t = self.apply x ttl policy b t := by
  rw [apply, apply, h]

/-- **What holds of the calls under one key.**  By induction on the run: a call under the key goes
on from what holds, and a call under another key only lets time pass and evicts. -/
theorem callsUnder_rule {i : ι} {a : RequestIdentity}
    {R : List (ℤ × LocalFallbackDecision) → ℤ → LocalFallbackLimiter → Prop}
    (hstart : R [] 0 .empty)
    (hown : ∀ {es now self t}, R es now self → now ≤ t →
      let out := self.apply .enforced stateTtlSeconds (C.policy i) a t
      R (es ++ [(t, out.1)]) t out.2)
    (hother : ∀ {es now self t} {q : PolicyRead} {b : RequestIdentity}, R es now self → now ≤ t →
      buildRateLimitKey (C.policy i) a ≠ buildRateLimitKey q b →
      R es t (self.apply .enforced stateTtlSeconds q b t).2)
    (ho : Steady calls) :
    R (callsUnder C stateTtlSeconds (buildRateLimitKey (C.policy i) a) calls)
      (Timed.timeAfter LocalCall.nowMs 0 calls)
      (Timed.final (serveLocal C stateTtlSeconds) .empty calls) := by
  induction calls using List.reverseRecOn with
  | nil => exact hstart
  | append_singleton calls c ih =>
    have hbefore := ih (List.pairwise_append.1 ho).1
    have hnow : Timed.timeAfter LocalCall.nowMs 0 calls ≤ c.nowMs :=
      Timed.timeAfter_le ho (fun d _ => d.nowMs_pos.le) c (List.mem_singleton.2 rfl)
    rw [callsUnder_concat, Timed.timeAfter_concat, Timed.final_concat]
    by_cases hkey : c.key C = buildRateLimitKey (C.policy i) a
    · obtain rfl : c.policy = i := by
        by_contra hne
        exact buildRateLimitKey_ne hne _ _ hkey
      rw [if_pos hkey, serveLocal, LocalFallbackLimiter.apply_congr _ _ _ _ hkey]
      exact hown hbefore hnow
    · rw [if_neg hkey, List.append_nil]
      exact hother hbefore hnow fun he => hkey he.symm

/-! ## Fixed windows and token buckets -/

/-- What the limiter holds under a key, and the algorithm folded over the readings. -/
def KeyInStep (policy : PolicyRead) (key : String) (es : List (ℤ × LocalFallbackDecision)) (now : ℤ)
    (self : LocalFallbackLimiter) : Prop :=
  ∃ s, LocalRepresents .enforced policy.toPolicyBase key now self s ∧
    PythonShows policy.toPolicyBase now
      (Timed.final (applyAlgorithm policy.toPolicyBase) .initial (es.map Prod.fst)) s

theorem keyInStep (stateTtlSeconds : ℤ) {i : ι}
    (ha : (C.policy i).algorithm ≠ .slidingWindowLog) (a : RequestIdentity) (ho : Steady calls) :
    KeyInStep (C.policy i) (buildRateLimitKey (C.policy i) a)
      (callsUnder C stateTtlSeconds (buildRateLimitKey (C.policy i) a) calls)
      (Timed.timeAfter LocalCall.nowMs 0 calls)
      (Timed.final (serveLocal C stateTtlSeconds) .empty calls) := by
  refine callsUnder_rule ⟨_, localRepresents_empty 0, pythonShows_initial _ 0⟩ ?_ ?_ ho
  · rintro es now self t ⟨s, hlocal, hpython, hreached⟩ hst
    refine ⟨_, (hlocal.apply stateTtlSeconds hst fun h => absurd h ha).2, ?_, hreached.next hst⟩
    rw [List.map_append, List.map_singleton, Timed.final_concat]
    exact (hpython.step hreached hst).2
  · rintro es now self t q b ⟨s, hlocal, hpython, hreached⟩ hst hne
    exact ⟨s, hlocal.apply_other stateTtlSeconds hst hne, hpython.later hst, hreached.later hst⟩

/-- **Eviction is invisible** for fixed windows and token buckets: each decision is the algorithm's,
folded over the earlier calls under the same key. -/
theorem eviction_invisible (C : Catalog ι) (stateTtlSeconds : ℤ) (before : List (LocalCall ι))
    (c : LocalCall ι) (ho : Steady (before ++ [c]))
    (ha : (C.policy c.policy).algorithm ≠ .slidingWindowLog) :
    let policy := (C.policy c.policy).toPolicyBase
    (serveLocal C stateTtlSeconds (Timed.final (serveLocal C stateTtlSeconds) .empty before) c).1 =
      toDecision policy (applyAlgorithm policy (Timed.final (applyAlgorithm policy) .initial
        (readingsUnder C (c.key C) before)) c.nowMs).1 := by
  intro policy
  obtain ⟨s, hlocal, hpython, hreached⟩ := keyInStep stateTtlSeconds ha c.identity
    (List.pairwise_append.1 ho).1
  have hnow : Timed.timeAfter LocalCall.nowMs 0 before ≤ c.nowMs :=
    Timed.timeAfter_le ho (fun d _ => d.nowMs_pos.le) c (List.mem_singleton.2 rfl)
  rw [map_fst_callsUnder] at hpython
  have hdecision := (hlocal.apply stateTtlSeconds hnow fun h => absurd h ha).1
  have hverdict := (hpython.step hreached hnow).1
  rw [serveLocal, hdecision, toDecision_eq, LocalCall.key, hverdict]

/-- A user's call at a whole second. -/
def LocalCall.sample (policy : RateLimitAlgorithm) (second : ℤ)
    (h : 0 < second * 1000 := by decide) : LocalCall RateLimitAlgorithm :=
  ⟨policy, .sample, second * 1000, h⟩

/-- The window of the first two calls is evicted when the log is used, two minutes later. -/
theorem eviction_invisible_sample :
    let before : List (LocalCall RateLimitAlgorithm) :=
      [.sample .fixedWindow 30, .sample .fixedWindow 31, .sample .slidingWindowLog 151]
    let policy := (Catalog.sample.policy .fixedWindow).toPolicyBase
    let self := Timed.final (serveLocal Catalog.sample 1) .empty before
    self.fixedWindows (LocalCall.key Catalog.sample (.sample .fixedWindow 30)) = none ∧
      (serveLocal Catalog.sample 1 self (.sample .fixedWindow 152)).1 =
        toDecision policy (applyAlgorithm policy (Timed.final (applyAlgorithm policy) .initial
          (readingsUnder Catalog.sample (LocalCall.key Catalog.sample (.sample .fixedWindow 152))
            before)) 152000).1 :=
  ⟨by decide +kernel, eviction_invisible Catalog.sample 1 _ (.sample .fixedWindow 152) (by decide)
    (by decide)⟩

end RateLimiter
