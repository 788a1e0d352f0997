import RateLimiter.Limiter.Machines

/-!
# What a reply promises

The numbers in a reply are about requests to come, and they are right: `remaining` requests at the
same time are admitted and the next one is not (`remaining_exact`), a request that is turned down is
admitted after `retry_after` and no sooner, and `reset_at` is when the quota is whole again
(`retry_and_reset_exact`).  Both hold for the scripts and for the algorithms in Python, since both
show the verdicts of the ideal limiter.
-/

set_option autoImplicit false

namespace RateLimiter

open Quota

/-- The scores in the sorted set under a key, which are the times of the admissions that are still
there. -/
def Keyspace.log (ks : Keyspace) (key : String) : List ℤ :=
  match (ks key).map Entry.value with
  | some (.zset ms) => scores ms
  | _ => []

/-- After `calls`, a call at `u` would get the verdict `w`, under whatever member it is sent. -/
def RedisNext (x : Expiry) (policy : PolicyBase) (key : String) (calls : List Call) (u : ℤ)
    (w : Verdict) : Prop :=
  ∃ d : Call, d.ms = u ∧ OrderlyCalls policy (calls ++ [d]) ∧
    observe (evaluate x policy key (Timed.final (evaluate x policy key) .empty calls) d).1 = some w

variable {policy : PolicyBase} {s : Ideal} {now t : ℤ}

theorem Keyspace.log_of_zentry {ks : Keyspace} {key : String} {ms : List (ℤ ×ₗ String)}
    {d : Option ℤ} (h : ks key = zentry ms d) : ks.log key = scores ms := by
  rw [log, h]
  rcases eq_or_ne ms [] with rfl | hne
  · rfl
  · rw [zentry_of_ne hne]
    rfl

/-- The log of a sliding window holds the admissions that count. -/
theorem Represents.live_log {x : Expiry} {key : String} {members : List String} {ks : Keyspace}
    (h : Represents x policy key members t ks s) (ha : policy.algorithm = .slidingWindowLog) :
    SlidingLog.live policy.windowMs (ks.log key) t =
      SlidingLog.live policy.windowMs s.admitted t := by
  obtain ⟨ms, d, hk, hl⟩ := (represents_slidingWindowLog ha).1 h
  rw [Keyspace.log_of_zentry hk]
  exact hl.live t le_rfl

theorem Exact.reseconds {logged : List ℤ} {v : Verdict} {seconds seconds' : ℤ}
    {next : ℤ → Verdict → Prop} (h : Exact policy logged t v seconds next)
    (hs : v.allowed = false → seconds' = seconds) : Exact policy logged t v seconds' next where
  retry_pos := h.retry_pos
  retry := h.retry
  seconds_spec hd := by
    rw [hs hd]
    exact h.seconds_spec hd
  reset := h.reset
  oldest := h.oldest

section Redis

variable {x : Expiry} {key : String} {calls : List Call} {c : Call} {r : Reply}

/-- A reply is the verdict of the ideal limiter. -/
theorem RedisShows.verdict_eq {members : List String} {ks : Keyspace}
    (h : RedisShows x policy key members now ks s)
    (ho : Timed.InOrder Call.ms (Call.tag policy) members now [c]) {v : Verdict}
    (hv : observe (evaluate x policy key ks c).1 = some v) : v = s.verdict policy c.ms := by
  rw [(h.step ho.1 ho.2.1).1, Ideal.outcomeStep, Ideal.outcome] at hv
  split at hv
  · exact (Option.some_inj.1 hv).symm
  · cases hv

theorem redis_exact (ho : OrderlyCalls policy (calls ++ [c]))
    (hr : (evaluate x policy key (Timed.final (evaluate x policy key) .empty calls) c).1 = .ok r) :
    Exact policy
      ((Timed.final (evaluate x policy key) .empty (calls ++ [c])).log key) c.ms r.verdict
      (parseCommonDecision r).retryAfterSeconds (RedisNext x policy key (calls ++ [c])) := by
  obtain ⟨members, now, hshows, hin⟩ := evaluate_final x key ho
  have hstep := (hshows.step hin.1 hin.2.1).2
  have hv : r.verdict = _ := hshows.verdict_eq hin (by rw [hr]; rfl)
  have hexact := (hshows.2.later hin.1).exact
  rw [← hv] at hexact
  rw [Timed.final_concat]
  refine ((hexact.relog fun ha => hstep.1.live_log ha).reseconds fun hd => ?_).mono ?_
  · rw [parseCommonDecision_eq, decisionOf, hd]
    rfl
  · rintro u w - ⟨d, rfl, hd, hw⟩
    obtain ⟨members', now', hshows', hin'⟩ := evaluate_final x key hd
    have := hshows'.verdict_eq hin' hw
    rwa [Timed.final_concat] at this

/-- A call is answered unless Redis refuses its deadline. -/
theorem evaluate_answered (ho : OrderlyCalls policy (calls ++ [c]))
    (hacc : Accepted x c.time policy.expiryMs) :
    ∃ r, (evaluate x policy key (Timed.final (evaluate x policy key) .empty calls) c).1 =
      .ok r := by
  obtain ⟨members, now, hshows, hin⟩ := evaluate_final x key ho
  exact (refines_eval hshows.1 hin.1 hin.2.1).answer.ok_of_accepted hacc

end Redis

theorem python_exact {times : List ℤ} (ho : (times ++ [t]).Pairwise (· ≤ ·)) :
    let out := applyAlgorithm policy (Timed.final (applyAlgorithm policy) .initial times) t
    Exact policy out.2.events t out.1.verdict (toDecision policy out.1).retryAfterSeconds
      fun u w => w = (applyAlgorithm policy out.2 u).1.verdict := by
  obtain ⟨now, ⟨hshows, hreached⟩, hnow⟩ := applyAlgorithm_final policy ho
  have hst := hnow t (List.mem_singleton.2 rfl)
  obtain ⟨hv, hnext⟩ := hshows.step hreached hst
  have hexact := (hreached.later hst).exact
  rw [← hv] at hexact
  refine ((hexact.relog fun ha => ?_).reseconds fun hd => ?_).mono ?_
  · simp only [AlgorithmState.Shows, ha] at hnext
    exact hnext t le_rfl
  · have hd' : (applyAlgorithm policy (Timed.final (applyAlgorithm policy) .initial times)
        t).1.allowed = false := hd
    rw [toDecision, hd']
    rfl
  · intro u w hu hw
    rw [hw]
    exact (hnext.step (hreached.next hst) hu).1

/-- **Retry and reset are exact.** -/
theorem retry_and_reset_exact (policy : PolicyBase) :
    (∀ (x : Expiry) (key : String) (calls : List Call) (c : Call) (r : Reply),
      OrderlyCalls policy (calls ++ [c]) →
      (evaluate x policy key (Timed.final (evaluate x policy key) .empty calls) c).1 = .ok r →
        let ks := Timed.final (evaluate x policy key) .empty (calls ++ [c])
        Exact policy (ks.log key) c.ms r.verdict (parseCommonDecision r).retryAfterSeconds
          (RedisNext x policy key (calls ++ [c])) ∧
        ∀ d, OrderlyCalls policy (calls ++ [c] ++ [d]) → Accepted x d.time policy.expiryMs →
          ∃ r', (evaluate x policy key ks d).1 = .ok r') ∧
    ∀ (times : List ℤ) (t : ℤ), (times ++ [t]).Pairwise (· ≤ ·) →
      let out := applyAlgorithm policy (Timed.final (applyAlgorithm policy) .initial times) t
      Exact policy out.2.events t out.1.verdict (toDecision policy out.1).retryAfterSeconds
        fun u w => w = (applyAlgorithm policy out.2 u).1.verdict :=
  ⟨fun _ _ _ _ _ ho hr => ⟨redis_exact ho hr, fun _ hd hacc => evaluate_answered hd hacc⟩,
    fun _ _ ho => python_exact ho⟩

/-- A sliding log of two a minute turns the third request in a minute down for another forty
seconds, in Redis and in Python. -/
theorem retry_and_reset_exact_sample :
    let policy := (PolicyRead.sample .slidingWindowLog 1).toPolicyBase
    let calls : List Call := [⟨.atSecond 30, "a"⟩, ⟨.atSecond 40, "b"⟩]
    let c : Call := ⟨.atSecond 50, "c"⟩
    let r : Reply := ⟨0, 2, 0, 90000, 40000, 2⟩
    let out := applyAlgorithm policy (Timed.final (applyAlgorithm policy) .initial [30000, 40000])
      50000
    Exact policy ((Timed.final (evaluate .enforced policy "k") .empty (calls ++ [c])).log "k") c.ms
        r.verdict (parseCommonDecision r).retryAfterSeconds
        (RedisNext .enforced policy "k" (calls ++ [c])) ∧
      Exact policy out.2.events 50000 out.1.verdict (toDecision policy out.1).retryAfterSeconds
        fun u w => w = (applyAlgorithm policy out.2 u).1.verdict :=
  ⟨((retry_and_reset_exact _).1 .enforced "k" _ _ _ ⟨by decide, by decide⟩ (by decide +kernel)).1,
    (retry_and_reset_exact _).2 _ _ (by decide)⟩

/-! ## How many are left -/

section Burst

variable {x : Expiry} {key : String}

/-- The deadline of a later request at the same time is refused only if this one's is. -/
theorem Ideal.setsDeadline_of_next (h : (s.next policy t).SetsDeadline policy t) :
    s.SetsDeadline policy t := by
  rw [SetsDeadline] at h ⊢
  split at h <;> rename_i ha
  · rw [next_fixedWindow ha, FixedWindow.step_snd] at h
    split at h
    · rw [FixedWindow.used_append_self policy.windowMs_pos, FixedWindow.used] at h
      omega
    · exact h
  · rw [allowed_iff, available_next] at h
    rw [allowed_iff]
    split at h <;> omega
  · trivial

/-- As long as no deadline is refused, the calls at one time show the verdicts. -/
theorem Ideal.outputs_outcome {calls : List Call} (hc : ∀ c ∈ calls, c.ms = t)
    (hacc : s.SetsDeadline policy t → x = .ignored ∨ LegalExpiry t policy.expiryMs) :
    Timed.outputs (Ideal.outcomeStep x policy) s calls =
      (Timed.outputs (Ideal.step Call.ms policy) s calls).map some := by
  induction calls generalizing s with
  | nil => rfl
  | cons c calls ih =>
    obtain rfl := hc c List.mem_cons_self
    have hgo : s.SetsDeadline policy c.time.ms → Accepted x c.time policy.expiryMs := hacc
    have hfirst : s.outcome x policy c.time = some (s.verdict policy c.ms) := if_pos hgo
    rw [Timed.outputs, Timed.outputs, List.map_cons, Ideal.outcomeStep, Ideal.step, hfirst]
    exact congrArg _ (ih (fun d hd => hc d (List.mem_cons_of_mem c hd))
      fun h => hacc (setsDeadline_of_next h))

theorem redis_burst {calls burst : List Call} {c : Call} {r : Reply}
    (ho : OrderlyCalls policy (calls ++ c :: burst)) (hb : ∀ d ∈ burst, d.ms = c.ms)
    (hr : (evaluate x policy key (Timed.final (evaluate x policy key) .empty calls) c).1 = .ok r) :
    0 ≤ r.remaining ∧ r.remaining < policy.headerLimit ∧
      ((burst.length : ℤ) = r.remaining + 1 →
        ((Timed.outputs (evaluate x policy key)
            (Timed.final (evaluate x policy key) .empty (calls ++ [c])) burst).map observe).map
          (Option.map (·.allowed)) =
            (List.replicate r.remaining.toNat true ++ [false]).map some) := by
  obtain ⟨members, now, hshows, hst, hm, hrest⟩ := evaluate_final x key ho
  generalize Timed.final (Ideal.outcomeStep x policy) .empty calls = s at hshows
  obtain ⟨hout, hstep⟩ := hshows.step hst hm
  have hreached := hshows.2.later hst
  have hrun : List.map observe _ = Timed.outputs (Ideal.outcomeStep x policy) (s.next policy c.ms)
    burst := (hstep.run hrest).1
  rw [hr, Ideal.outcomeStep, Ideal.outcome] at hout
  split at hout
  case isFalse => cases hout
  rename_i hgo
  have hacc : s.SetsDeadline policy c.ms →
      x = .ignored ∨ LegalExpiry c.ms policy.expiryMs := hgo
  have hrem : r.remaining = (s.verdict policy c.ms).remaining :=
    congrArg Verdict.remaining (Option.some_inj.1 hout)
  obtain ⟨hnonneg, hlt⟩ := hreached.remaining_bounds
  rw [hrem]
  refine ⟨hnonneg, hlt, fun hlen => ?_⟩
  rw [Timed.final_concat, hrun,
    Ideal.outputs_outcome hb fun h => hacc (Ideal.setsDeadline_of_next h), List.map_map]
  show List.map (some ∘ fun v : Verdict => v.allowed) _ = _
  rw [← List.map_map, Ideal.outputs_burst hb hreached.available_eq_toNat (by omega)]

theorem python_burst {times : List ℤ} (ho : (times ++ [t]).Pairwise (· ≤ ·)) :
    let out := applyAlgorithm policy (Timed.final (applyAlgorithm policy) .initial times) t
    0 ≤ out.1.remaining ∧ out.1.remaining < policy.headerLimit ∧
      (Timed.outputs (applyAlgorithm policy) out.2
        (List.replicate (out.1.remaining.toNat + 1) t)).map (·.allowed) =
          List.replicate out.1.remaining.toNat true ++ [false] := by
  intro out
  obtain ⟨now, ⟨hshows, hreached⟩, hnow⟩ := applyAlgorithm_final policy ho
  generalize Timed.final (Ideal.step id policy) .empty times = s at hshows hreached
  have hst := hnow t (List.mem_singleton.2 rfl)
  obtain ⟨hv, hnext⟩ := hshows.step hreached hst
  have hreached' := hreached.later hst
  have hrem : out.1.remaining = (s.verdict policy t).remaining := congrArg Verdict.remaining hv
  obtain ⟨hnonneg, hlt⟩ := hreached'.remaining_bounds
  have hn := hreached'.available_eq_toNat
  rw [← hrem] at hnonneg hlt hn
  refine ⟨hnonneg, hlt, ?_⟩
  have hsame : ∀ u ∈ List.replicate (out.1.remaining.toNat + 1) t, id u = t :=
    fun u hu => List.eq_of_mem_replicate hu
  have hrun := (PythonShows.run ⟨hnext, hreached.next hst⟩
    (List.pairwise_replicate.2 (Or.inr le_rfl)) fun u hu => (hsame u hu).ge).1
  show List.map (Verdict.allowed ∘ RateLimitComputation.verdict) _ = _
  rw [← List.map_map, hrun]
  exact Ideal.outputs_burst hsame hn List.length_replicate

/-- **Remaining is exact.** -/
theorem remaining_exact (policy : PolicyBase) :
    (∀ (x : Expiry) (key : String) (calls burst : List Call) (c : Call) (r : Reply),
      OrderlyCalls policy (calls ++ c :: burst) → (∀ d ∈ burst, d.ms = c.ms) →
      (evaluate x policy key (Timed.final (evaluate x policy key) .empty calls) c).1 = .ok r →
        0 ≤ r.remaining ∧ r.remaining < policy.headerLimit ∧
        ((burst.length : ℤ) = r.remaining + 1 →
          ((Timed.outputs (evaluate x policy key)
              (Timed.final (evaluate x policy key) .empty (calls ++ [c])) burst).map observe).map
            (Option.map (·.allowed)) =
              (List.replicate r.remaining.toNat true ++ [false]).map some)) ∧
    ∀ (times : List ℤ) (t : ℤ), (times ++ [t]).Pairwise (· ≤ ·) →
      let out := applyAlgorithm policy (Timed.final (applyAlgorithm policy) .initial times) t
      0 ≤ out.1.remaining ∧ out.1.remaining < policy.headerLimit ∧
        (Timed.outputs (applyAlgorithm policy) out.2
          (List.replicate (out.1.remaining.toNat + 1) t)).map (·.allowed) =
            List.replicate out.1.remaining.toNat true ++ [false] :=
  ⟨fun _ _ _ _ _ _ ho hb hr => redis_burst ho hb hr, fun _ _ ho => python_burst ho⟩

/-- A bucket of two that has just given one away gives one more. -/
theorem remaining_exact_sample :
    let policy := (PolicyRead.sample .tokenBucket 1).toPolicyBase
    let c : Call := ⟨.atSecond 30, ""⟩
    ((Timed.outputs (evaluate .enforced policy "k")
        (Timed.final (evaluate .enforced policy "k") .empty [c]) [c, c]).map observe).map
      (Option.map (·.allowed)) = [some true, some false] ∧
    (Timed.outputs (applyAlgorithm policy) (applyAlgorithm policy .initial 30000).2
      [30000, 30000]).map (·.allowed) = [true, false] := by
  intro policy c
  constructor
  · exact ((remaining_exact policy).1 .enforced "k" [] [c, c] c ⟨1, 2, 1, 60000, 0, 1⟩
      ⟨by decide, by decide⟩ (by decide) (by decide +kernel)).2.2 rfl
  · have hone : (applyAlgorithm policy .initial 30000).1.remaining = 1 := by decide +kernel
    have h := ((remaining_exact policy).2 [] 30000 (by decide)).2.2
    show (Timed.outputs (applyAlgorithm policy) _ (List.replicate ((1 : ℤ).toNat + 1) 30000)).map
      _ = List.replicate (1 : ℤ).toNat true ++ [false]
    rw [← hone]
    exact h

end Burst

end RateLimiter
