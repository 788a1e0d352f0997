import RateLimiter.Limiter.Replies

/-!
# Requests that are turned down leave no trace

They do change what is stored: the script counts them in a fixed window, prunes the log or refills
the bucket, and so does the algorithm in Python.  But the ideal limiter is `Alike` before and after
them, and so nobody else is ever told anything different (`denied_leaves_no_trace`).
-/

set_option autoImplicit false

namespace RateLimiter

open Quota

variable {policy : PolicyBase} {s s' : Ideal} {now : ℤ} {x : Expiry} {key : String}

theorem Ideal.Alike.outcome_eq (h : Alike policy now s s') {t : RedisTime} (hst : now ≤ t.ms) :
    s.outcome x policy t = s'.outcome x policy t := by
  have hv := (h.step hst).1
  have hsets : s.SetsDeadline policy t.ms ↔ s'.SetsDeadline policy t.ms := by
    simp only [SetsDeadline, hv, h.admitted]
  simp only [outcome, hv, hsets]

theorem Ideal.Alike.outputs_eq (h : Alike policy now s s') {times : List ℤ}
    (ho : times.Pairwise (· ≤ ·)) (hnow : ∀ t ∈ times, now ≤ t) :
    Timed.outputs (Ideal.step id policy) s times =
      Timed.outputs (Ideal.step id policy) s' times := by
  rw [← List.forall₂_eq_eq_eq]
  refine (@Timed.simulation_of_pairwise _ _ _ _ _ id (Ideal.step id policy) (Ideal.step id policy)
    Eq (Alike policy) (fun h hst => ?_) times ho now s s' h hnow).1
  exact h.step hst

theorem Ideal.Alike.outcomes_eq (h : Alike policy now s s') {calls : List Call}
    (ho : calls.Pairwise fun c d => c.ms ≤ d.ms) (hnow : ∀ c ∈ calls, now ≤ c.ms) :
    Timed.outputs (Ideal.outcomeStep x policy) s calls =
      Timed.outputs (Ideal.outcomeStep x policy) s' calls := by
  rw [← List.forall₂_eq_eq_eq]
  refine (@Timed.simulation_of_pairwise _ _ _ _ _ Call.ms (Ideal.outcomeStep x policy)
    (Ideal.outcomeStep x policy) Eq (Alike policy) (fun h hst => ?_) calls ho now s s' h hnow).1
  exact ⟨h.outcome_eq hst, (h.step hst).2⟩

theorem eraseIdx_length_append {α : Type} (xs ys : List α) (y : α) :
    (xs ++ y :: ys).eraseIdx xs.length = xs ++ ys := by
  rw [List.eraseIdx_append_of_length_le le_rfl, Nat.sub_self, List.eraseIdx_cons_zero]

/-- A run without one of its inputs, if the machine goes on as if that had not come. -/
theorem outputs_eraseIdx {σ ι ω : Type} (f : σ → ι → ω × σ) (s : σ) (before after : List ι) (i : ι)
    (h : Timed.outputs f (f (Timed.final f s before) i).2 after =
      Timed.outputs f (Timed.final f s before) after) :
    (Timed.outputs f s (before ++ i :: after)).eraseIdx before.length =
      Timed.outputs f s (before ++ after) := by
  rw [Timed.outputs_append, Timed.outputs_append, Timed.outputs, h,
    ← Timed.length_outputs f s before, eraseIdx_length_append]

theorem redis_denied {before after : List Call} {c : Call} {r : Reply}
    (ho : OrderlyCalls policy (before ++ c :: after))
    (hr : (evaluate x policy key (Timed.final (evaluate x policy key) .empty before) c).1 = .ok r)
    (hd : r.allowed = 0) :
    ((Timed.outputs (evaluate x policy key) .empty (before ++ c :: after)).map observe).eraseIdx
        before.length =
      (Timed.outputs (evaluate x policy key) .empty (before ++ after)).map observe := by
  obtain ⟨members, now, hshows, hst, hm, -⟩ := evaluate_final x key ho
  have hv := hshows.verdict_eq ⟨hst, hm, trivial⟩ (by rw [hr]; rfl)
  have hdenied : ((Timed.final (Ideal.outcomeStep x policy) .empty before).verdict policy
      c.ms).allowed = false := by
    rw [← hv, Reply.verdict, hd]
    rfl
  have hrest : (c :: after).Pairwise fun c d => c.ms ≤ d.ms :=
    (List.pairwise_append.1 ho.times).2.1.imp fun hcd => Int.ofNat_le.2 hcd
  have halike := (Ideal.alike_of_denied hdenied).outcomes_eq (x := x) hrest.of_cons
    (List.pairwise_cons.1 hrest).1
  have hsub : (before ++ after).Sublist (before ++ c :: after) :=
    (List.sublist_cons_self c after).append_left before
  rw [evaluate_simulates ho, evaluate_simulates (ho.sublist hsub)]
  exact outputs_eraseIdx _ _ _ _ _ halike

theorem python_denied {before after : List ℤ} {t : ℤ}
    (ho : (before ++ t :: after).Pairwise (· ≤ ·))
    (hd : (applyAlgorithm policy (Timed.final (applyAlgorithm policy) .initial before)
      t).1.allowed = false) :
    ((Timed.outputs (applyAlgorithm policy) .initial (before ++ t :: after)).map
        RateLimitComputation.verdict).eraseIdx before.length =
      (Timed.outputs (applyAlgorithm policy) .initial (before ++ after)).map
        RateLimitComputation.verdict := by
  obtain ⟨now, hshows, hnow⟩ := applyAlgorithm_final policy ho
  have hv := (hshows.1.step hshows.2 (hnow t List.mem_cons_self)).1
  have hdenied : ((Timed.final (Ideal.step id policy) .empty before).verdict policy t).allowed
      = false := by
    rw [← hv]
    exact hd
  have hrest := (List.pairwise_append.1 ho).2.1
  have halike := (Ideal.alike_of_denied hdenied).outputs_eq hrest.of_cons
    (List.pairwise_cons.1 hrest).1
  have hsub : (before ++ after).Sublist (before ++ t :: after) :=
    (List.sublist_cons_self t after).append_left before
  rw [applyAlgorithm_simulates ho, applyAlgorithm_simulates (ho.sublist hsub)]
  exact outputs_eraseIdx _ _ _ _ _ halike

/-- **A request that is turned down leaves no trace.**  Leaving it out of a run changes none of the
other outcomes, for the scripts and for the algorithms in Python. -/
theorem denied_leaves_no_trace (policy : PolicyBase) :
    (∀ (x : Expiry) (key : String) (before after : List Call) (c : Call) (r : Reply),
      OrderlyCalls policy (before ++ c :: after) →
      (evaluate x policy key (Timed.final (evaluate x policy key) .empty before) c).1 = .ok r →
      r.allowed = 0 →
        ((Timed.outputs (evaluate x policy key) .empty (before ++ c :: after)).map observe).eraseIdx
            before.length =
          (Timed.outputs (evaluate x policy key) .empty (before ++ after)).map observe) ∧
    ∀ (before after : List ℤ) (t : ℤ), (before ++ t :: after).Pairwise (· ≤ ·) →
      (applyAlgorithm policy (Timed.final (applyAlgorithm policy) .initial before) t).1.allowed =
        false →
        ((Timed.outputs (applyAlgorithm policy) .initial (before ++ t :: after)).map
            RateLimitComputation.verdict).eraseIdx before.length =
          (Timed.outputs (applyAlgorithm policy) .initial (before ++ after)).map
            RateLimitComputation.verdict :=
  ⟨fun _ _ _ _ _ _ ho hr hd => redis_denied ho hr hd, fun _ _ _ ho hd => python_denied ho hd⟩

/-- A full fixed window turns a request down, and the next window knows nothing of it. -/
theorem denied_leaves_no_trace_sample :
    let policy := (PolicyRead.sample .fixedWindow 1).toPolicyBase
    let before : List Call := [⟨.atSecond 61, ""⟩, ⟨.atSecond 62, ""⟩]
    let c : Call := ⟨.atSecond 63, ""⟩
    let after : List Call := [⟨.atSecond 64, ""⟩, ⟨.atSecond 121, ""⟩]
    ((Timed.outputs (evaluate .enforced policy "k") .empty (before ++ c :: after)).map
        observe).eraseIdx 2 =
      (Timed.outputs (evaluate .enforced policy "k") .empty (before ++ after)).map observe ∧
    ((Timed.outputs (applyAlgorithm policy) .initial [61000, 62000, 63000, 121000]).map
        RateLimitComputation.verdict).eraseIdx 2 =
      (Timed.outputs (applyAlgorithm policy) .initial [61000, 62000, 121000]).map
        RateLimitComputation.verdict := by
  refine ⟨(denied_leaves_no_trace _).1 .enforced "k" _ _ _ ⟨0, 2, 0, 120000, 57000, 3⟩
    ⟨by decide, by decide⟩ (by decide +kernel) rfl, ?_⟩
  exact (denied_leaves_no_trace _).2 [61000, 62000] [121000] 63000 (by decide) (by decide +kernel)

end RateLimiter
