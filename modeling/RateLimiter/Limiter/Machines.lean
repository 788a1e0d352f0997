import RateLimiter.Limiter.Agreement
import RateLimiter.Limiter.Forecast
import RateLimiter.Redis.Outcome

/-!
# The two limiters as machines

Each implementation of a policy, run on requests one after the other: `evaluate` is the policy's
script on a Redis that holds nothing else, `applyAlgorithm` the function of `algorithms.py` with its
state threaded through.  Both show the same as the ideal limiter run next to them
(`evaluate_simulates`, `applyAlgorithm_simulates`), so what the ideal limiter promises they keep.
-/

set_option autoImplicit false

namespace RateLimiter

open Quota

variable {policy : PolicyBase} {s : Ideal} {now t : ℤ}

/-! ## The scripts -/

/-- One call of the policy's script, as a machine on the keyspace whose inputs are the calls. -/
def evaluate (x : Expiry) (policy : PolicyBase) (key : String) (ks : Keyspace) (c : Call) :
    Except RedisError Reply × Keyspace :=
  eval x c.time (policyScript policy key c.member) ks

/-- The time of a call. -/
def Call.ms (c : Call) : ℤ := c.time.ms

/-- The member it adds to the log of the policy. -/
def Call.tag (policy : PolicyBase) (c : Call) : Option String :=
  RateLimiter.logMember policy c.member

/-- Calls as Redis serves them: `TIME` never runs backwards, and no member is drawn twice. -/
structure OrderlyCalls (policy : PolicyBase) (calls : List Call) : Prop where
  /-- The readings of `TIME`. -/
  times : calls.Pairwise fun c d => c.time.ms ≤ d.time.ms
  /-- The members of a sliding log. -/
  members : (calls.filterMap (Call.tag policy)).Nodup

theorem OrderlyCalls.sublist {calls calls' : List Call} (h : OrderlyCalls policy calls)
    (hs : calls'.Sublist calls) : OrderlyCalls policy calls' :=
  ⟨h.times.sublist hs, h.members.sublist (hs.filterMap _)⟩

theorem OrderlyCalls.inOrder {calls : List Call} (h : OrderlyCalls policy calls) :
    Timed.InOrder Call.ms (Call.tag policy) [] 0 calls :=
  Timed.inOrder_of_pairwise (h.times.imp fun hcd => Int.ofNat_le.2 hcd) h.members
    (fun _ _ => Int.natCast_nonneg _) fun _ _ => List.not_mem_nil

/-- The ideal limiter behind a Redis that may refuse deadlines: there is no verdict where the script
raises, and the request counts all the same. -/
def Ideal.outcomeStep (x : Expiry) (policy : PolicyBase) (s : Ideal) (c : Call) :
    Option Verdict × Ideal :=
  (s.outcome x policy c.time, s.next policy c.time.ms)

section Redis

variable {x : Expiry} {key : String} {calls rest : List Call}

/-- The keys after some calls, and the ideal limiter after them: the relation that a run of the
script preserves. -/
def RedisShows (x : Expiry) (policy : PolicyBase) (key : String) (members : List String) (now : ℤ)
    (ks : Keyspace) (s : Ideal) : Prop :=
  Represents x policy key members now ks s ∧ s.Reached policy now

/-- **One call is one step of the ideal limiter.** -/
theorem RedisShows.step {members : List String} {ks : Keyspace} {c : Call}
    (h : RedisShows x policy key members now ks s) (hst : now ≤ c.ms)
    (hm : ∀ m ∈ c.tag policy, m ∉ members) :
    observe (evaluate x policy key ks c).1 = (s.outcomeStep x policy c).1 ∧
      RedisShows x policy key ((c.tag policy).toList ++ members) c.ms
        (evaluate x policy key ks c).2 (s.outcomeStep x policy c).2 := by
  obtain ⟨hr, hs⟩ := h
  exact ⟨eval_outcome hr hst hm, (refines_eval hr hst hm).represents, hs.next hst⟩

/-- The calls show the ideal limiter's verdicts, and leave its state. -/
theorem RedisShows.run {members : List String} {ks : Keyspace}
    (h : RedisShows x policy key members now ks s)
    (ho : Timed.InOrder Call.ms (Call.tag policy) members now calls) :
    (Timed.outputs (evaluate x policy key) ks calls).map observe =
        Timed.outputs (Ideal.outcomeStep x policy) s calls ∧
      RedisShows x policy key (Timed.usedAfter (Call.tag policy) members calls)
        (Timed.timeAfter Call.ms now calls) (Timed.final (evaluate x policy key) ks calls)
        (Timed.final (Ideal.outcomeStep x policy) s calls) := by
  have hstep : ∀ {members now ks s c}, RedisShows x policy key members now ks s →
      now ≤ Call.ms c → (∀ m ∈ Call.tag policy c, m ∉ members) → True →
        observe (evaluate x policy key ks c).1 = (s.outcomeStep x policy c).1 ∧
          RedisShows x policy key ((Call.tag policy c).toList ++ members) (Call.ms c)
            (evaluate x policy key ks c).2 (s.outcomeStep x policy c).2 :=
    fun h hst hm _ => h.step hst hm
  obtain ⟨houts, hend⟩ := Timed.simulation_after (E := fun out v => observe out = v) hstep
    (fun _ _ => trivial) h ho
  refine ⟨?_, hend⟩
  rw [← List.forall₂_eq_eq_eq, List.forall₂_map_left_iff]
  exact houts

theorem redisShows_empty : RedisShows x policy key [] 0 .empty .empty :=
  ⟨represents_empty fun _ _ => rfl, Ideal.reached_empty policy 0⟩

/-- **The script shows what the ideal limiter shows**, in every run whose clock does not run
backwards and whose members do not repeat. -/
theorem evaluate_simulates (ho : OrderlyCalls policy calls) :
    (Timed.outputs (evaluate x policy key) .empty calls).map observe =
      Timed.outputs (Ideal.outcomeStep x policy) .empty calls :=
  (redisShows_empty.run ho.inOrder).1

/-- The position after some of the calls of a run. -/
theorem evaluate_final (x : Expiry) (key : String) (ho : OrderlyCalls policy (calls ++ rest)) :
    ∃ members now, RedisShows x policy key members now
        (Timed.final (evaluate x policy key) .empty calls)
        (Timed.final (Ideal.outcomeStep x policy) .empty calls) ∧
      Timed.InOrder Call.ms (Call.tag policy) members now rest := by
  obtain ⟨hcalls, hrest⟩ := Timed.inOrder_append.1 ho.inOrder
  exact ⟨_, _, (redisShows_empty.run hcalls).2, hrest⟩

end Redis

/-! ## The algorithms in Python -/

/-- What the caller of `algorithms.py` keeps between the calls, for each of the algorithms. -/
structure AlgorithmState where
  /-- The state of `apply_fixed_window`. -/
  fixedWindow : Option FixedWindowState
  /-- The events of `apply_sliding_window_log`. -/
  events : List ℤ
  /-- The state of `apply_token_bucket`. -/
  tokenBucket : Option TokenBucketState
  deriving DecidableEq, Repr

/-- Before the first call. -/
def AlgorithmState.initial : AlgorithmState := ⟨none, [], none⟩

/-- One call of the policy's algorithm, with the arguments the local limiter passes. -/
def applyAlgorithm (policy : PolicyBase) (state : AlgorithmState) (nowMs : ℤ) :
    RateLimitComputation × AlgorithmState :=
  match policy.algorithm with
  | .fixedWindow =>
    let out := applyFixedWindow nowMs state.fixedWindow policy.rate policy.windowSeconds
    (out.2, { state with fixedWindow := some out.1 })
  | .slidingWindowLog =>
    let out := applySlidingWindowLog nowMs state.events policy.rate policy.windowSeconds
    (out.2, { state with events := out.1 })
  | .tokenBucket =>
    let out := applyTokenBucket nowMs state.tokenBucket policy.headerLimit
      (policy.rate / policy.windowSeconds)
    (out.2, { state with tokenBucket := some out.1 })

/-- The numbers of a bucket's state. -/
def TokenBucketState.pair (s : TokenBucketState) : ℚ × ℤ := (s.tokens, s.lastRefillMs)

/-- The state holds what the ideal limiter remembers, seen from `now` on. -/
def AlgorithmState.Shows (policy : PolicyBase) (now : ℤ) (state : AlgorithmState) (s : Ideal) :
    Prop :=
  match policy.algorithm with
  | .fixedWindow => ∀ t, now ≤ t → windowCount policy.windowMs t state.fixedWindow =
      FixedWindow.used policy.windowMs s.admitted t
  | .slidingWindowLog => ∀ t, now ≤ t → SlidingLog.live policy.windowMs state.events t =
      SlidingLog.live policy.windowMs s.admitted t
  | .tokenBucket =>
    Bucket.WF policy.bucketParams (state.tokenBucket.map TokenBucketState.pair) now ∧
      Bucket.level policy.bucketParams (state.tokenBucket.map TokenBucketState.pair) now =
        Bucket.level policy.bucketParams s.bucket now

section Python

variable {state : AlgorithmState}

theorem AlgorithmState.shows_initial (policy : PolicyBase) (now : ℤ) :
    AlgorithmState.initial.Shows policy now .empty := by
  rw [Shows]
  split
  · exact fun _ _ => rfl
  · exact fun _ _ => rfl
  · exact ⟨Bucket.wf_none, rfl⟩

theorem AlgorithmState.Shows.later (h : state.Shows policy now s) (hst : now ≤ t) :
    state.Shows policy t s := by
  rw [Shows] at h ⊢
  split at h
  · exact fun u hu => h u (hst.trans hu)
  · exact fun u hu => h u (hst.trans hu)
  · exact ⟨h.1.mono hst, Bucket.level_congr h.2 hst⟩

theorem AlgorithmState.Shows.fixedWindow (ha : policy.algorithm = .fixedWindow)
    (h : state.Shows policy t s) (hs : s.Reached policy t) :
    (applyAlgorithm policy state t).1.verdict = s.verdict policy t ∧
      (applyAlgorithm policy state t).2.Shows policy t (s.next policy t) := by
  simp only [Shows, ha] at h ⊢
  obtain ⟨hv, hst⟩ := applyFixedWindow_eq (h t le_rfl)
  simp only [applyAlgorithm, ha]
  refine ⟨by rw [hv, Ideal.verdict_fixedWindow ha], fun u hu => ?_⟩
  rw [hst, Ideal.used_next ha]
  by_cases he : FixedWindow.start policy.windowMs t = FixedWindow.start policy.windowMs u
  · simp [windowCount, he, FixedWindow.used_congr s.admitted he]
  · -- a later window begins after every admission
    have hlater := FixedWindow.lt_start_of_ne policy.windowMs_pos hu he
    simp [windowCount, he, FixedWindow.used_eq_zero hs.past hlater]

theorem AlgorithmState.Shows.slidingWindowLog (ha : policy.algorithm = .slidingWindowLog)
    (h : state.Shows policy t s) :
    (applyAlgorithm policy state t).1.verdict = s.verdict policy t ∧
      (applyAlgorithm policy state t).2.Shows policy t (s.next policy t) := by
  simp only [Shows, ha] at h ⊢
  obtain ⟨hv, hst⟩ := applySlidingWindowLog_eq (h t le_rfl)
  simp only [applyAlgorithm, ha]
  refine ⟨by rw [hv, Ideal.verdict_slidingWindowLog ha], fun u hu => ?_⟩
  rw [hst, Ideal.next_slidingWindowLog ha, SlidingLog.live_step _ hu]

theorem AlgorithmState.Shows.tokenBucket (ha : policy.algorithm = .tokenBucket)
    (h : state.Shows policy t s) :
    (applyAlgorithm policy state t).1.verdict = s.verdict policy t ∧
      (applyAlgorithm policy state t).2.Shows policy t (s.next policy t) := by
  simp only [Shows, ha] at h ⊢
  obtain ⟨hw, hl⟩ := h
  obtain ⟨hv, hst⟩ := applyTokenBucket_eq hw hl
  simp only [applyAlgorithm, ha]
  refine ⟨by rw [hv, Ideal.verdict_tokenBucket ha], ?_⟩
  have hpair : (some (applyTokenBucket t state.tokenBucket policy.headerLimit
      (policy.rate / policy.windowSeconds)).1).map TokenBucketState.pair =
        (s.next policy t).bucket := by
    rw [Ideal.next_tokenBucket ha, ← hst]
    rfl
  rw [hpair, Ideal.next_tokenBucket ha, Bucket.step_congr hl.symm]
  exact ⟨hw.step le_rfl, rfl⟩

/-- **One call is one step of the ideal limiter.** -/
theorem AlgorithmState.Shows.step (h : state.Shows policy now s) (hs : s.Reached policy now)
    (hst : now ≤ t) :
    (applyAlgorithm policy state t).1.verdict = s.verdict policy t ∧
      (applyAlgorithm policy state t).2.Shows policy t (s.next policy t) := by
  have hl := h.later hst
  cases ha : policy.algorithm with
  | fixedWindow => exact hl.fixedWindow ha (hs.later hst)
  | slidingWindowLog => exact hl.slidingWindowLog ha
  | tokenBucket => exact hl.tokenBucket ha

/-- The state after some calls, and the ideal limiter after them: the relation that a call of a
Python function preserves. -/
def PythonShows (policy : PolicyBase) (now : ℤ) (state : AlgorithmState) (s : Ideal) : Prop :=
  state.Shows policy now s ∧ s.Reached policy now

/-- The calls show the ideal limiter's verdicts, and leave its state. -/
theorem PythonShows.run {times : List ℤ} (h : PythonShows policy now state s)
    (ho : times.Pairwise (· ≤ ·)) (hnow : ∀ t ∈ times, now ≤ t) :
    (Timed.outputs (applyAlgorithm policy) state times).map RateLimitComputation.verdict =
        Timed.outputs (Ideal.step id policy) s times ∧
      PythonShows policy (Timed.timeAfter id now times)
        (Timed.final (applyAlgorithm policy) state times)
        (Timed.final (Ideal.step id policy) s times) := by
  have hstep : ∀ {now state s t}, PythonShows policy now state s → now ≤ id t →
      (applyAlgorithm policy state t).1.verdict = (s.step id policy t).1 ∧
        PythonShows policy (id t) (applyAlgorithm policy state t).2 (s.step id policy t).2 := by
    rintro now state s t ⟨hr, hs⟩ hst
    obtain ⟨hv, hnext⟩ := hr.step hs hst
    exact ⟨hv, hnext, hs.next hst⟩
  obtain ⟨houts, hend⟩ := @Timed.simulation_of_pairwise _ _ _ _ _ id (applyAlgorithm policy)
    (Ideal.step id policy) (fun c v => c.verdict = v) (PythonShows policy) hstep times ho now state
    s h hnow
  refine ⟨?_, hend⟩
  rw [← List.forall₂_eq_eq_eq, List.forall₂_map_left_iff]
  exact houts

theorem pythonShows_initial (policy : PolicyBase) (now : ℤ) :
    PythonShows policy now .initial .empty :=
  ⟨AlgorithmState.shows_initial policy now, Ideal.reached_empty policy now⟩

/-- Times in order have a time before them. -/
theorem exists_le_of_pairwise {times : List ℤ} (ho : times.Pairwise (· ≤ ·)) :
    ∃ now, ∀ t ∈ times, now ≤ t := by
  cases times with
  | nil => exact ⟨0, fun t ht => by cases ht⟩
  | cons t times =>
    refine ⟨t, fun u hu => ?_⟩
    rcases List.mem_cons.1 hu with rfl | hu
    · exact le_rfl
    · exact (List.pairwise_cons.1 ho).1 u hu

/-- **The algorithm shows what the ideal limiter shows**, in every run whose clock does not run
backwards. -/
theorem applyAlgorithm_simulates {times : List ℤ} (ho : times.Pairwise (· ≤ ·)) :
    (Timed.outputs (applyAlgorithm policy) .initial times).map RateLimitComputation.verdict =
      Timed.outputs (Ideal.step id policy) .empty times := by
  obtain ⟨now, hnow⟩ := exists_le_of_pairwise ho
  have hstart := pythonShows_initial policy now
  exact (hstart.run ho hnow).1

/-- The position after some of the calls of a run. -/
theorem applyAlgorithm_final (policy : PolicyBase) {times rest : List ℤ}
    (ho : (times ++ rest).Pairwise (· ≤ ·)) :
    ∃ now, PythonShows policy now (Timed.final (applyAlgorithm policy) .initial times)
        (Timed.final (Ideal.step id policy) .empty times) ∧ ∀ u ∈ rest, now ≤ u := by
  obtain ⟨now, hnow⟩ := exists_le_of_pairwise ho
  have hstart := pythonShows_initial policy now
  refine ⟨Timed.timeAfter id now times, ?_, ?_⟩
  · exact (hstart.run (List.pairwise_append.1 ho).1
      fun t ht => hnow t (List.mem_append_left rest ht)).2
  · exact Timed.timeAfter_le ho hnow

end Python

end RateLimiter
