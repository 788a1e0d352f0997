import RateLimiter.Service.Invariant

/-!
# What one call takes from the quota

A run of a policy's script takes one unit at most.  A call runs it again after every attempt that
raised an error, also when the script had run and only its reply was lost, so a call may take as
many units as it has attempts, and one for each attempt whose script Redis ran
(`evaluate_takes_at_most`).
-/

set_option autoImplicit false

namespace RateLimiter

open Quota

/-! ## One run -/

section Run

variable {x : Expiry} {t : RedisTime} {ks : Keyspace} {key member : String} {members : List String}
  {policy : PolicyBase} {s : Ideal}

/-- Between nothing and one unit, which is what a single run of a script may take from a quota. -/
def AtMostOne (units : ℚ) : Prop := 0 ≤ units ∧ units ≤ 1

theorem atMostOne_zero : AtMostOne 0 := ⟨le_rfl, zero_le_one⟩

theorem atMostOne_one : AtMostOne 1 := ⟨zero_le_one, le_rfl⟩

theorem membersAt_zentry (ms : List (ℤ ×ₗ String)) (d : Option ℤ) :
    membersAt (zentry ms d) = ms := by
  rw [zentry]
  split
  · exact (‹ms = []›).symm
  · rfl

theorem bucketAt_bucketEntry (st : Option (ℚ × ℤ)) (d : Option ℤ) :
    bucketAt (bucketEntry st d) = st := by
  cases st <;> rfl

/-- Members that were in the log already are not counted. -/
theorem filter_notMem_eq_nil {ms ms' : List (ℤ ×ₗ String)} (h : ms' ⊆ ms) :
    (ms'.filter fun m => m ∉ ms) = [] :=
  List.filter_eq_nil_iff.2 fun m hm => by simpa using h hm

theorem length_filter_extendedLog_le (W : ℤ) (ms : List (ℤ ×ₗ String)) :
    ((extendedLog W t member ms).filter fun m => m ∉ ms).length ≤ 1 := by
  have hsub : ((prunedLog W t ms).filter fun m => (ofLex m).2 ≠ member) ⊆ ms :=
    (List.filter_sublist.trans (prunedLog_sublist W t ms)).subset
  have hperm := (List.perm_orderedInsert (· ≤ ·) (toLex ((t.ms : ℤ), member))
    ((prunedLog W t ms).filter fun m => (ofLex m).2 ≠ member)).filter fun m => m ∉ ms
  rw [extendedLog, withMember, hperm.length_eq, List.filter_cons, filter_notMem_eq_nil hsub]
  split
  · exact le_rfl
  · exact Nat.zero_le 1

/-- The bucket the script leaves holds what it left. -/
theorem availableTokens_bucketAfter (capacity : ℤ) (refillPerMs tokens : ℚ)
    (st : Option (ℚ × ℤ)) :
    availableTokens capacity refillPerMs t (some (tokens, refillStamp t st)) = tokens := by
  have h : ¬(t.ms : ℤ) > refillStamp t st := not_lt.2 (le_max_left _ _)
  simp [availableTokens, refilledTokens, h]

theorem unitsTaken_fixedWindow (ha : policy.algorithm = .fixedWindow)
    (h : Represents x policy key members t.ms ks s) :
    AtMostOne (unitsTaken policy key t ks ((policyScript policy key member).run x t ks).2) := by
  have hcell := (represents_fixedWindow ha).1 h t le_rfl
  simp only [unitsTaken, policyScript, ha]
  generalize hk : ks (counterKey key policy.windowMs t.ms) = e at hcell
  generalize FixedWindow.used policy.windowMs s.admitted t.ms = used at hcell
  cases hcell with
  | absent =>
    by_cases hacc : Accepted x t (policy.windowMs + 1000)
    · rw [fixedWindowLua_run_fresh hk hacc]
      simp only [Function.update_self]
      simpa [counterAt] using atMostOne_one
    · rw [fixedWindowLua_run_rejected hk hacc]
      simp only [Function.update_self]
      simpa [counterAt] using atMostOne_one
  | counts pos covers =>
    rw [fixedWindowLua_run_counter pos hk]
    simp only [Function.update_self]
    simpa [counterAt] using atMostOne_one

/-- A run adds one member or none. -/
theorem unitsTaken_slidingWindowLog (ha : policy.algorithm = .slidingWindowLog)
    (h : Represents x policy key members t.ms ks s) :
    AtMostOne (unitsTaken policy key t ks ((policyScript policy key member).run x t ks).2) := by
  obtain ⟨ms, d, hk, -⟩ := (represents_slidingWindowLog ha).1 h
  simp only [unitsTaken, policyScript, ha, hk, membersAt_zentry]
  have hone : AtMostOne
      ((extendedLog policy.windowMs t member ms).filter fun m => m ∉ ms).length :=
    ⟨Nat.cast_nonneg _, by exact_mod_cast length_filter_extendedLog_le _ ms⟩
  rcases lt_or_ge ((prunedLog policy.windowMs t ms).length : ℤ) policy.rate with hc | hc
  · by_cases hacc : Accepted x t (policy.windowMs + 1000)
    · rw [slidingWindowLogLua_run_allowed hk hc hacc]
      simp only [Function.update_self]
      exact hone
    · rw [slidingWindowLogLua_run_rejected hk hc hacc]
      simp only [Function.update_self]
      exact hone
  · rw [slidingWindowLogLua_run_denied hk hc]
    simp only [Function.update_self, membersAt_zentry]
    rw [filter_notMem_eq_nil (prunedLog_sublist _ _ _).subset]
    exact atMostOne_zero

/-- A run takes one token or none. -/
theorem unitsTaken_tokenBucket (ha : policy.algorithm = .tokenBucket)
    (h : Represents x policy key members t.ms ks s) :
    AtMostOne (unitsTaken policy key t ks ((policyScript policy key member).run x t ks).2) := by
  obtain ⟨st, d, hk, -⟩ := (represents_tokenBucket ha).1 h
  simp only [unitsTaken, policyScript, ha, hk, bucketAt_bucketEntry]
  have hone : AtMostOne (availableTokens policy.headerLimit policy.refillPerMs t st -
      tokensLeft 1 (availableTokens policy.headerLimit policy.refillPerMs t st)) := by
    rw [tokensLeft]
    split
    · simpa using atMostOne_one
    · simpa using atMostOne_zero
  by_cases hacc : Accepted x t policy.ttlMs
  · rw [tokenBucketLua_run hk hacc]
    simpa [bucketAt, bucketAfter, availableTokens_bucketAfter] using hone
  · rw [tokenBucketLua_run_rejected hk hacc]
    simpa [bucketAt, bucketAfter, availableTokens_bucketAfter] using hone

/-- **A run takes one unit at most**, and never gives one back, whichever algorithm the policy has.
-/
theorem unitsTaken_atMostOne (h : Represents x policy key members t.ms ks s) :
    AtMostOne (unitsTaken policy key t ks ((policyScript policy key member).run x t ks).2) := by
  cases ha : policy.algorithm with
  | fixedWindow => exact unitsTaken_fixedWindow ha h
  | slidingWindowLog => exact unitsTaken_slidingWindowLog ha h
  | tokenBucket => exact unitsTaken_tokenBucket ha h

end Run

/-! ## One call -/

variable {ι κ : Type} {C : Catalog ι} {settings : Settings} {f f' : Fleet ι κ} {e : Event ι κ}

/-- The books of a call: an attempt is failed, on its way, or has answered. -/
structure EvaluateCall.Balanced (settings : Settings) (c : EvaluateCall ι κ) : Prop where
  /-- Runs never give units back. -/
  nonneg : 0 ≤ c.taken
  /-- A unit for each run, at most. -/
  taken_le : c.taken ≤ c.executed
  /-- There are no more runs than attempts. -/
  bounded : (c.executed + c.onTheWay : ℤ) ≤ settings.maxAttempts
  /-- Until the call returns every attempt has failed. -/
  pending : c.answered = false →
    c.executed + c.onTheWay ≤ c.failed ∧ (c.failed : ℤ) ≤ settings.maxAttempts

theorem Settings.maxAttempts_pos (settings : Settings) : 0 < settings.maxAttempts :=
  lt_of_lt_of_le zero_lt_one (le_max_left _ _)

theorem EvaluateCall.Balanced.charged {units : ℚ} {c c' : EvaluateCall ι κ}
    (h : c.Balanced settings) (hu : AtMostOne units) (hc : Charged settings units c c') :
    c'.Balanced settings := by
  have hnonneg : 0 ≤ c.taken + units := add_nonneg h.nonneg hu.1
  have htaken : c.taken + units ≤ (c.executed + 1 : ℕ) := by
    push_cast
    exact add_le_add h.taken_le hu.2
  cases hc with
  | answered ht =>
    have hp := h.pending ht.1
    have hlt := ht.2
    refine ⟨hnonneg, htaken, ?_, fun ha => ?_⟩
    · simp only [charge, answer]
      push_cast
      omega
    · cases ha
  | failed ht =>
    have hp := h.pending ht.1
    have hlt := ht.2
    refine ⟨hnonneg, htaken, ?_, fun _ => ⟨?_, ?_⟩⟩ <;> simp only [charge, fail] <;> push_cast <;>
      omega
  | late hw =>
    have hb := h.bounded
    refine ⟨hnonneg, htaken, ?_, fun ha => ?_⟩
    · simp only [charge]
      omega
    · have hp := h.pending ha
      simp only [charge]
      omega

/-- The invariant of the calls: for each of them the runs, the units and the attempts are in
balance. -/
def Fleet.Balanced (settings : Settings) (f : Fleet ι κ) : Prop :=
  ∀ n c, f.calls n = some c → c.Balanced settings

theorem Fleet.Balanced.update (h : f.Balanced settings) {n : ℕ} {c : EvaluateCall ι κ}
    (hf : f'.calls = Function.update f.calls n (some c)) (hc : c.Balanced settings) :
    f'.Balanced settings := by
  intro m d hd
  rw [hf] at hd
  rcases Transition.mem_update_some hd with ⟨-, rfl⟩ | hd
  · exact hc
  · exact h m d hd

variable [DecidableEq ι] [DecidableEq κ]

/-- **Every event keeps the books.** -/
theorem Fleet.Balanced.step (h : f.Balanced settings) (hsound : f.Sound C settings)
    (hs : f.step C settings e = some f') : f'.Balanced settings := by
  cases step_effect hs with
  | begin n c hfree hm hc =>
    refine h.update rfl ?_
    rw [hc]
    have := settings.maxAttempts_pos
    exact ⟨le_rfl, by simp, by simpa using this.le, fun _ => ⟨by simp, by simpa using this.le⟩⟩
  | fail n c hc ht more hmore =>
    have hb := h n c hc
    have hp := hb.pending ht.1
    have hlt := ht.2
    refine h.update rfl ⟨hb.nonneg, hb.taken_le, ?_, fun _ => ⟨?_, ?_⟩⟩ <;>
      simp only [EvaluateCall.fail] <;> push_cast <;> omega
  | serve n c c' hc t member hserve hc' as has =>
    refine h.update rfl ((h n c hc).charged ?_ hc')
    obtain ⟨s, hrep, -⟩ := hsound.redis c.policy
    rw [← buildRateLimitKey_of_matches (hsound.matched n c hc)] at hrep
    exact unitsTaken_atMostOne (hrep.purge hserve.1)
  | recover n c hc hr nowMs hnow =>
    have hb := h n c hc
    have hcalls : (f.recover C settings c nowMs).calls = f.calls := by
      rw [Fleet.recover]
      split <;> rfl
    refine h.update (n := n) (c := c.answer) (by rw [Fleet.put_calls, hcalls]) ?_
    exact ⟨hb.nonneg, hb.taken_le, hb.bounded, fun ha => by cases ha⟩

/-- A sound fleet with balanced calls, which is what a run preserves. -/
structure Fleet.Accounted (C : Catalog ι) (settings : Settings) (f : Fleet ι κ) : Prop where
  sound : f.Sound C settings
  balanced : f.Balanced settings

theorem Fleet.accounted_initial : (Fleet.initial ι κ).Accounted C settings :=
  ⟨Fleet.sound_initial, fun _ _ h => by cases h⟩

theorem Fleet.Accounted.step (h : f.Accounted C settings) (hs : f.step C settings e = some f') :
    f'.Accounted C settings :=
  ⟨h.sound.step hs, h.balanced.step h.sound hs⟩

/-- **A call takes one unit at most for each attempt whose script Redis ran**, and there are at most
`max(1, redis_retry_attempts + 1)` of these. -/
theorem evaluate_takes_at_most (C : Catalog ι) (settings : Settings) {es : List (Event ι κ)}
    (hr : Transition.run (Fleet.step C settings) (.initial ι κ) es = some f) {n : ℕ}
    {c : EvaluateCall ι κ} (hc : f.calls n = some c) :
    0 ≤ c.taken ∧ c.taken ≤ c.executed ∧
      (c.executed : ℤ) ≤ max 1 (settings.redisRetryAttempts + 1) := by
  have h : f.Accounted C settings :=
    Transition.run_invariant (fun h hs => h.step hs) Fleet.accounted_initial hr
  have hb := h.balanced n c hc
  have hbound := hb.bounded
  rw [Settings.maxAttempts] at hbound
  exact ⟨hb.nonneg, hb.taken_le, by omega⟩

/-- A lost reply and one retry. -/
theorem evaluate_takes_at_most_sample :
    ∃ f, Transition.run (Fleet.step Catalog.sample ⟨1, false, 120⟩) (.initial _ Unit)
        [.begin 0 () .fixedWindow .sample, .lose 0 (.atSecond 30) "",
          .reply 0 (.atSecond 31) ""] = some f ∧
      ∀ c, f.calls 0 = some c → 0 ≤ c.taken ∧ c.taken ≤ c.executed ∧ (c.executed : ℤ) ≤ 2 :=
  Transition.exists_run_of_isSome (by decide +kernel) fun _ hf _ hc =>
    evaluate_takes_at_most Catalog.sample _ hf hc

/-- The retry counts the request again: one call takes two units. -/
theorem evaluate_takes_two :
    ∃ f c, Transition.run (Fleet.step Catalog.sample ⟨1, false, 120⟩) (.initial _ Unit)
        [.begin 0 () .fixedWindow .sample, .lose 0 (.atSecond 30) "",
          .reply 0 (.atSecond 31) ""] = some f ∧ f.calls 0 = some c ∧ c.taken = 2 := by
  have h : ((Transition.run (Fleet.step Catalog.sample ⟨1, false, 120⟩) (.initial _ Unit)
      [.begin 0 () .fixedWindow .sample, .lose 0 (.atSecond 30) "",
        .reply 0 (.atSecond 31) ""]).bind fun f => (f.calls 0).map EvaluateCall.taken) =
      some 2 := by decide +kernel
  obtain ⟨f, hf, h⟩ := Option.bind_eq_some_iff.1 h
  obtain ⟨c, hc, h⟩ := Option.map_eq_some_iff.1 h
  exact ⟨f, c, hf, hc, h⟩

end RateLimiter
