import RateLimiter.Limiter.LocalFallback
import RateLimiter.Redis.Refinement
import RateLimiter.Lib.Timed

/-!
# Both limiters decide alike

The Lua scripts and the Python algorithms are two implementations of one rule.  Over one sequence of
clock readings, and with nothing expiring on either side, they give the same decisions: each
represents the ideal limiter, so neither has to be related to the other's state.
-/

set_option autoImplicit false

namespace RateLimiter

/-- A call at a clock reading, with the member a sliding log would be sent. -/
structure Call where
  time : RedisTime
  /-- What `uuid.uuid4().hex` draws. -/
  member : String

variable (policy : PolicyRead) (identity : RequestIdentity)

/-- The call, decided by a Redis whose keys never expire: `_run_policy` at the call's `TIME`, with
the member `uuid4` has drawn for it. -/
def redisDecides (ks : Keyspace) (c : Call) : Except RedisError RateLimitDecision × Keyspace :=
  runPolicy .ignored c.time policy identity c.member ks

/-- The call, decided by a local limiter that never evicts, at a reading of its clock that equals
the call's `TIME`. -/
def localDecides (stateTtlSeconds : ℤ) (self : LocalFallbackLimiter) (c : Call) :
    LocalFallbackDecision × LocalFallbackLimiter :=
  self.apply .ignored stateTtlSeconds policy identity c.time.ms

/-- The member a call adds to the policy's log. -/
def Call.logMember (c : Call) : Option String := RateLimiter.logMember policy.toPolicyBase c.member

variable {policy identity}

/-- The two limiters represent one ideal limiter, so that the next call gets the same decision from
either. -/
def InStep (policy : PolicyRead) (identity : RequestIdentity) (members : List String) (now : ℤ)
    (ks : Keyspace) (self : LocalFallbackLimiter) : Prop :=
  ∃ s,
    Represents .ignored policy.toPolicyBase (buildRateLimitKey policy identity) members now ks s ∧
    LocalRepresents .ignored policy.toPolicyBase (buildRateLimitKey policy identity) now self s

/-- The service's reading of an answer is the decision for the verdict. -/
theorem Answers.fields_eq {p : PolicyBase} {v : Quota.Verdict} {accepted : Prop} {r : Reply}
    (h : Answers p v accepted (.ok r)) : parseCommonDecision r = decisionOf p.headerLimit v := by
  obtain ⟨hl, hv, -⟩ := h
  rw [parseCommonDecision_eq, hl, hv]

/-- **One call keeps the limiters in step**, and they decide it alike. -/
theorem InStep.step {ttl : ℤ} {members : List String} {now : ℤ} {ks : Keyspace}
    {self : LocalFallbackLimiter} {c : Call} (h : InStep policy identity members now ks self)
    (hst : now ≤ c.time.ms) (hm : ∀ m ∈ c.logMember policy, m ∉ members) :
    (redisDecides policy identity ks c).1.map RateLimitDecision.fields =
        .ok (localDecides policy identity ttl self c).1 ∧
      InStep policy identity ((c.logMember policy).toList ++ members) c.time.ms
        (redisDecides policy identity ks c).2 (localDecides policy identity ttl self c).2 := by
  obtain ⟨s, hR, hL⟩ := h
  have hR' := refines_eval hR hst hm
  obtain ⟨hdec, hL'⟩ := hL.apply ttl hst fun _ => rfl
  refine ⟨?_, _, hR'.represents, hL'⟩
  obtain ⟨r, hr⟩ := hR'.answer.ok_of_accepted (Or.inl rfl)
  have hans := hR'.answer
  rw [hr] at hans
  rw [redisDecides, runPolicy, hr, localDecides, hdec, ← hans.fields_eq]
  rfl

/-- **The Python limiter and the Redis limiter decide alike**, call by call, as long as their clocks
agree and neither forgets anything. -/
theorem limiters_agree (policy : PolicyRead) (identity : RequestIdentity) (stateTtlSeconds : ℤ)
    (calls : List Call) (htimes : calls.Pairwise fun c d => c.time.ms ≤ d.time.ms)
    (hmembers : (calls.filterMap (Call.logMember policy)).Nodup) :
    (Timed.outputs (redisDecides policy identity) .empty calls).map
        (Except.map RateLimitDecision.fields) =
      (Timed.outputs (localDecides policy identity stateTtlSeconds) .empty calls).map
        Except.ok := by
  have ho : Timed.InOrder (fun c : Call => (c.time.ms : ℤ)) (Call.logMember policy) [] 0 calls := by
    refine Timed.inOrder_of_pairwise (htimes.imp fun hcd => ?_) hmembers
      (fun c _ => Int.natCast_nonneg _) fun _ _ => List.not_mem_nil
    exact_mod_cast hcd
  have hstart : InStep policy identity [] 0 .empty .empty :=
    ⟨.empty, represents_empty fun _ _ => rfl, localRepresents_empty 0⟩
  have hsame : List.Forall₂ (fun out d => Except.map RateLimitDecision.fields out = .ok d)
      (Timed.outputs (redisDecides policy identity) .empty calls)
      (Timed.outputs (localDecides policy identity stateTtlSeconds) .empty calls) :=
    (Timed.simulation (P := fun _ => True) (fun h hst hm _ => h.step hst hm) (fun _ _ => trivial)
      hstart ho).1
  rw [← List.forall₂_eq_eq_eq, List.forall₂_map_left_iff, List.forall₂_map_right_iff]
  exact hsame

/-- A sliding log that turns the third request in a minute down and admits one a minute later. -/
theorem limiters_agree_sample :
    let policy := PolicyRead.sample .slidingWindowLog 1
    let identity : RequestIdentity := ⟨"/", none, none, none, none⟩
    let calls : List Call :=
      [⟨.atSecond 30, "a"⟩, ⟨.atSecond 40, "b"⟩, ⟨.atSecond 50, "c"⟩, ⟨.atSecond 95, "d"⟩]
    (Timed.outputs (redisDecides policy identity) .empty calls).map
        (Except.map RateLimitDecision.fields) =
      (Timed.outputs (localDecides policy identity 120) .empty calls).map Except.ok :=
  limiters_agree _ _ 120 _ (by decide) (by decide)

end RateLimiter
