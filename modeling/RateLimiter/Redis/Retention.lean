import RateLimiter.Limiter.Decision
import RateLimiter.Redis.Represents

/-!
# What the scripts leave in Redis

A run of a script writes under one key of its policy.  Unless `PEXPIRE` refuses the deadline it asks
for (`expiryAccepted`), what it leaves there goes away by itself, and a log it leaves is no longer
than the quota (`Entry.Lent`).  Nothing here rests on different policies having different keys: a
script that finds a value of another type ends with an error before it has written anything.

* `policyScript_leaves`: what a run makes of the entry under its key;
* `Keyspace.LentTo.runPolicy`: one more run keeps every entry on loan;
* `Keyspace.LentTo.purge_eq_empty`: when the last loan has ended Redis is empty.
-/

set_option autoImplicit false

namespace RateLimiter

/-- A script has not been cut off by `PEXPIRE`: the deadline it has asked for, if it has asked for
any, was accepted. -/
def expiryAccepted {α : Type} : Except RedisError α → Bool
  | .error .invalidExpireTime | .error .notAnInteger => false
  | .ok _ | .error .wrongType => true

theorem expiryAccepted_expireError {α : Type} (ms : ℤ) :
    expiryAccepted (.error (expireError ms) : Except RedisError α) = false := by
  rw [expireError]
  split <;> rfl

theorem expiryAccepted_map {α β : Type} (f : α → β) (out : Except RedisError α) :
    expiryAccepted (out.map f) = expiryAccepted out := by
  rcases out with (_ | _ | _) | _ <;> rfl

/-- What a script stores for a quota of `limit` requests: a counter, a log of no more members than
that, or a bucket. -/
inductive Value.Holds (limit : ℤ) : Value → Prop where
  | counter {n : ℤ} (pos : 0 < n) : Holds limit (.counter n)
  | log {ms : List (ℤ ×ₗ String)} (ne : ms ≠ []) (length_le : (ms.length : ℤ) ≤ limit) :
    Holds limit (.zset ms)
  | bucket (tokens : ℚ) (lastRefillMs : ℤ) : Holds limit (.hash tokens lastRefillMs)

/-- The entry is stored for a quota of `limit` requests, and not beyond `til`. -/
structure Entry.Lent (limit til : ℤ) (e : Entry) : Prop where
  /-- The value is one that a script stores. -/
  value : e.value.Holds limit
  /-- Redis deletes the key. -/
  deadline : ∃ d ∈ e.expireAt, d ≤ til

theorem Entry.Lent.mono {limit til til' : ℤ} {e : Entry} (h : e.Lent limit til)
    (hle : til ≤ til') : e.Lent limit til' := by
  obtain ⟨d, hd, hdle⟩ := h.deadline
  exact ⟨h.value, d, hd, hdle.trans hle⟩

/-- What a run of a script can make of an entry, by where it ends: in an error, before `PEXPIRE` or
after it. -/
inductive Leaves (limit deadline : ℤ) (before : Option Entry) : Option Entry → Prop where
  /-- The run has raised. -/
  | unchanged : Leaves limit deadline before before
  /-- The log is empty. -/
  | deleted : Leaves limit deadline before none
  /-- The deadline stays: a counter is incremented or a log is pruned. -/
  | updated {v w : Value} {d : Option ℤ} (hbefore : before = some ⟨v, d⟩)
      (hvalue : ∀ limit, v.Holds limit → w.Holds limit) : Leaves limit deadline before (some ⟨w, d⟩)
  /-- `PEXPIRE` sets a deadline. -/
  | written {v : Value} (hvalue : v.Holds limit) :
    Leaves limit deadline before (some ⟨v, some deadline⟩)

section Scripts

variable {x : Expiry} {t : RedisTime} {ks : Keyspace} {key member : String}
  {limit windowMs ttlMs : ℤ} {v : Value} {d : Option ℤ}

/-! ## Values of another type -/

theorem run_incr_wrongType (h : ks key = some ⟨v, d⟩) (hv : ∀ n, v ≠ .counter n) :
    (incr key).run x t ks = (.error .wrongType, ks) := by
  cases v <;> simp_all [Script.run, incr]

theorem run_zremrangebyscore_wrongType (h : ks key = some ⟨v, d⟩) (hv : ∀ ms, v ≠ .zset ms)
    (lo hi : ℤ) : (zremrangebyscore key lo hi).run x t ks = (.error .wrongType, ks) := by
  have hmembers : (zmembers key).run x t ks = (.error .wrongType, ks) := by
    cases v <;> simp_all [Script.run, zmembers]
  rw [zremrangebyscore, Script.run_bind_error hmembers]

theorem run_hmget_wrongType (h : ks key = some ⟨v, d⟩) (hv : ∀ tokens last, v ≠ .hash tokens last) :
    (hmget key).run x t ks = (.error .wrongType, ks) := by
  cases v <;> simp_all [Script.run, hmget]

/-! ## The scripts -/

theorem fixedWindowLua_leaves (hks : ∀ e ∈ ks (counterKey key windowMs t.ms),
      ∃ limit, e.value.Holds limit)
    (ha : expiryAccepted ((fixedWindowLua key limit windowMs).run .enforced t ks).1 = true) :
    ∃ e, Leaves limit (t.ms + (windowMs + 1000)) (ks (counterKey key windowMs t.ms)) e ∧
      ((fixedWindowLua key limit windowMs).run .enforced t ks).2 =
        Function.update ks (counterKey key windowMs t.ms) e := by
  rcases hk : ks (counterKey key windowMs t.ms) with _ | ⟨v, d⟩
  · by_cases hacc : Accepted .enforced t (windowMs + 1000)
    · rw [fixedWindowLua_run_fresh hk hacc]
      exact ⟨_, .written (.counter one_pos), rfl⟩
    · rw [fixedWindowLua_run_rejected hk hacc, expiryAccepted_expireError] at ha
      cases ha
  · obtain ⟨_, hv⟩ := hks _ hk
    cases hv with
    | @counter n pos =>
      rw [fixedWindowLua_run_counter pos hk]
      refine ⟨_, .updated rfl fun limit hv => ?_, rfl⟩
      cases hv with
      | counter pos => exact .counter (by omega)
    | log | bucket =>
      refine ⟨_, .unchanged, ?_⟩
      rw [fixedWindowLua, Script.run_bind_ok run_time,
        Script.run_bind_error (run_incr_wrongType hk (by simp)), ← hk, Function.update_eq_self]

theorem slidingWindowLogLua_leaves (hks : ∀ e ∈ ks key, ∃ limit, e.value.Holds limit)
    (ha : expiryAccepted
      ((slidingWindowLogLua key limit windowMs member).run .enforced t ks).1 = true) :
    ∃ e, Leaves limit (t.ms + (windowMs + 1000)) (ks key) e ∧
      ((slidingWindowLogLua key limit windowMs member).run .enforced t ks).2 =
        Function.update ks key e := by
  -- What the script makes of a log, which may be empty.
  have hlog : ∀ (ms : List (ℤ ×ₗ String)) (d : Option ℤ), ks key = zentry ms d →
      ∃ e, Leaves limit (t.ms + (windowMs + 1000)) (zentry ms d) e ∧
        ((slidingWindowLogLua key limit windowMs member).run .enforced t ks).2 =
          Function.update ks key e := by
    intro ms d hk
    rcases lt_or_ge ((prunedLog windowMs t ms).length : ℤ) limit with hc | hc
    · have hlen : ((extendedLog windowMs t member ms).length : ℤ) ≤ limit := by
        rw [extendedLog, withMember, List.orderedInsert_length]
        have hle := List.length_filter_le (fun m : ℤ ×ₗ String => (ofLex m).2 ≠ member)
          (prunedLog windowMs t ms)
        omega
      by_cases hacc : Accepted .enforced t (windowMs + 1000)
      · rw [slidingWindowLogLua_run_allowed hk hc hacc]
        exact ⟨_, .written (.log (withMember_ne_nil _ _ _) hlen), rfl⟩
      · rw [slidingWindowLogLua_run_rejected hk hc hacc, expiryAccepted_expireError] at ha
        cases ha
    · rw [slidingWindowLogLua_run_denied hk hc]
      refine ⟨_, ?_, rfl⟩
      have hsub := prunedLog_sublist windowMs t ms
      rcases eq_or_ne (prunedLog windowMs t ms) [] with hnil | hne
      · rw [hnil]
        exact .deleted
      · have hms : ms ≠ [] := by
          rintro rfl
          exact hne (List.sublist_nil.1 hsub)
        rw [zentry_of_ne hne, zentry_of_ne hms]
        refine .updated rfl fun limit hv => ?_
        cases hv with
        | log _ hlen => exact .log hne ((Int.ofNat_le.2 hsub.length_le).trans hlen)
  rcases hk : ks key with _ | ⟨v, d⟩
  · exact hlog [] none hk
  · obtain ⟨_, hv⟩ := hks _ hk
    cases hv with
    | @log ms hne =>
      have hentry := zentry_of_ne hne d
      rw [← hentry] at hk ⊢
      exact hlog ms d hk
    | counter | bucket =>
      refine ⟨_, .unchanged, ?_⟩
      rw [slidingWindowLogLua, Script.run_bind_ok run_time,
        Script.run_bind_error (run_zremrangebyscore_wrongType hk (by simp) _ _), ← hk,
        Function.update_eq_self]

theorem tokenBucketLua_leaves {capacity : ℤ} {refillPerMs requested : ℚ}
    (ha : expiryAccepted ((tokenBucketLua key capacity refillPerMs requested ttlMs).run .enforced t
      ks).1 = true) :
    ∃ e, Leaves limit (t.ms + ttlMs) (ks key) e ∧
      ((tokenBucketLua key capacity refillPerMs requested ttlMs).run .enforced t ks).2 =
        Function.update ks key e := by
  have hbucket : ∀ (st : Option (ℚ × ℤ)) (d : Option ℤ), ks key = bucketEntry st d →
      ∃ e, Leaves limit (t.ms + ttlMs) (ks key) e ∧
        ((tokenBucketLua key capacity refillPerMs requested ttlMs).run .enforced t ks).2 =
          Function.update ks key e := by
    intro st d hk
    by_cases hacc : Accepted .enforced t ttlMs
    · rw [tokenBucketLua_run hk hacc]
      exact ⟨_, .written (.bucket _ _), rfl⟩
    · rw [tokenBucketLua_run_rejected hk hacc, expiryAccepted_expireError] at ha
      cases ha
  rcases hk : ks key with _ | ⟨v, d⟩
  · rw [← hk]
    exact hbucket none none hk
  · cases v with
    | hash tokens last =>
      rw [← hk]
      exact hbucket (some (tokens, last)) d hk
    | counter | zset =>
      refine ⟨_, .unchanged, ?_⟩
      rw [tokenBucketLua, Script.run_bind_ok run_time,
        Script.run_bind_error (run_hmget_wrongType hk (by simp)), ← hk, Function.update_eq_self]

end Scripts

/-- **A run of a policy's script writes under one of its keys**, and what it leaves there is what
was there, or less of it, or an entry with a deadline. -/
theorem policyScript_leaves {policy : PolicyBase} {t : RedisTime} {ks : Keyspace}
    (key member : String) (hks : ∀ k, ∀ e ∈ ks k, ∃ limit, e.value.Holds limit)
    (ha : expiryAccepted ((policyScript policy key member).run .enforced t ks).1 = true) :
    ∃ k ∈ scriptKeys policy key, ∃ e, Leaves policy.rate (t.ms + policy.expiryMs) (ks k) e ∧
      ((policyScript policy key member).run .enforced t ks).2 = Function.update ks k e := by
  rw [policyScript] at ha ⊢
  cases halg : policy.algorithm with
  | fixedWindow =>
    simp only [PolicyBase.expiryMs, halg, scriptKeys] at ha ⊢
    exact ⟨_, ⟨_, rfl⟩, fixedWindowLua_leaves (hks _) ha⟩
  | slidingWindowLog =>
    simp only [PolicyBase.expiryMs, halg, scriptKeys] at ha ⊢
    exact ⟨_, rfl, slidingWindowLogLua_leaves (hks _) ha⟩
  | tokenBucket =>
    simp only [PolicyBase.expiryMs, halg, scriptKeys] at ha ⊢
    exact ⟨_, rfl, tokenBucketLua_leaves ha⟩

/-! ## All keys -/

/-- Every entry is on loan to one of the `users`, under a key of its policy, at `now` for no longer
than the policy's script asks for. -/
def Keyspace.LentTo (users : PolicyRead → RequestIdentity → Prop) (now : ℤ) (ks : Keyspace) :
    Prop :=
  ∀ k, ∀ e ∈ ks k, ∃ p a, users p a ∧
    k ∈ scriptKeys p.toPolicyBase (buildRateLimitKey p a) ∧ e.Lent p.rate (now + p.expiryMs)

namespace Keyspace.LentTo

variable {users users' : PolicyRead → RequestIdentity → Prop} {now now' : ℤ} {ks : Keyspace}

theorem empty (now : ℤ) : LentTo users now .empty := fun _ _ he => by cases he

theorem mono (h : ks.LentTo users now) (hle : now ≤ now')
    (husers : ∀ p a, users p a → users' p a) : ks.LentTo users' now' := by
  intro k e he
  obtain ⟨p, a, hpa, hk, hlent⟩ := h k e he
  exact ⟨p, a, husers p a hpa, hk, hlent.mono (by omega)⟩

theorem purge (h : ks.LentTo users now) (t : ℤ) : (purge .enforced t ks).LentTo users now :=
  fun k e he => h k e (Option.mem_filter_iff.1 he).1

/-- **One run more.**  It is one of the `users` that the script runs for. -/
theorem runPolicy {policy : PolicyRead} {identity : RequestIdentity} {t : RedisTime}
    {member : String} (h : ks.LentTo users now) (hle : now ≤ t.ms) (huser : users policy identity)
    (ha : expiryAccepted
      (RateLimiter.runPolicy .enforced t policy identity member ks).1 = true) :
    (RateLimiter.runPolicy .enforced t policy identity member ks).2.LentTo users t.ms := by
  have hpurge := (h.purge t.ms).mono hle fun _ _ hpa => hpa
  have hks : ∀ k, ∀ e ∈ RateLimiter.purge .enforced t.ms ks k, ∃ limit, e.value.Holds limit :=
    fun k e he => by
      obtain ⟨p, a, -, -, hlent⟩ := hpurge k e he
      exact ⟨_, hlent.value⟩
  rw [RateLimiter.runPolicy, eval] at ha ⊢
  rw [expiryAccepted_map] at ha
  obtain ⟨k, hk, after, hleaves, hrun⟩ :=
    policyScript_leaves (buildRateLimitKey policy identity) member hks ha
  dsimp only
  rw [hrun]
  intro l e he
  rcases eq_or_ne l k with rfl | hne
  · rw [Function.update_self] at he
    cases hleaves with
    | unchanged => exact hpurge l e he
    | deleted => cases he
    | updated hbefore hvalue =>
      obtain ⟨p, a, hpa, hl, hlent⟩ := hpurge l _ hbefore
      obtain rfl := Option.mem_some_iff.1 he
      exact ⟨p, a, hpa, hl, hvalue _ hlent.value, hlent.deadline⟩
    | written hvalue =>
      obtain rfl := Option.mem_some_iff.1 he
      exact ⟨policy, identity, huser, hk, hvalue, _, rfl, le_rfl⟩
  · rw [Function.update_of_ne hne] at he
    exact hpurge l e he

/-- **What is on loan is given back.** Once every loan is over, no key is left. -/
theorem purge_eq_empty {most : ℤ} (h : ks.LentTo users now)
    (hmost : ∀ p a, users p a → p.expiryMs ≤ most) (hnow : now + most ≤ now') :
    RateLimiter.purge .enforced now' ks = .empty := by
  funext k
  refine Option.filter_eq_none_iff.2 fun e he => ?_
  obtain ⟨p, a, hpa, -, hlent⟩ := h k e he
  obtain ⟨d, hd, hdle⟩ := hlent.deadline
  have hexpiry := hmost p a hpa
  rw [Option.mem_def] at hd
  rw [Entry.alive, hd]
  simp only [Option.all_some, decide_eq_true_eq, not_lt]
  omega

end Keyspace.LentTo

end RateLimiter
