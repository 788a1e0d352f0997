import RateLimiter.Service.Charges
import RateLimiter.Service.PolicyService
import RateLimiter.Service.System

/-!
# Calls that run alone

In `System` everything interleaves.  A call in one go, as `RateLimiterService.evaluate` and
`WriteCall.applyTo` have it, is one of the interleavings: its events come one after the other, and
lead to what the call returns and leaves (`System.becomes_evaluate`, `System.becomes_write`).  So
what is known of every run of the service is known of calls that wait for each other.

For an `EVAL` to be an event the clock of Redis must not run backwards and the members it is sent
must be new; `Fleet.Ready` says so of the attempts still to come.
-/

set_option autoImplicit false

namespace RateLimiter

/-! ## List calls -/

namespace System

variable {κ : Type} [DecidableEq κ] (cacheSettings : CacheSettings) (settings : Settings)
  {s : System κ} {n : ℕ}

/-- The system with the caches and the phase of list call `n` as in `x`. -/
def withList (s : System κ) (n : ℕ) (host : κ) (readAt : ℕ) (x : Caches κ × ListCall) : System κ :=
  { s with
    policies := { s.policies with
      caches := x.1
      lists := Function.update s.policies.lists n (some ⟨host, x.2, readAt⟩) } }

theorem becomes_proceed {r : ListRun κ} (hr : s.policies.lists n = some r) (now : ℚ)
    (out : CacheOp → RedisOutcome) (k : ℕ) : ∃ readAt, Becomes cacheSettings settings s
      (s.withList n r.host readAt
        ((ListCall.next cacheSettings r.host now out s.policies.store.table)^[k]
          (s.policies.caches, r.phase))) := by
  induction k with
  | zero =>
    refine ⟨r.readAt, ?_⟩
    have hself : s.withList n r.host r.readAt (s.policies.caches, r.phase) = s := by
      have hlists : Function.update s.policies.lists n (some ⟨r.host, r.phase, r.readAt⟩) =
          s.policies.lists := by rw [← hr, Function.update_eq_self]
      rw [withList, hlists]
    rw [Function.iterate_zero, id, hself]
    exact .refl s
  | succ k ih =>
    obtain ⟨readAt, hreaches⟩ := ih
    set x := (ListCall.next cacheSettings r.host now out s.policies.store.table)^[k]
      (s.policies.caches, r.phase) with hx
    refine ⟨if x.2.reads then s.policies.history.length - 1 else readAt, hreaches.trans ?_⟩
    rw [Function.iterate_succ_apply', ← hx]
    refine .of_step (e := .policies (.proceed n now out)) ?_ (by rintro w ⟨⟩)
    simp [step, CacheEvent.beginsList, PolicyFleet.step, PolicyFleet.proceed, withList,
      ListCall.next]

theorem becomes_list (hfree : s.policies.lists n = none) (i : κ) (identity : RequestIdentity)
    (now : ℚ) (out : CacheOp → RedisOutcome) : ∃ readAt, Becomes cacheSettings settings s
      { s.withList n i readAt (listActivePoliciesCached cacheSettings i now out
          s.policies.store.table s.policies.caches) with
        waiting := Function.update s.waiting n (some identity) } := by
  let u : System κ :=
    { s with
      policies := { s.policies with
        lists := Function.update s.policies.lists n (some ⟨i, .get, 0⟩) }
      waiting := Function.update s.waiting n (some identity) }
  have hu : Becomes cacheSettings settings s u :=
    .of_step (e := .evaluate n i identity) (by simp [step, PolicyFleet.step, hfree, u])
      (by trivial)
  obtain ⟨readAt, hreaches⟩ := becomes_proceed cacheSettings settings (s := u) (n := n)
    (r := ⟨i, .get, 0⟩) (by simp [u]) now out 4
  refine ⟨readAt, hu.trans ?_⟩
  convert hreaches using 1
  simp [withList, listActivePoliciesCached, u]

end System

/-! ## Attempts -/

/-- The attempts can be made, one after the other: the clock goes on, and the members are new. -/
structure Fleet.Ready {κ : Type} (f : Fleet PolicyRead κ) (attempts : List Attempt) : Prop where
  clock : ∀ a ∈ attempts, f.clock ≤ a.time.ms
  times : attempts.Pairwise fun a b => a.time.ms ≤ b.time.ms
  fresh : ∀ a ∈ attempts, a.member ∉ f.members
  members : attempts.Pairwise fun a b => a.member ≠ b.member

namespace Fleet

variable {κ : Type} {f f' : Fleet PolicyRead κ} {c : EvaluateCall PolicyRead κ} {a : Attempt}
  {attempts : List Attempt}

theorem Ready.canRun (h : f.Ready (a :: attempts)) (c : EvaluateCall PolicyRead κ) :
    f.CanRun c a.time a.member := by
  refine ⟨h.clock a List.mem_cons_self, fun m hm => ?_⟩
  rw [logMember] at hm
  split at hm
  · obtain rfl := Option.some_inj.1 hm
    exact h.fresh a List.mem_cons_self
  · cases hm

theorem Ready.tail (h : f.Ready (a :: attempts)) (hclock : f'.clock = f.clock ∨
      f'.clock = a.time.ms)
    (hmembers : ∀ m ∈ f'.members, m ∈ f.members ∨ m = a.member) : f'.Ready attempts where
  clock b hb := by
    rcases hclock with hclock | hclock <;> rw [hclock]
    · exact h.clock b (List.mem_cons_of_mem _ hb)
    · exact_mod_cast List.rel_of_pairwise_cons h.times hb
  times := h.times.tail
  fresh b hb hmem := by
    rcases hmembers _ hmem with hmem | hmem
    · exact h.fresh b (List.mem_cons_of_mem _ hb) hmem
    · exact List.rel_of_pairwise_cons h.members hb hmem.symm
  members := h.members.tail

theorem Ready.of_append {rest : List Attempt} (h : f.Ready (attempts ++ rest)) : f.Ready rest where
  clock b hb := h.clock b (List.mem_append_right _ hb)
  times := (List.pairwise_append.1 h.times).2.1
  fresh b hb := h.fresh b (List.mem_append_right _ hb)
  members := (List.pairwise_append.1 h.members).2.1

theorem Ready.congr (h : f.Ready attempts) (hclock : f'.clock = f.clock)
    (hmembers : f'.members = f.members) : f'.Ready attempts :=
  ⟨by rw [hclock]; exact h.clock, h.times, by rw [hmembers]; exact h.fresh, h.members⟩

theorem mem_of_mem_afterRun {t : RedisTime} {member m : String}
    (hm : m ∈ (f.afterRun c t member).members) : m ∈ f.members ∨ m = member := by
  rw [afterRun] at hm
  rcases List.mem_append.1 hm with hm | hm
  · rw [logMember] at hm
    split at hm
    · exact Or.inr (by simpa using hm)
    · cases hm
  · exact Or.inl hm

/-- What an attempt of call `n` makes of the fleet: `decision` is what the call gets, if anything,
and `redis` is what Redis holds then. -/
structure Tried (f : Fleet PolicyRead κ) (n : ℕ) (c : EvaluateCall PolicyRead κ) (a : Attempt)
    (decision : Option RateLimitDecision) (redis : Keyspace) (f' : Fleet PolicyRead κ) : Prop where
  redis : f'.redis = redis
  limiter : f'.limiter = f.limiter
  localClock : f'.localClock = f.localClock
  clock : f'.clock = f.clock ∨ f'.clock = a.time.ms
  members : ∀ m ∈ f'.members, m ∈ f.members ∨ m = a.member
  answers : f'.answers =
    f.answers ++ decision.toList.map fun decision => ⟨c.policy, decision, .redis a.time.ms⟩
  goesOn : decision = none → ∃ c', f'.calls n = some c' ∧ c'.origin = c.origin ∧
    c'.policy = c.policy ∧ c'.identity = c.identity ∧ c'.answered = c.answered ∧
    c'.failed = c.failed + 1

/-- **An attempt in the system is `_run_policy`.** -/
theorem tried_attempt (f : Fleet PolicyRead κ) (n : ℕ) (c : EvaluateCall PolicyRead κ)
    (halone : a.meanwhile = id) :
    f.Tried n c a (a.decision c.policy c.identity f.redis) (a.leaves c.policy c.identity f.redis)
      (f.attempt c a.time a.member n a.outcome) := by
  have heval : a.script c.policy c.identity f.redis = f.evalFor c a.time a.member := by
    rw [Attempt.script, halone]
    rfl
  simp only [Attempt.decision, Attempt.leaves, heval, halone, id]
  cases a.outcome with
  | failed =>
    exact ⟨rfl, rfl, rfl, Or.inl rfl, fun _ => Or.inl, by simp [attempt, put],
      fun _ => ⟨_, Function.update_self _ _ _, rfl, rfl, rfl, rfl, rfl⟩⟩
  | lost =>
    exact ⟨rfl, rfl, rfl, Or.inr rfl, fun _ => mem_of_mem_afterRun (t := a.time),
      by simp [attempt, put, afterRun],
      fun _ => ⟨_, Function.update_self _ _ _, rfl, rfl, rfl, rfl, rfl⟩⟩
  | replied =>
    rw [attempt]
    cases hresult : (f.evalFor c a.time a.member).1 with
    | ok decision =>
      refine ⟨rfl, rfl, rfl, Or.inr rfl, fun _ => mem_of_mem_afterRun (t := a.time), ?_, ?_⟩ <;>
        simp [Except.toOption]
    | error error =>
      refine ⟨rfl, rfl, rfl, Or.inr rfl, fun _ => mem_of_mem_afterRun (t := a.time), ?_,
        fun _ => ?_⟩
      · simp [Except.toOption, put, afterRun]
      · exact ⟨_, Function.update_self _ _ _, rfl, rfl, rfl, rfl, rfl⟩

/-- What a call makes of the fleet that comes to a decision by `attempts` and the clock of its
instance; `out` is what it decides with then. If the answer is that of a script, it is the script of
the first attempt to succeed, and bears its `TIME`. -/
structure Decided (f : Fleet PolicyRead κ) [DecidableEq κ] (c : EvaluateCall PolicyRead κ)
    (nowMs : ℤ) (attempts : List Attempt) (decision : RateLimitDecision) (out : Backend)
    (f' : Fleet PolicyRead κ) : Prop where
  redis : f'.redis = out.redis
  limiter : f'.limiter = Function.update f.limiter c.origin out.limiter
  localClock : ∀ j, f'.localClock j = f.localClock j ∨ j = c.origin ∧ f'.localClock j = nowMs
  answers : ∃ source : Source κ, f'.answers = f.answers ++ [⟨c.policy, decision, source⟩] ∧
    ∀ ms, source = .redis ms → ∃ before a, a.time.ms = ms ∧
      FirstSuccess c.policy c.identity attempts f.redis before a decision

variable [DecidableEq κ] {nowMs : ℤ} {b : Backend}

/-- **To recover in the system is `_recover_after_redis_failure`.** -/
theorem decided_recovered (settings : Settings) (n : ℕ) (hredis : b.redis = f.redis)
    (hlimiter : b.limiter = f.limiter c.origin) :
    let out := recoverAfterRedisFailure settings c.policy c.identity nowMs b
    f.Decided c nowMs attempts out.1 out.2 ((f.recovered c settings nowMs).put n c.answer) := by
  have hclock : ∀ j, Function.update f.localClock c.origin nowMs j = f.localClock j ∨
      j = c.origin ∧ Function.update f.localClock c.origin nowMs j = nowMs := by
    intro j
    rcases eq_or_ne j c.origin with rfl | hne
    · exact Or.inr ⟨rfl, by simp⟩
    · exact Or.inl (by simp [hne])
  simp only [recoverAfterRedisFailure, recovered]
  split
  · refine ⟨hredis.symm, ?_, hclock, .localLimiter c.origin nowMs, ?_, by simp⟩
    · simp [put, hlimiter]
    · simp [put, hlimiter]
  · refine ⟨hredis.symm, ?_, hclock, .degraded, rfl, by simp⟩
    simp [put, hlimiter]

/-- A call that an attempt has decided. -/
theorem Tried.decided {n : ℕ} {decision : RateLimitDecision} {redis : Keyspace}
    (h : f.Tried n c a (some decision) redis f') (hlimiter : b.limiter = f.limiter c.origin)
    (hredis : b.redis = redis)
    (hdecision : a.decision c.policy c.identity f.redis = some decision) :
    f.Decided c nowMs (a :: attempts) decision b f' where
  redis := by rw [h.redis, hredis]
  limiter := by rw [h.limiter, hlimiter, Function.update_eq_self]
  localClock j := Or.inl (by rw [h.localClock])
  answers := ⟨.redis a.time.ms, h.answers, fun ms hms =>
    ⟨[], a, by simpa using hms, .head hdecision⟩⟩

/-- A call that goes on after a failed attempt. -/
theorem Decided.of_tried {c' : EvaluateCall PolicyRead κ} {n : ℕ} {decision : RateLimitDecision}
    {out : Backend} {f'' : Fleet PolicyRead κ}
    (htried : f.Tried n c a none (a.leaves c.policy c.identity f.redis) f')
    (hdecision : a.decision c.policy c.identity f.redis = none) (horigin : c'.origin = c.origin)
    (hpolicy : c'.policy = c.policy) (hidentity : c'.identity = c.identity)
    (h : f'.Decided c' nowMs attempts decision out f'') :
    f.Decided c nowMs (a :: attempts) decision out f'' where
  redis := h.redis
  limiter := by rw [h.limiter, htried.limiter, horigin]
  localClock j := by
    rw [← htried.localClock, ← horigin]
    exact h.localClock j
  answers := by
    obtain ⟨source, hanswers, hsource⟩ := h.answers
    refine ⟨source, ?_, fun ms hms => ?_⟩
    · simpa [htried.answers, hpolicy] using hanswers
    · obtain ⟨before, a', hms', hfirst⟩ := hsource ms hms
      rw [hpolicy, hidentity, htried.redis] at hfirst
      exact ⟨a :: before, a', hms', hfirst.cons hdecision⟩

end Fleet

namespace System

variable {κ : Type} [DecidableEq κ] (cacheSettings : CacheSettings) (settings : Settings)

theorem becomes_attempt {s : System κ} {n : ℕ} {c : EvaluateCall PolicyRead κ} {a : Attempt}
    {rest : List Attempt} (hc : s.fleet.calls n = some c) (htrying : c.Trying settings)
    (halone : a.meanwhile = id) (hready : s.fleet.Ready (a :: rest)) :
    ∃ f, Becomes cacheSettings settings s { s with fleet := f } ∧ f.Ready rest ∧
      s.fleet.Tried n c a (a.decision c.policy c.identity s.fleet.redis)
        (a.leaves c.policy c.identity s.fleet.redis) f := by
  have htried := s.fleet.tried_attempt n c halone
  have hstep : s.step cacheSettings settings (.attempt n a.time a.member a.outcome) =
      some { s with fleet := s.fleet.attempt c a.time a.member n a.outcome } := by
    simp [step, hc, htrying, hready.canRun c]
  exact ⟨_, .of_step hstep (by trivial), hready.tail htried.clock htried.members, htried⟩

theorem becomes_recover {s : System κ} {n : ℕ} {c : EvaluateCall PolicyRead κ} {nowMs : ℤ}
    (hc : s.fleet.calls n = some c) (hrecovering : c.Recovering settings)
    (hclock : s.fleet.localClock c.origin ≤ nowMs) : Becomes cacheSettings settings s
      { s with fleet := (s.fleet.recovered c settings nowMs).put n c.answer } :=
  .of_step (e := .recover n nowMs) (by simp [step, hc, hrecovering, hclock]) (by trivial)

/-- **The retry loop is a run of attempts**: what `evaluate` does in one go the system does in steps
that nothing comes between. -/
theorem becomes_attemptLoop (attempts : ℕ → Attempt) (halone : ∀ k, (attempts k).meanwhile = id)
    (nowMs : ℤ) (rest : List Attempt) (n m : ℕ) : ∀ (k : ℕ) (s : System κ)
    (c : EvaluateCall PolicyRead κ) (b : Backend), (k : ℤ) + m = settings.maxAttempts →
    s.fleet.calls n = some c → c.answered = false → c.failed + 1 = k → b.redis = s.fleet.redis →
    b.limiter = s.fleet.limiter c.origin → s.fleet.localClock c.origin ≤ nowMs →
    s.fleet.Ready ((List.range' k (m + 1)).map attempts ++ rest) →
    ∃ decision out f', attemptLoop settings c.policy c.identity attempts nowMs
        (List.range' k (m + 1)) b = (.ok decision, out) ∧
      Becomes cacheSettings settings s { s with fleet := f' } ∧
      s.fleet.Decided c nowMs ((List.range' k (m + 1)).map attempts) decision out f' ∧
      f'.Ready rest := by
  induction m using Nat.strong_induction_on with
  | h m ih =>
    intro k s c b hk hc hanswered hfailed hredis hlimiter hclock hready
    have htrying : c.Trying settings := ⟨hanswered, by omega⟩
    rw [List.range'_succ, List.map_cons, List.cons_append] at hready
    rw [List.range'_succ, List.map_cons, attemptLoop, tryRunPolicy_eq, hredis]
    obtain ⟨f, hreaches, hready', htried⟩ := becomes_attempt cacheSettings settings hc htrying
      (halone k) hready
    cases hdecision : (attempts k).decision c.policy c.identity s.fleet.redis with
    | none =>
      rw [hdecision] at htried
      obtain ⟨c', hc', horigin, hpolicy, hidentity, hanswered', hfailed'⟩ := htried.goesOn rfl
      set b' : Backend :=
        { b with redis := (attempts k).leaves c.policy c.identity s.fleet.redis } with hb'
      have hlimiter' : b'.limiter = f.limiter c'.origin := by
        rw [htried.limiter, horigin, ← hlimiter]
      have hclock' : f.localClock c'.origin ≤ nowMs := by rwa [htried.localClock, horigin]
      cases m with
      | zero =>
        have hlast : ¬(k : ℤ) < settings.maxAttempts := by omega
        have hrecover := becomes_recover cacheSettings settings (s := { s with fleet := f })
          hc' ⟨by rw [hanswered', hanswered], by omega⟩ hclock'
        have hdecided : f.Decided c' nowMs ((List.range' (k + 1) 0).map attempts) _ _ _ :=
          Fleet.decided_recovered settings n (b := b') htried.redis.symm hlimiter'
        refine ⟨_, _, _, ?_, hreaches.trans hrecover,
          .of_tried htried hdecision horigin hpolicy hidentity hdecided, ?_⟩
        · simp [hlast, hpolicy, hidentity]
        · refine hready'.of_append.congr ?_ ?_ <;> (rw [Fleet.recovered]; split <;> rfl)
      | succ m =>
        have hmore : (k : ℤ) < settings.maxAttempts := by omega
        obtain ⟨decision, out, f', hloop, hreaches', hdecided, hready''⟩ := ih m (by omega) (k + 1)
          { s with fleet := f } c' b' (by omega) hc' (by rw [hanswered', hanswered]) (by omega)
          htried.redis.symm hlimiter' hclock' hready'
        refine ⟨decision, out, f', ?_, hreaches.trans hreaches',
          .of_tried htried hdecision horigin hpolicy hidentity hdecided, hready''⟩
        simpa [hmore, hpolicy, hidentity] using hloop
    | some decision =>
      rw [hdecision] at htried
      exact ⟨decision, _, f, rfl, hreaches, htried.decided hlimiter rfl hdecision,
        hready'.of_append⟩

end System

/-! ## `evaluate` -/

/-- What becomes of a call of `evaluate`, as far as others can see it. -/
inductive CallResult (κ : Type) where
  /-- It has answered. -/
  | answered (answer : Answer PolicyRead κ)
  /-- No policy applies to the request of this identity. -/
  | unlimited (identity : RequestIdentity)
  /-- The table could not be read. -/
  | raised

namespace CallResult

variable {κ : Type}

/-- The answer. -/
def answer? : CallResult κ → Option (Answer PolicyRead κ)
  | .answered answer => some answer
  | .unlimited _ | .raised => none

/-- Whose request no policy applies to. -/
def unlimited? : CallResult κ → Option RequestIdentity
  | .unlimited identity => some identity
  | .answered _ | .raised => none

end CallResult

/-- What becomes of a call, by what it returns or raises.  It has found the table `table` and the
keys `ks` and could make the attempts `attempts`; a script's answer bears the `TIME` of the first
attempt to succeed. -/
inductive Answered {κ : Type} (identity : RequestIdentity) (table : Table)
    (attempts : List Attempt) (ks : Keyspace) :
    Except EvaluateError (Option RateLimitDecision × Option PolicyRead) → CallResult κ → Prop where
  | decided {decision : RateLimitDecision} {policy : PolicyRead} {source : Source κ}
      (hsource : ∀ ms, source = .redis ms → ∃ before a, a.time.ms = ms ∧
        FirstSuccess policy identity attempts ks before a decision) :
      Answered identity table attempts ks (.ok (some decision, some policy))
        (.answered ⟨policy, decision, source⟩)
  | unlimited : Answered identity table attempts ks (.ok (none, none)) (.unlimited identity)
  | raised {error : ValidationError} (herror : listPolicies true table = .error error) :
      Answered identity table attempts ks (.error (.validation error)) .raised

namespace System

variable {κ : Type} [DecidableEq κ]

/-- What call `n` makes of the system that has begun in `s` on instance `i` and has come to `out`:
the caches, Redis and the local limiter of its instance are as `out` has them, one more answer or
one more request without a policy may be there, and the rest is as it was. -/
structure Evaluated (s : System κ) (settings : Settings) (n : ℕ) (i : κ) (env : Environment)
    (identity : RequestIdentity)
    (out : Except EvaluateError (Option RateLimitDecision × Option PolicyRead) × Caches κ × Backend)
    (s' : System κ) : Prop where
  store : s'.policies.store = s.policies.store
  invalidations : s'.policies.invalidations = s.policies.invalidations
  lists : ∀ m ≠ n, s'.policies.lists m = s.policies.lists m
  caches : s'.policies.caches = out.2.1
  redis : s'.fleet.redis = out.2.2.redis
  limiter : s'.fleet.limiter = Function.update s.fleet.limiter i out.2.2.limiter
  localClock : ∀ j, s'.fleet.localClock j = s.fleet.localClock j ∨
    j = i ∧ s'.fleet.localClock j = env.nowMs
  result : ∃ result : CallResult κ,
    s'.fleet.answers = s.fleet.answers ++ result.answer?.toList ∧
    s'.unlimited = s.unlimited ++ result.unlimited?.toList ∧
    Answered identity s.policies.store.table (env.possibleAttempts settings) s.fleet.redis out.1
      result

variable (cacheSettings : CacheSettings) (settings : Settings)

/-- **`evaluate` in one go is a run of the system.** -/
theorem becomes_evaluate {s : System κ} {n : ℕ} (hfree : s.policies.lists n = none) (i : κ)
    (env : Environment) (halone : ∀ k, (env.attempts k).meanwhile = id) (identity : RequestIdentity)
    (hclock : s.fleet.localClock i ≤ env.nowMs) {rest : List Attempt}
    (hready : s.fleet.Ready (env.possibleAttempts settings ++ rest)) :
    ∃ s', Becomes cacheSettings settings s s' ∧ s'.fleet.Ready rest ∧
      s.Evaluated settings n i env identity (RateLimiterService.evaluate cacheSettings settings i
        env s.policies.store.table identity s.policies.caches ⟨s.fleet.redis, s.fleet.limiter i⟩)
        s' := by
  obtain ⟨readAt, hlist⟩ := becomes_list cacheSettings settings hfree i identity env.now env.cacheOp
  set x := listActivePoliciesCached cacheSettings i env.now env.cacheOp s.policies.store.table
    s.policies.caches with hx
  set u : System κ := { s.withList n i readAt x with
    waiting := Function.update s.waiting n (some identity) } with hu
  have hlists : ∀ m ≠ n, u.policies.lists m = s.policies.lists m := fun m hm => by
    simp [hu, withList, hm]
  have hphase : ∀ policies, obtainedPolicies cacheSettings i env s.policies.store.table
      s.policies.caches = .ok policies → x.2 = .returned policies := by
    intro policies hpolicies
    have houtcome : x.2.outcome = some (.ok policies) := by
      rw [← hpolicies]
      exact (Option.some_get _).symm
    cases hphase : x.2 <;> simp_all [ListCall.outcome]
  rw [RateLimiterService.evaluate]
  cases hpolicies : obtainedPolicies cacheSettings i env s.policies.store.table
      s.policies.caches with
  | error error =>
    have hraised : x.2 = .raised error := by
      have houtcome : x.2.outcome = some (.error error) := by
        rw [← hpolicies]
        exact (Option.some_get _).symm
      cases hphase : x.2 <;> simp_all [ListCall.outcome]
    exact ⟨u, hlist, hready.of_append, rfl, rfl, hlists, rfl, rfl, by simp [hu, withList],
      fun _ => Or.inl rfl, .raised, by simp [hu, withList, CallResult.answer?],
      by simp [hu, withList, CallResult.unlimited?], .raised (ListCall.raised_iterate hraised)⟩
  | ok policies =>
    have hselect : Becomes cacheSettings settings u (u.select n i identity policies) :=
      .of_step (e := .select n)
        (by simp [step, hu, withList, hphase policies hpolicies, ListCall.result]) (by trivial)
    dsimp only
    rw [System.select] at hselect
    cases hbest : selectBestPolicy policies identity with
    | none =>
      rw [hbest] at hselect
      exact ⟨_, hlist.trans hselect, hready.of_append, rfl, rfl, hlists, rfl, rfl,
        by simp [hu, withList], fun _ => Or.inl rfl, .unlimited identity,
        by simp [hu, withList, CallResult.answer?], by simp [hu, withList, CallResult.unlimited?],
        .unlimited⟩
    | some policy =>
      rw [hbest] at hselect
      have hpos := Settings.maxAttempts_pos settings
      obtain ⟨m, hm⟩ : ∃ m, settings.maxAttempts.toNat = m + 1 :=
        ⟨settings.maxAttempts.toNat - 1, by omega⟩
      have hattempts : env.possibleAttempts settings =
          (List.range' 1 (m + 1)).map env.attempts := by
        rw [Environment.possibleAttempts, hm]
      rw [hattempts] at hready
      obtain ⟨decision, out, f', hloop, hreaches, hdecided, hready'⟩ :=
        becomes_attemptLoop cacheSettings settings env.attempts halone env.nowMs rest n m 1
          { u with
            waiting := Function.update u.waiting n none
            fleet := u.fleet.put n { origin := i, policy, identity } }
          { origin := i, policy, identity } ⟨s.fleet.redis, s.fleet.limiter i⟩ (by omega)
          (Function.update_self _ _ _) rfl rfl rfl rfl hclock (hready.congr rfl rfl)
      obtain ⟨source, hanswers, hsource⟩ := hdecided.answers
      dsimp only
      rw [hm, hloop]
      exact ⟨_, (hlist.trans hselect).trans hreaches, hready', rfl, rfl, hlists, rfl,
        hdecided.redis, hdecided.limiter, hdecided.localClock, .answered _, hanswers,
        by simp [hu, withList, CallResult.unlimited?], .decided (by rwa [hattempts])⟩

end System

/-! ## Write calls -/

/-- The id a call would give to a new policy; other calls draw none. -/
def WriteCall.newId? : WriteCall → Option UUID
  | .create id _ | .upsert id _ => some id
  | .update _ _ | .delete _ => none

/-- A call inserts nothing but its own new policy. -/
theorem WriteCall.newId_of_statement {table : Table} {call : WriteCall} {id : UUID}
    {payload : PolicyBase} (h : call.statement table = some (.insert id payload)) :
    call.newId? = some id := by
  cases call with
  | create id' payload' =>
    cases h
    rfl
  | update id' payload' =>
    obtain ⟨policy, -, h⟩ := Option.bind_eq_some_iff.1 h
    rw [updatePolicy] at h
    split at h
    · split at h <;> cases h
    · cases h
  | upsert newId payload' =>
    rw [statement] at h
    cases hfind : table.findByName payload'.name with
    | none =>
      rw [hfind] at h
      cases h
      rfl
    | some found =>
      rw [hfind, upsertPolicyByName] at h
      split at h <;> cases h
  | delete id' =>
    obtain ⟨_, -, h⟩ := Option.map_eq_some_iff.1 h
    cases h

namespace System

variable {κ : Type} [DecidableEq κ] (cacheSettings : CacheSettings) (settings : Settings)
  {s : System κ} {n : ℕ}

/-- The system with the caches and the phase of the invalidation of write call `n` as in `x`. -/
def withInvalidation (s : System κ) (n : ℕ) (host : κ) (committedAt : ℕ)
    (x : Caches κ × Invalidation) : System κ :=
  { s with
    policies := { s.policies with
      caches := x.1
      invalidations := Function.update s.policies.invalidations n
        (some ⟨host, x.2, committedAt⟩) } }

theorem becomes_invalidate {r : InvalidationRun κ} (hr : s.policies.invalidations n = some r)
    (out : CacheOp → RedisOutcome) (k : ℕ) : Becomes cacheSettings settings s
      (s.withInvalidation n r.host r.committedAt
        ((Invalidation.next cacheSettings r.host out)^[k] (s.policies.caches, r.phase))) := by
  induction k with
  | zero =>
    have hself : s.withInvalidation n r.host r.committedAt (s.policies.caches, r.phase) = s := by
      have hruns : Function.update s.policies.invalidations n
          (some ⟨r.host, r.phase, r.committedAt⟩) = s.policies.invalidations := by
        rw [← hr, Function.update_eq_self]
      rw [withInvalidation, hruns]
    rw [Function.iterate_zero, id, hself]
    exact .refl s
  | succ k ih =>
    refine ih.trans ?_
    rw [Function.iterate_succ_apply']
    refine .of_step (e := .policies (.invalidate n out)) ?_ (by rintro w ⟨⟩)
    simp [step, CacheEvent.beginsList, PolicyFleet.step, PolicyFleet.invalidate, withInvalidation,
      Invalidation.next]

/-- What write call `n` makes of the system: what the same call makes of database and caches, and
nothing else. -/
structure Written (s : System κ) (n : ℕ) (ctx : CallContext κ) (call : WriteCall) (s' : System κ) :
    Prop where
  stores : (⟨s'.policies.store.table, s'.policies.caches⟩ : Stores κ) =
    call.applyTo cacheSettings ctx ⟨s.policies.store.table, s.policies.caches⟩
  lists : s'.policies.lists = s.policies.lists
  pending : ∀ m ≠ n, s'.policies.store.pending m = s.policies.store.pending m
  invalidations : ∀ m ≠ n, s'.policies.invalidations m = s.policies.invalidations m
  fleet : s'.fleet = s.fleet
  unlimited : s'.unlimited = s.unlimited
  log : ∀ p ∈ s'.policies.store.log, p ∈ s.policies.store.log ∨ p.1 ∈ call.newId? ∨
    ∃ row, row ∈ s.policies.store.table.lookup p.1

/-- A statement logs a row of the policy it is about. -/
theorem logged_of_statement {table table' : Table} {call : WriteCall} {statement : Statement}
    (h : call.statement table = some statement) {p : UUID × Row}
    (hp : p ∈ statement.logged table') : p.1 ∈ call.newId? ∨ ∃ row, row ∈ table.lookup p.1 := by
  cases statement with
  | insert id payload =>
    left
    simp only [Statement.logged, Option.mem_toList, Option.map_eq_some_iff] at hp
    obtain ⟨row, -, rfl⟩ := hp
    exact WriteCall.newId_of_statement h
  | update id loaded next =>
    right
    simp only [Statement.logged, Option.mem_toList, Option.map_eq_some_iff] at hp
    obtain ⟨row, -, rfl⟩ := hp
    exact ⟨loaded, PolicyStore.mem_lookup_of_statement h⟩
  | delete id => cases hp

/-- A call that commits right after it has read. -/
theorem becomes_commit {call : WriteCall} {statement : Statement} {table : Table}
    (hp : s.policies.store.pending n = some statement)
    (hstatement : call.statement s.policies.store.table = some statement)
    (hfree : s.policies.invalidations n = none) (host : κ) {now : ℤ}
    (hcommit : statement.commit Row.fits now s.policies.store.table = some table)
    (hfresh : ∀ id ∈ call.newId?, s.policies.store.Fresh id) :
    Becomes cacheSettings settings s
      { s with
        policies :=
          { s.policies with
            store := ⟨table, Function.update s.policies.store.pending n none,
              s.policies.store.log ++ statement.logged table⟩
            invalidations := Function.update s.policies.invalidations n
              (some ⟨host, .clear, s.policies.history.length⟩)
            history := s.policies.history ++ [table] } } := by
  have hexec : statement.execute now s.policies.store.table = some table := by
    simp only [Statement.commit, Option.ite_none_right_eq_some] at hcommit
    exact (Option.filter_eq_some_iff.1 hcommit.2).1
  have hcan : s.policies.store.CanCommit statement := by
    cases statement with
    | insert id payload => exact hfresh id (WriteCall.newId_of_statement hstatement)
    | update | delete => trivial
  refine .of_step (e := .policies (.commit n host now)) ?_ ?_
  · simp [step, CacheEvent.beginsList, PolicyFleet.step, PolicyStore.step, hfree, hp, hcan, hexec]
  · rintro w ⟨⟩ _ _ id loaded next ⟨⟩ hp' current hcur
    -- The row is as the call has just read it.
    rw [hp, Option.some_inj] at hp'
    rw [hp'] at hstatement
    rw [Option.mem_unique hcur (PolicyStore.mem_lookup_of_statement hstatement)]

/-- **A write call in one go is a run of the system**, from its read to the end of its invalidation.
-/
theorem becomes_write (hpending : s.policies.store.pending n = none)
    (hfree : s.policies.invalidations n = none) (ctx : CallContext κ) (call : WriteCall)
    (hfresh : ∀ id ∈ call.newId?, s.policies.store.Fresh id) :
    ∃ s', Becomes cacheSettings settings s s' ∧ s.Written cacheSettings n ctx call s' := by
  set u : System κ := { s with
    policies := { s.policies with
      store := { s.policies.store with
        pending := Function.update s.policies.store.pending n
          (call.statement s.policies.store.table) } } } with hu
  have hbegin : Becomes cacheSettings settings s u := by
    refine .of_step (e := .policies (.begin n call)) ?_ ?_
    · simp [step, CacheEvent.beginsList, PolicyFleet.step, PolicyStore.step, hpending, hu]
    · rintro w ⟨⟩
      exact PolicyStore.onUpdate_of_ne (by simp)
  have hother : ∀ statement, ∀ m ≠ n,
      Function.update s.policies.store.pending n statement m = s.policies.store.pending m :=
    fun _ m hm => by simp [hm]
  cases hstatement : call.statement s.policies.store.table with
  | none =>
    refine ⟨u, hbegin, ?_, rfl, hother _, fun _ _ => rfl, rfl, rfl, fun p hp => Or.inl hp⟩
    exact (PolicyService.applyTo_of_none _ _ _ hstatement).symm
  | some statement =>
    have hp : u.policies.store.pending n = some statement := by simp [hu, hstatement]
    cases hcommit : statement.commit Row.fits ctx.now s.policies.store.table with
    | none =>
      have habort : Becomes cacheSettings settings u { u with
          policies := { u.policies with
            store := { u.policies.store with
              pending := Function.update u.policies.store.pending n none } } } := by
        refine .of_step (e := .policies (.abort n)) ?_ ?_
        · simp [step, CacheEvent.beginsList, PolicyFleet.step, PolicyStore.step]
        · rintro w ⟨⟩
          exact PolicyStore.onUpdate_of_ne (by simp)
      refine ⟨_, hbegin.trans habort, ?_, rfl, fun m hm => ?_, fun _ _ => rfl, rfl, rfl,
        fun p hp => Or.inl hp⟩
      · simp [WriteCall.applyTo, hstatement, hcommit, hu]
      · simp [hu, hm]
    | some table =>
      have hcommitted := becomes_commit cacheSettings settings (s := u) hp hstatement hfree ctx.host
        hcommit hfresh
      refine ⟨_, (hbegin.trans hcommitted).trans (becomes_invalidate cacheSettings settings
        (Function.update_self _ _ _) ctx.out 3), ?_, rfl, fun m hm => ?_, fun m hm => ?_, rfl, rfl,
        fun p hp => ?_⟩
      · simp [WriteCall.applyTo, hstatement, hcommit, withInvalidation, invalidatePolicyCache, hu]
      · simp [withInvalidation, hu, hm]
      · simp [withInvalidation, hu, hm]
      · rcases List.mem_append.1 hp with hp | hp
        · exact Or.inl hp
        · exact Or.inr (logged_of_statement hstatement hp)

end System

end RateLimiter
