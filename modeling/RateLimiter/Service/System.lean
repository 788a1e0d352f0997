import RateLimiter.Cache.Provenance
import RateLimiter.Service.Evaluate

/-!
# The whole service

`System` puts the parts together: the database with the policy caches and the calls on them
(`PolicyFleet`), and Redis with the local limiters and the `evaluate` calls that have their policy.
An `evaluate` call begins with a list call, takes the best policy of the list that call returns, and
goes on to the attempts.  A policy is here what a call has in its hands, a value that was read at
some time, and not an entry in a fixed catalog: while an instance decides with one version of a
policy another instance may have a later one, and the database none at all.

Everything may interleave: the steps of the write calls, of the list calls and of the attempts, the
messages to the listeners, and the requests of abandoned attempts.
-/

set_option autoImplicit false

namespace RateLimiter

/-! ## Running a script -/

namespace Fleet

variable {κ : Type} (f : Fleet PolicyRead κ) (c : EvaluateCall PolicyRead κ) (t : RedisTime)
  (member : String)

/-- Redis can run the script for the call now: its clock does not run backwards, and `uuid4` does
not repeat. -/
def CanRun : Prop :=
  f.clock ≤ t.ms ∧ ∀ m ∈ logMember c.policy.toPolicyBase member, m ∉ f.members

instance : Decidable (f.CanRun c t member) :=
  inferInstanceAs (Decidable (_ ∧ ∀ m ∈ _, m ∉ f.members))

/-- `_run_policy` for the call, as far as Redis is concerned: what the script replies, and the keys
it leaves. -/
def evalFor : Except RedisError RateLimitDecision × Keyspace :=
  runPolicy .enforced t c.policy c.identity member f.redis

/-- The fleet once Redis has run the script; whether anybody gets the reply is another matter. -/
def afterRun : Fleet PolicyRead κ :=
  { f with
    redis := (f.evalFor c t member).2
    clock := t.ms
    members := (logMember c.policy.toPolicyBase member).toList ++ f.members }

/-- What the run took from the quota, measured on the keys that have not expired by then. -/
def unitsRun : ℚ :=
  unitsTaken c.policy.toPolicyBase (buildRateLimitKey c.policy c.identity) t
    (purge .enforced t.ms f.redis) (f.evalFor c t member).2

/-- The call as Redis has run the script for it. -/
def charged : EvaluateCall PolicyRead κ := c.charge (f.unitsRun c t member)

/-- An attempt of call `n`, by how its `EVAL` ends. A reply that is an error is as good as none, as
is one that is lost. -/
def attempt (n : ℕ) : RedisOutcome → Fleet PolicyRead κ
  | .failed => f.put n c.fail
  | .lost => (f.afterRun c t member).put n (f.charged c t member).fail
  | .replied =>
    match (f.evalFor c t member).1 with
    | .ok decision =>
      { (f.afterRun c t member).put n (f.charged c t member).answer with
        answers := f.answers ++ [⟨c.policy, decision, .redis t.ms⟩] }
    | .error _ => (f.afterRun c t member).put n (f.charged c t member).fail

/-- `_recover_after_redis_failure` on the instance of the call: what it answers is recorded with who
has decided it. -/
def recovered [DecidableEq κ] (settings : Settings) (nowMs : ℤ) : Fleet PolicyRead κ :=
  let f := { f with localClock := Function.update f.localClock c.origin nowMs }
  if settings.enableLocalFallbackLimiter then
    let out := (f.limiter c.origin).apply .enforced settings.localFallbackStateTtlSeconds c.policy
      c.identity nowMs
    { f with
      limiter := Function.update f.limiter c.origin out.2
      answers := f.answers ++ [⟨c.policy, out.1.degraded, .localLimiter c.origin nowMs⟩] }
  else
    { f with
      answers := f.answers ++
        [⟨c.policy, buildDegradedDecision c.policy.toPolicyBase (nowMs / 1000), .degraded⟩] }

end Fleet

/-! ## State and events -/

/-- The state of the service. A call passes from `waiting` to the fleet when it has its policy, and
leaves an answer there, or an entry in `unlimited`. -/
structure System (κ : Type) where
  /-- The database, the policy caches and the calls on them. -/
  policies : PolicyFleet κ
  /-- Whose requests wait for their policy, by the number of the call. -/
  waiting : ℕ → Option RequestIdentity
  /-- Redis, the local limiters and the calls that have their policy. -/
  fleet : Fleet PolicyRead κ
  /-- Whose requests no policy applied to. -/
  unlimited : List RequestIdentity

/-- The beginning: a table, and nothing else anywhere. -/
def System.initial (κ : Type) (table : Table) : System κ where
  policies := .initial κ table
  waiting := fun _ => none
  fleet := .initial PolicyRead κ
  unlimited := []

/-- What can happen next. Any order of events that can happen is a run, with any number of calls
under way at once. -/
inductive SystemEvent (κ : Type) where
  /-- A step of a write call or of a list call, or a message to a listener. -/
  | policies (e : CacheEvent κ)
  /-- `evaluate` is called: list call `n` begins. -/
  | evaluate (n : ℕ) (host : κ) (identity : RequestIdentity)
  /-- List call `n` has returned, and `select_best_policy` runs. -/
  | select (n : ℕ)
  /-- An attempt of call `n`. -/
  | attempt (n : ℕ) (t : RedisTime) (member : String) (outcome : RedisOutcome)
  /-- An attempt of call `n` fails with the request on its way. -/
  | abandon (n : ℕ)
  /-- Redis runs the request of an abandoned attempt. -/
  | late (n : ℕ) (t : RedisTime) (member : String)
  /-- The attempts are used up; the instance's clock says `nowMs`. -/
  | recover (n : ℕ) (nowMs : ℤ)

/-- Only `evaluate` begins a list call, so that every list call has a request that waits for it. -/
def CacheEvent.beginsList {κ : Type} : CacheEvent κ → Bool
  | .list _ _ => true
  | _ => false

/-- The list a list call has returned. -/
def ListCall.result : ListCall → Option (List PolicyRead)
  | .returned policies => some policies
  | _ => none

namespace System

variable {κ : Type} [DecidableEq κ] (cacheSettings : CacheSettings) (settings : Settings)

/-- `select_best_policy` for call `n` on `host`, and the attempts begin. A request that no policy
applies to is let through without a limit. -/
def select (s : System κ) (n : ℕ) (host : κ) (identity : RequestIdentity)
    (policies : List PolicyRead) : System κ :=
  let s := { s with waiting := Function.update s.waiting n none }
  match selectBestPolicy policies identity with
  | none => { s with unlimited := s.unlimited ++ [identity] }
  | some policy => { s with fleet := s.fleet.put n { origin := host, policy, identity } }

/-- One event, or nothing if it cannot happen. Redis' clock and the instances' do not run backwards,
and a member drawn by `uuid4` is not sent twice. -/
def step (s : System κ) : SystemEvent κ → Option (System κ)
  | .policies e =>
    if e.beginsList then none
    else (s.policies.step cacheSettings e).map fun policies => { s with policies := policies }
  | .evaluate n host identity =>
    (s.policies.step cacheSettings (.list n host)).map fun policies =>
      { s with policies := policies, waiting := Function.update s.waiting n (some identity) }
  | .select n => (s.waiting n).bind fun identity => (s.policies.lists n).bind fun r =>
    r.phase.result.map (s.select n r.host identity)
  | .attempt n t member outcome => (s.fleet.calls n).bind fun c =>
    if c.Trying settings ∧ (outcome.executed = true → s.fleet.CanRun c t member) then
      some { s with fleet := s.fleet.attempt c t member n outcome }
    else none
  | .abandon n => (s.fleet.calls n).bind fun c =>
    if c.Trying settings then
      some { s with fleet := s.fleet.put n { c.fail with onTheWay := c.onTheWay + 1 } }
    else none
  | .late n t member => (s.fleet.calls n).bind fun c =>
    if 0 < c.onTheWay ∧ s.fleet.CanRun c t member then
      let call := { s.fleet.charged c t member with onTheWay := c.onTheWay - 1 }
      some { s with fleet := (s.fleet.afterRun c t member).put n call }
    else none
  | .recover n nowMs => (s.fleet.calls n).bind fun c =>
    if c.Recovering settings ∧ s.fleet.localClock c.origin ≤ nowMs then
      some { s with fleet := (s.fleet.recovered c settings nowMs).put n c.answer }
    else none

/-- A commit that overwrites a row finds it at the version its call has read. -/
def OverwritesVersionRead (s : System κ) : SystemEvent κ → Prop
  | .policies e => s.policies.OverwritesVersionRead e
  | _ => True

instance (s : System κ) : (e : SystemEvent κ) → Decidable (s.OverwritesVersionRead e)
  | .policies e => inferInstanceAs (Decidable (s.policies.OverwritesVersionRead e))
  | .evaluate _ _ _ | .select _ | .attempt _ _ _ _ | .abandon _ | .late _ _ _ | .recover _ _ =>
    .isTrue trivial

/-- `s'` can be reached from `s` by events whose overwrites find the version that was read. -/
abbrev Becomes : System κ → System κ → Prop :=
  Transition.Reaches (step cacheSettings settings) OverwritesVersionRead

/-- A request is decided, its policy gets another rate, and another instance, which has the list
from the cache, decides a request by the old one. -/
def sampleRun : List (SystemEvent Bool) :=
  let proceed (n : ℕ) : SystemEvent Bool := .policies (.proceed n 1 fun _ => .replied)
  [.evaluate 0 false .sample, proceed 0, proceed 0, proceed 0, proceed 0, .select 0,
    .attempt 0 (.atSecond 30) "" .lost, .attempt 0 (.atSecond 31) "" .replied,
    .policies (.begin 0 (.update .sample (.only .rate (some 3) (by decide)))),
    .policies (.commit 0 false 1),
    .evaluate 1 true .sample, proceed 1, proceed 1, .select 1,
    .attempt 1 (.atSecond 32) "" .replied]

/-! ## What an event can do -/

end System

/-- What becomes of a call that goes on: it keeps its policy, and an answer that is new is its. -/
structure Fleet.Proceeds {κ : Type} (f : Fleet PolicyRead κ) (n : ℕ)
    (c c' : EvaluateCall PolicyRead κ) (f' : Fleet PolicyRead κ) : Prop where
  calls : f'.calls = Function.update f.calls n (some c')
  policy : c'.policy = c.policy
  /-- Whose request it is. -/
  identity : c'.identity = c.identity
  /-- Whether it has returned. -/
  answered : c.answered = true → c'.answered = true
  answers : ∀ a ∈ f'.answers, a ∈ f.answers ∨ c'.answered = true ∧ a.policy = c'.policy

section Proceeds

variable {κ : Type} {f : Fleet PolicyRead κ} {c : EvaluateCall PolicyRead κ} {n : ℕ}

theorem mem_answers_concat {answers : List (Answer PolicyRead κ)} {a b : Answer PolicyRead κ}
    (hanswered : c.answered = true) (hpolicy : b.policy = c.policy) (h : a ∈ answers ++ [b]) :
    a ∈ answers ∨ c.answered = true ∧ a.policy = c.policy := by
  rcases List.mem_append.1 h with h | h
  · exact Or.inl h
  · exact Or.inr ⟨hanswered, by rw [List.mem_singleton.1 h, hpolicy]⟩

theorem Fleet.proceeds_attempt (f : Fleet PolicyRead κ) (n : ℕ) (c : EvaluateCall PolicyRead κ)
    (t : RedisTime) (member : String) (outcome : RedisOutcome) :
    ∃ c', f.Proceeds n c c' (f.attempt c t member n outcome) := by
  cases outcome with
  | failed => exact ⟨_, rfl, rfl, rfl, id, fun _ h => Or.inl h⟩
  | lost => exact ⟨_, rfl, rfl, rfl, id, fun _ h => Or.inl h⟩
  | replied =>
    rw [Fleet.attempt]
    split
    · exact ⟨_, rfl, rfl, rfl, fun _ => rfl, fun _ h => mem_answers_concat rfl rfl h⟩
    · exact ⟨_, rfl, rfl, rfl, id, fun _ h => Or.inl h⟩

theorem Fleet.proceeds_recovered [DecidableEq κ] (settings : Settings) (nowMs : ℤ) :
    f.Proceeds n c c.answer ((f.recovered c settings nowMs).put n c.answer) := by
  rw [Fleet.recovered]
  split <;> exact ⟨rfl, rfl, rfl, fun _ => rfl, fun _ h => mem_answers_concat rfl rfl h⟩

end Proceeds

namespace System

variable {κ : Type} [DecidableEq κ] (cacheSettings : CacheSettings)

/-- All an event can do to the service, with the part it changes and the call it is about. -/
inductive Effect (s : System κ) : SystemEvent κ → System κ → Prop where
  /-- A step of a write call or of a list call, or a message. -/
  | policies {e : CacheEvent κ} {policies : PolicyFleet κ}
      (hp : s.policies.step cacheSettings e = some policies) :
      Effect s (.policies e) { s with policies := policies }
  /-- A call begins. -/
  | evaluate {n : ℕ} {host : κ} {identity : RequestIdentity} {policies : PolicyFleet κ}
      (hfree : s.policies.lists n = none)
      (hp : s.policies.step cacheSettings (.list n host) = some policies) :
      Effect s (.evaluate n host identity)
        { s with policies := policies, waiting := Function.update s.waiting n (some identity) }
  /-- A call has its list. -/
  | selects {n : ℕ} {identity : RequestIdentity} {r : ListRun κ} {policies : List PolicyRead}
      (hw : s.waiting n = some identity) (hr : r ∈ s.policies.lists n)
      (hp : r.phase = .returned policies) :
      Effect s (.select n) (s.select n r.host identity policies)
  /-- A call with a policy goes on. -/
  | proceeds {e : SystemEvent κ} {n : ℕ} {c c' : EvaluateCall PolicyRead κ}
      {fleet : Fleet PolicyRead κ} (hc : s.fleet.calls n = some c)
      (hproceeds : s.fleet.Proceeds n c c' fleet) : Effect s e { s with fleet := fleet }

variable {cacheSettings} {settings : Settings} {s s' : System κ} {e : SystemEvent κ}

/-- A call takes its policy from the list its list call has returned. -/
theorem eq_select_of_step {n : ℕ} (h : s.step cacheSettings settings (.select n) = some s') :
    ∃ identity policies, ∃ r ∈ s.policies.lists n, s.waiting n = some identity ∧
      r.phase = .returned policies ∧ s' = s.select n r.host identity policies := by
  simp only [step, Option.bind_eq_some_iff] at h
  obtain ⟨identity, hw, r, hr, h⟩ := h
  obtain ⟨policies, hp, rfl⟩ := Option.map_eq_some_iff.1 h
  refine ⟨identity, policies, r, hr, hw, ?_, rfl⟩
  cases hphase : r.phase <;> simp_all [ListCall.result]

/-- An event of a call finds the call in a state in which it can happen. -/
theorem eq_attempt_of_step {n : ℕ} {t : RedisTime} {member : String} {outcome : RedisOutcome}
    (h : s.step cacheSettings settings (.attempt n t member outcome) = some s') :
    ∃ c, s.fleet.calls n = some c ∧ c.Trying settings ∧
      (outcome.executed = true → s.fleet.CanRun c t member) ∧
      s' = { s with fleet := s.fleet.attempt c t member n outcome } := by
  simp only [step, Option.bind_eq_some_iff, Option.ite_none_right_eq_some, Option.some.injEq] at h
  obtain ⟨c, hc, ⟨htrying, hrun⟩, rfl⟩ := h
  exact ⟨c, hc, htrying, hrun, rfl⟩

theorem eq_abandon_of_step {n : ℕ}
    (h : s.step cacheSettings settings (.abandon n) = some s') :
    ∃ c, s.fleet.calls n = some c ∧ c.Trying settings ∧
      s' = { s with fleet := s.fleet.put n { c.fail with onTheWay := c.onTheWay + 1 } } := by
  simp only [step, Option.bind_eq_some_iff, Option.ite_none_right_eq_some, Option.some.injEq] at h
  obtain ⟨c, hc, htrying, rfl⟩ := h
  exact ⟨c, hc, htrying, rfl⟩

theorem eq_late_of_step {n : ℕ} {t : RedisTime} {member : String}
    (h : s.step cacheSettings settings (.late n t member) = some s') :
    ∃ c, s.fleet.calls n = some c ∧ 0 < c.onTheWay ∧ s.fleet.CanRun c t member ∧
      s' = { s with
        fleet := (s.fleet.afterRun c t member).put n
          { s.fleet.charged c t member with onTheWay := c.onTheWay - 1 } } := by
  simp only [step, Option.bind_eq_some_iff, Option.ite_none_right_eq_some, Option.some.injEq] at h
  obtain ⟨c, hc, ⟨hway, hrun⟩, rfl⟩ := h
  exact ⟨c, hc, hway, hrun, rfl⟩

theorem eq_recover_of_step {n : ℕ} {nowMs : ℤ}
    (h : s.step cacheSettings settings (.recover n nowMs) = some s') :
    ∃ c, s.fleet.calls n = some c ∧ c.Recovering settings ∧
      s.fleet.localClock c.origin ≤ nowMs ∧
      s' = { s with fleet := (s.fleet.recovered c settings nowMs).put n c.answer } := by
  simp only [step, Option.bind_eq_some_iff, Option.ite_none_right_eq_some, Option.some.injEq] at h
  obtain ⟨c, hc, ⟨hrecovering, hclock⟩, rfl⟩ := h
  exact ⟨c, hc, hrecovering, hclock, rfl⟩

/-- **Every event has one of these effects.** The events of the attempts come to one, since all of
them are about one call. -/
theorem step_effect (h : s.step cacheSettings settings e = some s') :
    s.Effect cacheSettings e s' := by
  cases e with
  | policies e =>
    simp only [step, Option.ite_none_left_eq_some] at h
    obtain ⟨policies, hp, rfl⟩ := Option.map_eq_some_iff.1 h.2
    exact .policies hp
  | evaluate n host identity =>
    obtain ⟨policies, hp, rfl⟩ := Option.map_eq_some_iff.1 h
    refine .evaluate ?_ hp
    simp only [PolicyFleet.step, Option.ite_none_right_eq_some] at hp
    exact hp.1
  | select n =>
    obtain ⟨identity, policies, r, hr, hw, hp, rfl⟩ := eq_select_of_step h
    exact .selects hw hr hp
  | attempt n t member outcome =>
    obtain ⟨c, hc, -, -, rfl⟩ := eq_attempt_of_step h
    obtain ⟨c', hproceeds⟩ := s.fleet.proceeds_attempt n c t member outcome
    exact .proceeds hc hproceeds
  | abandon n =>
    obtain ⟨c, hc, -, rfl⟩ := eq_abandon_of_step h
    exact .proceeds hc ⟨rfl, rfl, rfl, id, fun _ h => Or.inl h⟩
  | late n t member =>
    obtain ⟨c, hc, -, -, rfl⟩ := eq_late_of_step h
    exact .proceeds hc ⟨rfl, rfl, rfl, id, fun _ h => Or.inl h⟩
  | recover n nowMs =>
    obtain ⟨c, hc, -, -, rfl⟩ := eq_recover_of_step h
    exact .proceeds hc (Fleet.proceeds_recovered settings nowMs)

/-! ## Numbers -/

/-- A number belongs to one call: it waits for its list, then it has its policy. -/
structure Numbered (s : System κ) : Prop where
  /-- A call that waits has no policy yet. -/
  waiting : ∀ n, s.waiting n ≠ none → s.fleet.calls n = none
  /-- A call that has one has had a list. -/
  listed : ∀ n c, s.fleet.calls n = some c → s.policies.lists n ≠ none

omit [DecidableEq κ] in
theorem numbered_initial (table : Table) : (initial κ table).Numbered :=
  ⟨fun _ _ => rfl, fun _ _ h => by cases h⟩

theorem Numbered.step (h : s.Numbered) (hs : s.step cacheSettings settings e = some s') :
    s'.Numbered := by
  cases step_effect hs with
  | policies hp => exact ⟨h.waiting, fun n c hc => PolicyFleet.lists_of_step hp (h.listed n c hc)⟩
  | @evaluate n host identity policies hfree hp =>
    refine ⟨fun m hm => ?_, fun m c hc => PolicyFleet.lists_of_step hp (h.listed m c hc)⟩
    rcases eq_or_ne m n with rfl | hne
    · cases hc : s.fleet.calls m with
      | none => rfl
      | some c => exact absurd hfree (h.listed m c hc)
    · exact h.waiting m (by simpa [hne] using hm)
  | @selects n identity r policies hw hr hp =>
    have hwaiting : ∀ m, Function.update s.waiting n none m ≠ none →
        s.fleet.calls m = none ∧ m ≠ n := by
      intro m hm
      have hne : m ≠ n := fun hmn => by simp [hmn] at hm
      exact ⟨h.waiting m (by simpa [hne] using hm), hne⟩
    rw [System.select]
    cases selectBestPolicy policies identity with
    | none => exact ⟨fun m hm => (hwaiting m hm).1, h.listed⟩
    | some policy =>
      refine ⟨fun m hm => ?_, fun m c hc => ?_⟩
      · obtain ⟨hfree, hne⟩ := hwaiting m hm
        simpa [hne] using hfree
      · rcases Transition.mem_update_some hc with ⟨rfl, -⟩ | hc
        · simp [Option.mem_def.1 hr]
        · exact h.listed m c hc
  | @proceeds _ n c c' fleet hc hproceeds =>
    refine ⟨fun m hm => ?_, fun m d hd => ?_⟩
    · have hfree := h.waiting m hm
      have hne : m ≠ n := fun hmn => by simp [hmn, hc] at hfree
      simpa [hproceeds.calls, hne] using hfree
    · rw [hproceeds.calls] at hd
      rcases Transition.mem_update_some hd with ⟨rfl, -⟩ | hd
      · exact h.listed m c hc
      · exact h.listed m d hd

end System

end RateLimiter
