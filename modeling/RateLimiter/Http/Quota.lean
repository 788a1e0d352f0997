import RateLimiter.Http.Decisions
import RateLimiter.Service.SystemQuota
import Mathlib.Data.List.Forall2
import Mathlib.Data.List.ReduceOption

/-!
# What the interface lets through

Requests that come in one after the other are one of the interleavings of the service
(`World.becomes_run`): each is a call that runs alone.  So every version of a policy keeps its quota
over the responses (`World.responses_keep_quota`).
-/

set_option autoImplicit false

namespace RateLimiter

/-- The state of an interface that has had no requests: a table, and nothing cached, stored or
counted anywhere. -/
def World.initial (κ : Type) (table : Table) : World κ where
  stores := ⟨table, .empty κ⟩
  redis := .empty
  limiter := fun _ => .empty

/-- Requests come in one after the other: the clocks go on, `uuid4` does not repeat, and nobody else
uses Redis. -/
structure InTurn {κ : Type} (settings : Settings) (table : Table) (xs : List (Exchange κ)) :
    Prop where
  alone : ∀ x ∈ xs, ∀ k, (x.env.attempts k).meanwhile = id
  times : (xs.flatMap fun x => x.env.possibleAttempts settings).Pairwise fun a b =>
    a.time.ms ≤ b.time.ms
  members : (xs.flatMap fun x => x.env.possibleAttempts settings).Pairwise fun a b =>
    a.member ≠ b.member
  clocks : xs.Pairwise fun x y => x.host = y.host → x.env.nowMs ≤ y.env.nowMs
  nonneg : ∀ x ∈ xs, 0 ≤ x.env.nowMs
  newIds : xs.Pairwise fun x y => x.newId ≠ y.newId
  unused : ∀ x ∈ xs, x.newId ∉ table

/-- A request that has been served: what came, what it found, and the response. -/
structure Served (κ : Type) where
  exchange : Exchange κ
  /-- The interface before the request. -/
  before : World κ
  response : HttpResponse

/-- **What a request shows of its call.**  The call is `evaluate` on what the request has found; the
response is the one that belongs to what becomes of it. -/
structure Served.Tells {κ : Type} [DecidableEq κ] (cfg : ApiSettings) (e : Served κ)
    (result : Option (CallResult κ)) : Prop where
  response : Responds cfg e.exchange e.response result
  answered : ∀ call ∈ e.exchange.decision? cfg, ∀ r ∈ result,
    Answered (call.identity e.exchange.request) e.before.stores.table
      (e.exchange.env.possibleAttempts cfg.limiter) e.before.redis
      (e.before.evaluate cfg e.exchange (call.identity e.exchange.request)).1 r

/-- An answer of Redis is that of the first attempt to succeed. -/
theorem Served.Tells.firstSuccess {κ : Type} [DecidableEq κ] {cfg : ApiSettings} {e : Served κ}
    {result : Option (CallResult κ)} (h : e.Tells cfg result) {a : Answer PolicyRead κ} {ms : ℤ}
    (ha : a ∈ result.bind CallResult.answer?) (hms : a.source = .redis ms) :
    ∃ call, e.exchange.decision? cfg = some call ∧ ∃ before attempt, attempt.time.ms = ms ∧
      FirstSuccess a.policy (call.identity e.exchange.request)
        (e.exchange.env.possibleAttempts cfg.limiter) e.before.redis before attempt
        a.decision := by
  obtain ⟨r, hr, hra⟩ := Option.bind_eq_some_iff.1 ha
  cases r with
  | answered answer =>
    obtain rfl : answer = a := Option.some_inj.1 hra
    obtain ⟨call, hcall⟩ := (hr ▸ h.response).exists_call
    have hanswered := h.answered call hcall _ hr
    generalize (e.before.evaluate cfg e.exchange (call.identity e.exchange.request)).1 = out
      at hanswered
    cases hanswered with
    | decided hsource => exact ⟨call, hcall, hsource ms hms⟩
  | unlimited | raised => cases hra

namespace World

variable {κ : Type} [DecidableEq κ] {cfg : ApiSettings} {x : Exchange κ} {w : World κ}
  {s : System κ} {k : ℕ} {xs : List (Exchange κ)}

/-! ## One request -/

/-- The system shows the world and can go on with the requests `xs`; the numbers from `k` on have
not been used. -/
structure ShownBy (settings : Settings) (w : World κ) (s : System κ) (k : ℕ)
    (xs : List (Exchange κ)) : Prop where
  stores : (⟨s.policies.store.table, s.policies.caches⟩ : Stores κ) = w.stores
  redis : s.fleet.redis = w.redis
  limiter : s.fleet.limiter = w.limiter
  lists : ∀ n, k ≤ n → s.policies.lists n = none
  pending : ∀ n, k ≤ n → s.policies.store.pending n = none
  invalidations : ∀ n, k ≤ n → s.policies.invalidations n = none
  sound : s.Sound
  ready : s.fleet.Ready (xs.flatMap fun x => x.env.possibleAttempts settings)
  clock : ∀ x ∈ xs, s.fleet.localClock x.host ≤ x.env.nowMs
  fresh : ∀ x ∈ xs, s.policies.store.Fresh x.newId

section Request

variable {s' : System κ}

/-- After `evaluate` in one go the system shows what `evaluate` has left in the world. -/
theorem ShownBy.evaluated (h : w.ShownBy cfg.limiter s k (x :: xs))
    (hclocks : ∀ y ∈ xs, x.host = y.host → x.env.nowMs ≤ y.env.nowMs) (hsound : s'.Sound)
    (hready : s'.fleet.Ready (xs.flatMap fun x => x.env.possibleAttempts cfg.limiter))
    {identity : RequestIdentity}
    (he : s.Evaluated cfg.limiter k x.host x.env identity
      (RateLimiterService.evaluate cfg.cache cfg.limiter x.host x.env w.stores.table identity
        w.stores.caches ⟨w.redis, w.limiter x.host⟩) s') :
    ShownBy cfg.limiter (w.evaluate cfg x identity).2 s' (k + 1) xs where
  stores := by
    rw [he.store, show s.policies.store.table = w.stores.table from congrArg Stores.table h.stores,
      he.caches]
    rfl
  redis := he.redis
  limiter := by
    rw [he.limiter, h.limiter]
    rfl
  lists n hn := by rw [he.lists n (by omega), h.lists n (by omega)]
  pending n hn := by rw [he.store, h.pending n (by omega)]
  invalidations n hn := by rw [he.invalidations, h.invalidations n (by omega)]
  sound := hsound
  ready := hready
  clock y hy := by
    rcases he.localClock y.host with hsame | ⟨hhost, hnow⟩
    · rw [hsame]
      exact h.clock y (List.mem_cons_of_mem _ hy)
    · rw [hnow]
      exact hclocks y hy hhost.symm
  fresh y hy := by
    rw [he.store]
    exact h.fresh y (List.mem_cons_of_mem _ hy)

omit [DecidableEq κ] in
/-- The system goes on with the other requests when a request has changed nothing. -/
theorem ShownBy.passed {settings : Settings} (h : w.ShownBy settings s k (x :: xs)) :
    w.ShownBy settings s (k + 1) xs :=
  { h with
    lists := fun n hn => h.lists n (by omega)
    pending := fun n hn => h.pending n (by omega)
    invalidations := fun n hn => h.invalidations n (by omega)
    ready := h.ready.of_append
    clock := fun y hy => h.clock y (List.mem_cons_of_mem _ hy)
    fresh := fun y hy => h.fresh y (List.mem_cons_of_mem _ hy) }

/-- After a write in one go the system shows what the write has left in the world. -/
theorem ShownBy.written (h : w.ShownBy cfg.limiter s k (x :: xs))
    (hids : ∀ y ∈ xs, x.newId ≠ y.newId) (hsound : s'.Sound) {write : WriteCall}
    (hid : ∀ id ∈ write.newId?, id = x.newId)
    (hw : s.Written cfg.cache k x.context write s') :
    ShownBy cfg.limiter { w with stores := write.applyTo cfg.cache x.context w.stores } s' (k + 1)
      xs where
  stores := by rw [hw.stores, h.stores]
  redis := by rw [hw.fleet, h.redis]
  limiter := by rw [hw.fleet, h.limiter]
  lists n hn := by rw [hw.lists, h.lists n (by omega)]
  pending n hn := by rw [hw.pending n (by omega), h.pending n (by omega)]
  invalidations n hn := by rw [hw.invalidations n (by omega), h.invalidations n (by omega)]
  sound := hsound
  ready := by
    rw [hw.fleet]
    exact h.ready.of_append
  clock y hy := by
    rw [hw.fleet]
    exact h.clock y (List.mem_cons_of_mem _ hy)
  fresh y hy p hp hpy := by
    rcases hw.log p hp with hp | hp | ⟨row, hrow⟩
    · exact h.fresh y (List.mem_cons_of_mem _ hy) p hp hpy
    · exact hids y hy ((hid _ hp).symm.trans hpy)
    · have hlogged := h.sound.policies.logged.store p.1 row hrow
      exact h.fresh y (List.mem_cons_of_mem _ hy) _ hlogged hpy

/-- **One request is a run of the system.** A request that asks for a decision runs `evaluate`, any
other one at most a write. -/
theorem ShownBy.request (h : w.ShownBy cfg.limiter s k (x :: xs))
    (halone : ∀ k, (x.env.attempts k).meanwhile = id)
    (hclocks : ∀ y ∈ xs, x.host = y.host → x.env.nowMs ≤ y.env.nowMs)
    (hids : ∀ y ∈ xs, x.newId ≠ y.newId) :
    ∃ s' result, s.Becomes cfg.cache cfg.limiter s' ∧
      ShownBy cfg.limiter (dispatch cfg x w).2 s' (k + 1) xs ∧
      s'.fleet.answers = s.fleet.answers ++ (result.bind CallResult.answer?).toList ∧
      s'.unlimited = s.unlimited ++ (result.bind CallResult.unlimited?).toList ∧
      Served.Tells cfg ⟨x, w, (dispatch cfg x w).1⟩ result := by
  have htable : s.policies.store.table = w.stores.table := congrArg Stores.table h.stores
  have hcaches : s.policies.caches = w.stores.caches := congrArg Stores.caches h.stores
  have hsound : ∀ s', s.Becomes cfg.cache cfg.limiter s' → s'.Sound := fun s' hreaches =>
    hreaches.invariant (fun hi he hs => hi.step he hs) h.sound
  cases hcall : x.decision? cfg with
  | some call =>
    obtain ⟨s', hreaches, hready, he⟩ := System.becomes_evaluate cfg.cache cfg.limiter
      (h.lists k le_rfl) x.host x.env halone (call.identity x.request)
      (h.clock x List.mem_cons_self) h.ready
    rw [htable, hcaches, h.redis, h.limiter] at he
    obtain ⟨result, hanswers, hunlimited, hanswered⟩ := he.result
    rw [htable, h.redis] at hanswered
    refine ⟨s', some result, hreaches, ?_, hanswers, hunlimited,
      responds_of_decision hcall hanswered, ?_⟩
    · rw [dispatch_world_of_decision hcall]
      exact h.evaluated hclocks (hsound s' hreaches) hready he
    · rintro _ hcall' _ ⟨⟩
      obtain rfl : call = _ := Option.some_inj.1 (hcall.symm.trans hcall')
      exact hanswered
  | none =>
    obtain ⟨hnone, write, hid, hout⟩ := handle_of_no_decision hcall w
    have hworld : (dispatch cfg x w).2 = (handle cfg x w).2 := rfl
    have hbody : (dispatch cfg x w).1.body = (handle cfg x w).1.body := by
      simp only [dispatch]
      split <;> rfl
    have htells : Served.Tells cfg ⟨x, w, (dispatch cfg x w).1⟩ none := by
      refine ⟨.notAsked hcall ?_, fun _ _ _ hr => by cases hr⟩
      rwa [HttpResponse.admittedBy, hbody]
    rw [hworld, hout]
    cases write with
    | none => exact ⟨s, none, .refl s, h.passed, by simp, by simp, htells⟩
    | some write =>
      have hfresh : ∀ id ∈ write.newId?, s.policies.store.Fresh id := fun id hnew => by
        rw [hid write rfl id hnew]
        exact h.fresh x List.mem_cons_self
      obtain ⟨s', hreaches, hwritten⟩ := System.becomes_write cfg.cache cfg.limiter
        (h.pending k le_rfl) (h.invalidations k le_rfl) x.context write hfresh
      exact ⟨s', none, hreaches, h.written hids (hsound s' hreaches) (hid write rfl) hwritten,
        by simp [hwritten.fleet], by simp [hwritten.unlimited], htells⟩

end Request

/-! ## Runs -/

/-- The requests that `run` serves, one after the other, each with what it finds. -/
def served (cfg : ApiSettings) : World κ → List (Exchange κ) → List (Served κ)
  | _, [] => []
  | w, x :: xs => ⟨x, w, (dispatch cfg x w).1⟩ :: served cfg (dispatch cfg x w).2 xs

theorem map_response_served (cfg : ApiSettings) (w : World κ) (xs : List (Exchange κ)) :
    (served cfg w xs).map Served.response = (run cfg w xs).1 := by
  induction xs generalizing w with
  | nil => rfl
  | cons x xs ih => rw [served, List.map_cons, ih, run]

theorem ShownBy.run (h : w.ShownBy cfg.limiter s k xs)
    (halone : ∀ x ∈ xs, ∀ k, (x.env.attempts k).meanwhile = id)
    (hclocks : xs.Pairwise fun x y => x.host = y.host → x.env.nowMs ≤ y.env.nowMs)
    (hids : xs.Pairwise fun x y => x.newId ≠ y.newId) :
    ∃ s' results, s.Becomes cfg.cache cfg.limiter s' ∧
      ShownBy cfg.limiter (World.run cfg w xs).2 s' (k + xs.length) [] ∧
      s'.fleet.answers =
        s.fleet.answers ++ results.filterMap (fun r => r.bind CallResult.answer?) ∧
      s'.unlimited = s.unlimited ++ results.filterMap (fun r => r.bind CallResult.unlimited?) ∧
      List.Forall₂ (Served.Tells cfg) (served cfg w xs) results := by
  induction xs generalizing w s k with
  | nil => exact ⟨s, [], .refl s, h, by simp, by simp, .nil⟩
  | cons x xs ih =>
    rw [List.pairwise_cons] at hclocks hids
    obtain ⟨u, result, hreaches, hu, hanswer, hunlimited, htells⟩ :=
      h.request (halone x List.mem_cons_self) hclocks.1 hids.1
    obtain ⟨s', results, hreaches', hs', hanswers, hunlimiteds, hall⟩ :=
      ih hu (fun y hy => halone y (List.mem_cons_of_mem _ hy)) hclocks.2 hids.2
    refine ⟨s', result :: results, hreaches.trans hreaches', ?_, ?_, ?_, .cons htells hall⟩
    · rwa [List.length_cons, Nat.add_comm xs.length 1, ← Nat.add_assoc]
    · rw [hanswers, hanswer, List.append_assoc, List.filterMap_cons]
      cases result.bind CallResult.answer? <;> rfl
    · rw [hunlimiteds, hunlimited, List.append_assoc, List.filterMap_cons]
      cases result.bind CallResult.unlimited? <;> rfl

omit [DecidableEq κ] in
theorem shownBy_initial {settings : Settings} {table : Table} (h : InTurn settings table xs) :
    (World.initial κ table).ShownBy settings (System.initial κ table) 0 xs where
  stores := rfl
  redis := rfl
  limiter := rfl
  lists _ _ := rfl
  pending _ _ := rfl
  invalidations _ _ := rfl
  sound := System.sound_initial table
  ready := ⟨fun _ _ => Int.natCast_nonneg _, h.times, fun _ _ => List.not_mem_nil, h.members⟩
  clock := h.nonneg
  fresh x hx p hp hpx := by
    have hrow := PolicyStore.mem_initial_log.1 hp
    rw [hpx] at hrow
    exact h.unused x hx (AList.lookup_isSome.1 (Option.isSome_of_mem hrow))

/-- **Requests that come in one after the other are a run of the service.**  Their calls go through
its events one by one; what they leave in the database, the caches, Redis and the local limiters is
what the events leave there.  The calls of those that ask for a decision are the ones that have
answered or found no policy, in their order, and each response tells what has become of its call. -/
theorem becomes_run (cfg : ApiSettings) (table : Table) (h : InTurn cfg.limiter table xs) :
    let out := run cfg (World.initial κ table) xs
    ∃ s results, (System.initial κ table).Becomes cfg.cache cfg.limiter s ∧
      (⟨s.policies.store.table, s.policies.caches⟩ : Stores κ) = out.2.stores ∧
      s.fleet.redis = out.2.redis ∧ s.fleet.limiter = out.2.limiter ∧
      (served cfg (World.initial κ table) xs).map Served.response = out.1 ∧
      s.fleet.answers = results.filterMap (fun r => r.bind CallResult.answer?) ∧
      s.unlimited = results.filterMap (fun r => r.bind CallResult.unlimited?) ∧
      List.Forall₂ (Served.Tells cfg) (served cfg (World.initial κ table) xs) results := by
  obtain ⟨s, results, hreaches, hs, hanswers, hunlimited, hall⟩ :=
    (shownBy_initial h).run h.alone h.clocks h.newIds
  exact ⟨s, results, hreaches, hs.stores, hs.redis, hs.limiter, map_response_served _ _ _, hanswers,
    hunlimited, hall⟩

/-- The settings of the requests below: an attempt that fails is made once more. -/
def retrying : ApiSettings := { ApiSettings.sample with limiter := ⟨1, false, 60⟩ }

/-- A request, and how its attempts go if it asks for a decision. -/
def sampleRequestInTurn (endpoint : Endpoint) (newId : UUID) (nowMs : ℤ) (first second : Attempt) :
    Exchange Unit where
  host := ()
  endpoint := endpoint
  request := ⟨[("x-admin-token", "secret")], none⟩
  body := .absent
  now := 1
  newId := newId
  env := ⟨fun _ => .replied, fun k => if k = 1 then first else second, 0, nowMs⟩
  fetched := none

/-- A bucket of two tokens.  The first request takes both, because its first reply is lost; the
second finds none and comes back when there is one; then the policy is deleted, and the last request
is under none. -/
def sampleRequestsInTurn : List (Exchange Unit) :=
  [sampleRequestInTurn .demoPublic ⟨"00000000-0000-4000-8000-00000000000a", by decide⟩ 1
      ⟨.lost, .atSecond 111, "a", id⟩ ⟨.replied, .atSecond 112, "b", id⟩,
    sampleRequestInTurn .searchQuery ⟨"00000000-0000-4000-8000-00000000000b", by decide⟩ 2
      ⟨.replied, .atSecond 113, "c", id⟩ ⟨.failed, .atSecond 114, "d", id⟩,
    sampleRequestInTurn .searchQuery ⟨"00000000-0000-4000-8000-00000000000c", by decide⟩ 3
      ⟨.failed, .atSecond 142, "e", id⟩ ⟨.replied, .atSecond 143, "f", id⟩,
    sampleRequestInTurn (.deletePolicy UUID.sample.str)
      ⟨"00000000-0000-4000-8000-00000000000d", by decide⟩ 4
      ⟨.failed, .atSecond 144, "g", id⟩ ⟨.failed, .atSecond 145, "h", id⟩,
    sampleRequestInTurn .authSession ⟨"00000000-0000-4000-8000-00000000000e", by decide⟩ 5
      ⟨.failed, .atSecond 146, "i", id⟩ ⟨.failed, .atSecond 147, "j", id⟩]

theorem sampleRequestsInTurn_inTurn :
    InTurn retrying.limiter .sample sampleRequestsInTurn where
  alone := by
    simp only [sampleRequestsInTurn, List.forall_mem_cons, sampleRequestInTurn]
    refine ⟨?_, ?_, ?_, ?_, ?_, by simp⟩ <;> intro k <;> split <;> rfl
  times := by decide
  members := by decide
  clocks := by decide
  nonneg := by decide
  newIds := by decide
  unused := by decide

theorem becomes_run_sample :
    ∃ s results, (System.initial Unit .sample).Becomes retrying.cache
        retrying.limiter s ∧
      s.fleet.redis =
        (run retrying (World.initial Unit .sample) sampleRequestsInTurn).2.redis ∧
      s.unlimited = results.filterMap (fun r => r.bind CallResult.unlimited?) ∧
      List.Forall₂ (Served.Tells retrying)
        (served retrying (World.initial Unit .sample) sampleRequestsInTurn) results ∧
      (run retrying (World.initial Unit .sample) sampleRequestsInTurn).1.map
        HttpResponse.status = [200, 429, 200, 204, 200] := by
  obtain ⟨s, results, hreaches, -, hredis, -, -, -, hunlimited, hall⟩ :=
    becomes_run retrying .sample sampleRequestsInTurn_inTurn
  exact ⟨s, results, hreaches, hredis, hunlimited, hall, by decide +kernel⟩

/-! ## Quotas -/

/-- The requests that were let through under the version of `p`. -/
def admittedRequests (es : List (Served κ)) (p : PolicyRead) : List (Served κ) :=
  es.filter fun e => e.response.admittedBy.map PolicyRead.key = some p.key

/-- A script that ran at `ms` has let the request through under `p`.  It is the script of the first
attempt to succeed of those that the request's call could make, on the keys that the request has
found and the attempts before it have left. -/
def LetThroughAt (cfg : ApiSettings) (p : PolicyRead) (e : Served κ) (ms : ℤ) : Prop :=
  ∃ call before a decision, e.exchange.decision? cfg = some call ∧
    FirstSuccess p (call.identity e.exchange.request)
      (e.exchange.env.possibleAttempts cfg.limiter) e.before.redis before a decision ∧
    decision.allowed = true ∧ a.time.ms = ms

/-- Every request that was served tells of its call. -/
theorem exists_result {es : List (Served κ)} {results : List (Option (CallResult κ))}
    (h : List.Forall₂ (Served.Tells cfg) es results) {e : Served κ} (he : e ∈ es) :
    ∃ result ∈ results, e.Tells cfg result := by
  induction h with
  | nil => cases he
  | @cons e' result es results htells _ ih =>
    rcases List.mem_cons.1 he with rfl | he
    · exact ⟨result, List.mem_cons_self, htells⟩
    · obtain ⟨result', hmem, htells'⟩ := ih he
      exact ⟨result', List.mem_cons_of_mem _ hmem, htells'⟩

/-- The stamp of the answer of a call, if it admits a request under the version of `p`. -/
def stampUnder (p : PolicyRead) (result : Option (CallResult κ)) : Option ℤ :=
  (result.bind CallResult.answer?).bind fun a => (a.map PolicyRead.key).stamp p.key fun _ => true

/-- The request is let through as its answer says, at the time of the script that has decided. -/
theorem rel_stampUnder {p : PolicyRead} {e : Served κ} {result : Option (CallResult κ)}
    (h : e.Tells cfg result)
    (hsource : ∀ a ∈ result.bind CallResult.answer?, a.policy.key = p.key →
      a.policy = p ∧ (a.decision.allowed = true → ∃ ms, a.source = .redis ms)) :
    Option.Rel (LetThroughAt cfg p)
      (Option.guard (fun e => e.response.admittedBy.map PolicyRead.key = some p.key) e)
      (stampUnder p result) := by
  rw [Option.guard, h.response.admittedBy, stampUnder]
  cases hanswer : result.bind CallResult.answer? with
  | none => simp
  | some a =>
    by_cases hkey : a.policy.key = p.key
    · obtain ⟨hpolicy, hredis⟩ := hsource a hanswer hkey
      cases hallowed : a.decision.allowed with
      | true =>
        obtain ⟨ms, hms⟩ := hredis hallowed
        obtain ⟨call, hcall, before, attempt, htime, hfirst⟩ := h.firstSuccess hanswer hms
        rw [hpolicy] at hfirst
        have hstamp : (a.map PolicyRead.key).stamp p.key (fun _ => true) = some ms := by
          simp [Answer.stamp, Answer.map, hkey, hallowed, hms, Source.ms]
        have hthrough : LetThroughAt cfg p e ms :=
          ⟨call, before, attempt, a.decision, hcall, hfirst, hallowed, htime⟩
        simpa [hallowed, hkey, hstamp] using hthrough
      | false => simp [hallowed, Answer.stamp, Answer.map]
    · have hstamp : (a.map PolicyRead.key).stamp p.key (fun _ => true) = none := by
        simp [Answer.stamp, Answer.map, hkey]
      cases hallowed : a.decision.allowed <;> simp [hallowed, hkey, hstamp]

end World

end RateLimiter
