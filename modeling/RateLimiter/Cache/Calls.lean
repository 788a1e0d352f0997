import RateLimiter.Database.Table
import Mathlib.Algebra.Order.Ring.Rat
import Mathlib.Logic.Function.Iterate

/-!
# The policy caches and the calls that use them

The list of active policies is kept twice: in Redis, under one key for all instances, and in the
`PolicySnapshotStore` of each instance.  `list_active_policies_cached` and `invalidate_policy_cache`
go from one `await` to the next; `ListCall` and `Invalidation` say where such a call is, and their
`step`s do what lies between two awaits.  Other calls may run between two steps, or not; what can go
wrong depends on that, and the modules that follow decide it.

A Redis operation may fail with a `RedisError`, which does not tell whether Redis executed it.
-/

set_option autoImplicit false

namespace RateLimiter

/-- The settings of the policy cache: for how long Redis and an instance keep a list, and whether a
write tells the other instances. -/
structure CacheSettings where
  /-- `policy_cache_ttl_seconds`. -/
  policyCacheTtlSeconds : ℤ
  /-- `local_policy_cache_ttl_seconds`. -/
  localPolicyCacheTtlSeconds : ℤ
  /-- `enable_policy_pubsub`. -/
  enablePolicyPubsub : Bool

/-- The Redis operations of the policy cache. Each of them can fail by itself, and is caught where
it happens. -/
inductive CacheOp where
  | get
  | setex
  | delete
  | publish
  deriving DecidableEq, Repr

instance : Fintype CacheOp where
  elems := {.get, .setex, .delete, .publish}
  complete op := by cases op <;> decide

/-- How a Redis operation ends. That it has been executed and that the caller hears of it are two
things, and a `RedisError` says neither. -/
inductive RedisOutcome where
  /-- Executed and answered. -/
  | replied
  /-- Executed, but the caller sees a `RedisError`. -/
  | lost
  /-- Not executed; a `RedisError`. -/
  | failed
  deriving DecidableEq, Repr

/-- Redis has executed the operation, whether or not its reply has come back. -/
def RedisOutcome.executed : RedisOutcome → Bool
  | .replied | .lost => true
  | .failed => false

/-! ## Caches -/

/-- The value under `policy_cache_key`, as the list it encodes. That the text and the list are the
same to every caller is shown where the text is modelled. -/
structure CacheEntry where
  policies : List PolicyRead
  /-- When Redis drops it. -/
  expiresAt : ℚ

/-- `LocalPolicySnapshot`: the list an instance keeps for itself, with the reading of its monotonic
clock when it has stored it. -/
structure LocalPolicySnapshot where
  policies : List PolicyRead
  /-- When it was stored. -/
  loadedAtMonotonic : ℚ

/-- `PolicySnapshotStore.get_fresh`: the list, as long as its age is at most
`local_policy_cache_ttl_seconds`. -/
def getFresh (ttlSeconds : ℤ) (now : ℚ) : Option LocalPolicySnapshot → Option (List PolicyRead)
  | none => none
  | some snapshot =>
    if now - snapshot.loadedAtMonotonic > ttlSeconds then none else some snapshot.policies

/-- The copies of the policy list, `κ` being the instances: one in Redis, one on each instance, and
the messages that tell instances to drop theirs. -/
structure Caches (κ : Type) where
  /-- The key in Redis. -/
  entry : Option CacheEntry
  /-- Each instance's `PolicySnapshotStore`. -/
  snapshot : κ → Option LocalPolicySnapshot
  /-- The refresh messages on their way to each instance's listener. -/
  mailbox : κ → ℕ

/-- Nothing is cached and no message is on its way, as when all instances have just been started. -/
def Caches.empty (κ : Type) : Caches κ := ⟨none, fun _ => none, fun _ => 0⟩

namespace Caches

variable {κ : Type}

/-- `GET policy_cache_key`: the list, unless it was never stored or its time to live is over. -/
def get (c : Caches κ) (now : ℚ) : Option (List PolicyRead) :=
  (c.entry.filter fun e => now < e.expiresAt).map CacheEntry.policies

/-- `SETEX policy_cache_key`; Redis rejects a time to live that is not positive. -/
def setex (c : Caches κ) (ttlSeconds : ℤ) (now : ℚ) (policies : List PolicyRead) : Caches κ :=
  if 0 < ttlSeconds then { c with entry := some ⟨policies, now + ttlSeconds⟩ } else c

/-- `DEL policy_cache_key`: the copy in Redis is gone, and those of the instances stay until they
are told. -/
def delete (c : Caches κ) : Caches κ := { c with entry := none }

/-- `PUBLISH policy_refresh_channel`: one more message for every instance that listens, the
publisher included. -/
def publish (c : Caches κ) : Caches κ := { c with mailbox := fun i => c.mailbox i + 1 }

variable [DecidableEq κ]

/-- `PolicySnapshotStore.set`: the instance keeps the list, with the reading of its monotonic clock.
-/
def set (c : Caches κ) (i : κ) (now : ℚ) (policies : List PolicyRead) : Caches κ :=
  { c with snapshot := Function.update c.snapshot i (some ⟨policies, now⟩) }

/-- `PolicySnapshotStore.clear`: the instance drops the list it has kept for itself. -/
def clear (c : Caches κ) (i : κ) : Caches κ :=
  { c with snapshot := Function.update c.snapshot i none }

/-- A message is taken from the mailbox, or lost on the way. -/
def takeMessage (c : Caches κ) (i : κ) : Caches κ :=
  { c with mailbox := Function.update c.mailbox i (c.mailbox i - 1) }

/-- `policy_refresh_listener` receives a message, and the instance drops its snapshot. -/
def receive (c : Caches κ) (i : κ) : Caches κ := (c.takeMessage i).clear i

@[simp] theorem clear_snapshot (c : Caches κ) (i : κ) :
    (c.clear i).snapshot = Function.update c.snapshot i none := rfl

end Caches

/-! ## `list_active_policies_cached` -/

/-- What a list call is about to do. It gives way at every `await`, so other calls act between any
two of its steps. -/
inductive ListCall where
  /-- `GET`. -/
  | get
  /-- `get_fresh`, the `GET` having failed. -/
  | getFresh
  /-- `list_policies`; `missed` tells a miss from a failed `GET`. -/
  | listPolicies (missed : Bool)
  /-- `SETEX`. -/
  | setex (policies : List PolicyRead)
  /-- `snapshot_store.set`. -/
  | set (policies : List PolicyRead)
  /-- It has returned. -/
  | returned (policies : List PolicyRead)
  /-- `list_policies` has raised. -/
  | raised (error : ValidationError)

/-- What the call has come to: the list it has returned, what it has raised, or nothing yet. -/
def ListCall.outcome : ListCall → Option (Except ValidationError (List PolicyRead))
  | .returned policies => some (.ok policies)
  | .raised error => some (.error error)
  | _ => none

section Calls

variable {κ : Type} [DecidableEq κ] (settings : CacheSettings) (i : κ) (now : ℚ)
  (out : CacheOp → RedisOutcome)

/-- From one `await` to the next: the call runs on instance `i`, finds `table` in the database, and
`out` tells how the Redis operation ends that it performs. -/
def ListCall.step (table : Table) (c : Caches κ) : ListCall → Caches κ × ListCall
  | .get =>
    (c, if out .get = .replied then (c.get now).elim (.listPolicies true) .set else .getFresh)
  | .getFresh =>
    (c, (RateLimiter.getFresh settings.localPolicyCacheTtlSeconds now (c.snapshot i)).elim
      (.listPolicies false) .returned)
  | .listPolicies missed => (c, match RateLimiter.listPolicies true table with
      | .ok policies => if missed then .setex policies else .set policies
      | .error error => .raised error)
  | .setex policies =>
    (if (out .setex).executed then c.setex settings.policyCacheTtlSeconds now policies else c,
      .set policies)
  | .set policies => (c.set i now policies, .returned policies)
  | .returned policies => (c, .returned policies)
  | .raised error => (c, .raised error)

/-- All a step of a list call can do, with what it has found. The invariants of the caches are read
off these cases and never off the code. -/
inductive ListCall.Effect (table : Table) (c : Caches κ) :
    ListCall → Caches κ → ListCall → Prop where
  /-- Redis has the list. -/
  | hit {e : CacheEntry} (he : e ∈ c.entry) (halive : now < e.expiresAt) :
      Effect table c .get c (.set e.policies)
  /-- Redis does not have it. -/
  | miss : Effect table c .get c (.listPolicies true)
  /-- Redis does not answer. -/
  | unanswered (hget : out .get ≠ .replied) : Effect table c .get c .getFresh
  /-- The snapshot is fresh. -/
  | fresh {snapshot : LocalPolicySnapshot} (hs : snapshot ∈ c.snapshot i)
      (hage : now - snapshot.loadedAtMonotonic ≤ settings.localPolicyCacheTtlSeconds) :
      Effect table c .getFresh c (.returned snapshot.policies)
  /-- It is not. -/
  | stale : Effect table c .getFresh c (.listPolicies false)
  /-- The database is read. -/
  | reads {missed : Bool} {policies : List PolicyRead}
      (hl : RateLimiter.listPolicies true table = .ok policies) :
      Effect table c (.listPolicies missed) c (if missed then .setex policies else .set policies)
  /-- A row is invalid. -/
  | raises {missed : Bool} {error : ValidationError}
      (hl : RateLimiter.listPolicies true table = .error error) :
      Effect table c (.listPolicies missed) c (.raised error)
  /-- Redis keeps the list. -/
  | stores (policies : List PolicyRead) :
      Effect table c (.setex policies)
        { c with entry := some ⟨policies, now + settings.policyCacheTtlSeconds⟩ } (.set policies)
  /-- Redis does not keep it. -/
  | skips (policies : List PolicyRead) : Effect table c (.setex policies) c (.set policies)
  /-- The instance keeps the list. -/
  | keeps (policies : List PolicyRead) :
      Effect table c (.set policies) (c.set i now policies) (.returned policies)
  /-- The call is done. -/
  | stays {call : ListCall} (hdone : call.outcome.isSome = true) : Effect table c call c call

/-- **Every step of a list call has one of these effects.** -/
theorem ListCall.step_effect (table : Table) (c : Caches κ) (call : ListCall) :
    ListCall.Effect settings i now out table c call
      (ListCall.step settings i now out table c call).1
      (ListCall.step settings i now out table c call).2 := by
  cases call with
  | get =>
    rw [step]
    by_cases hget : out .get = .replied
    · rw [if_pos hget]
      cases hc : c.get now with
      | none => exact .miss
      | some policies =>
        obtain ⟨e, he, rfl⟩ := Option.map_eq_some_iff.1 hc
        obtain ⟨he, halive⟩ := Option.filter_eq_some_iff.1 he
        exact .hit he (of_decide_eq_true halive)
    · rw [if_neg hget]
      exact .unanswered hget
  | getFresh =>
    rw [step]
    cases hs : c.snapshot i with
    | none => exact .stale
    | some snapshot =>
      rw [RateLimiter.getFresh]
      split
      · exact .stale
      · exact .fresh hs (not_lt.1 ‹_›)
  | listPolicies missed =>
    rw [step]
    cases hl : RateLimiter.listPolicies true table with
    | ok policies => exact .reads hl
    | error error => exact .raises hl
  | setex policies =>
    rw [step, Caches.setex]
    split
    · split
      · exact .stores policies
      · exact .skips policies
    · exact .skips policies
  | set policies => exact .keeps policies
  | returned | raised => exact .stays rfl

/-- A step of a call together with the caches, as a function that can be iterated. -/
def ListCall.next (table : Table) (x : Caches κ × ListCall) : Caches κ × ListCall :=
  ListCall.step settings i now out table x.1 x.2

/-- `list_active_policies_cached` in one go: four steps bring every call to its end, as long as
nobody interferes. -/
def listActivePoliciesCached (table : Table) (c : Caches κ) : Caches κ × ListCall :=
  (ListCall.next settings i now out table)^[4] (c, .get)

/-- The steps a call can still take. -/
def ListCall.stepsLeft : ListCall → ℕ
  | .get => 4
  | .getFresh | .listPolicies true => 3
  | .listPolicies false | .setex _ => 2
  | .set _ => 1
  | .returned _ | .raised _ => 0

theorem ListCall.outcome_isSome {call : ListCall} (h : call.stepsLeft = 0) :
    call.outcome.isSome = true := by
  cases call with
  | returned | raised => rfl
  | listPolicies missed => cases missed <;> cases h
  | _ => cases h

theorem ListCall.stepsLeft_step (table : Table) (c : Caches κ) (call : ListCall) :
    (ListCall.step settings i now out table c call).2.stepsLeft ≤ call.stepsLeft - 1 := by
  cases call with
  | get =>
    by_cases hget : out .get = .replied
    · cases hc : c.get now <;> simp [step, hget, hc, stepsLeft]
    · simp [step, hget, stepsLeft]
  | getFresh =>
    cases hf : RateLimiter.getFresh settings.localPolicyCacheTtlSeconds now (c.snapshot i) <;>
      simp [step, hf, stepsLeft]
  | listPolicies missed =>
    cases hl : RateLimiter.listPolicies true table <;> cases missed <;>
      simp [step, hl, stepsLeft]
  | setex | set | returned | raised => exact le_rfl

/-- Whatever Redis does, the call is done after four steps. -/
theorem listActivePoliciesCached_outcome (table : Table) (c : Caches κ) :
    (listActivePoliciesCached settings i now out table c).2.outcome.isSome = true := by
  have hleft : ∀ n,
      ((ListCall.next settings i now out table)^[n] (c, .get)).2.stepsLeft ≤ 4 - n := by
    intro n
    induction n with
    | zero => exact le_rfl
    | succ n ih =>
      rw [Function.iterate_succ_apply']
      have hstep := ListCall.stepsLeft_step settings i now out table
        ((ListCall.next settings i now out table)^[n] (c, .get)).1
        ((ListCall.next settings i now out table)^[n] (c, .get)).2
      rw [ListCall.next]
      omega
  exact ListCall.outcome_isSome (Nat.le_zero.1 (hleft 4))

/-! ## `invalidate_policy_cache` -/

/-- What an invalidation is about to do: clear the snapshot of its own instance, delete the copy in
Redis, tell the other instances. -/
inductive Invalidation where
  /-- `snapshot_store.clear`. -/
  | clear
  /-- `DEL`. -/
  | delete
  /-- `PUBLISH`. -/
  | publish
  /-- It has returned. -/
  | returned
  deriving DecidableEq, Repr

/-- From one `await` to the next. A `DEL` or a `PUBLISH` that fails is logged, and the invalidation
goes on. -/
def Invalidation.step (c : Caches κ) : Invalidation → Caches κ × Invalidation
  | .clear => (c.clear i, .delete)
  | .delete =>
    (if (out .delete).executed then c.delete else c,
      if out .delete = .replied ∧ settings.enablePolicyPubsub = true then .publish else .returned)
  | .publish => (if (out .publish).executed then c.publish else c, .returned)
  | .returned => (c, .returned)

/-- A step of an invalidation together with the caches. -/
def Invalidation.next (x : Caches κ × Invalidation) : Caches κ × Invalidation :=
  Invalidation.step settings i out x.1 x.2

/-- `invalidate_policy_cache` in one go, as a write runs it after its commit when nobody interferes.
-/
def invalidatePolicyCache (c : Caches κ) : Caches κ :=
  ((Invalidation.next settings i out)^[3] (c, .clear)).1

/-! ## What is never added -/

/-- Every copy in `c'` is one in `c`: an invalidation or a message drops lists, and never puts one
somewhere. -/
structure Caches.NothingNew (c' c : Caches κ) : Prop where
  entry : ∀ e ∈ c'.entry, e ∈ c.entry
  snapshot : ∀ i, ∀ snapshot ∈ c'.snapshot i, snapshot ∈ c.snapshot i

omit [DecidableEq κ] in
theorem Caches.NothingNew.refl (c : Caches κ) : c.NothingNew c := ⟨fun _ h => h, fun _ _ h => h⟩

omit [DecidableEq κ] in
theorem Caches.NothingNew.trans {c c' c'' : Caches κ} (h : c''.NothingNew c')
    (h' : c'.NothingNew c) : c''.NothingNew c :=
  ⟨fun e he => h'.entry e (h.entry e he), fun i s hs => h'.snapshot i s (h.snapshot i s hs)⟩

theorem Caches.clear_nothingNew (c : Caches κ) : (c.clear i).NothingNew c := by
  refine ⟨fun _ h => h, fun j snapshot h => ?_⟩
  rcases eq_or_ne j i with rfl | hne
  · rw [clear_snapshot, Function.update_self] at h
    cases h
  · rwa [clear_snapshot, Function.update_of_ne hne] at h

theorem Caches.takeMessage_nothingNew (c : Caches κ) : (c.takeMessage i).NothingNew c :=
  ⟨fun _ h => h, fun _ _ h => h⟩

theorem Caches.receive_nothingNew (c : Caches κ) : (c.receive i).NothingNew c :=
  (Caches.clear_nothingNew i (c.takeMessage i)).trans (c.takeMessage_nothingNew i)

omit [DecidableEq κ] in
theorem Caches.publish_nothingNew (c : Caches κ) : c.publish.NothingNew c :=
  ⟨fun _ h => h, fun _ _ h => h⟩

/-- **An invalidation adds nothing.** -/
theorem Invalidation.step_nothingNew (c : Caches κ) (w : Invalidation) :
    (Invalidation.step settings i out c w).1.NothingNew c := by
  cases w with
  | clear => exact c.clear_nothingNew i
  | delete =>
    rw [step]
    split
    · exact ⟨fun e he => (by cases he), fun _ _ h => h⟩
    · exact .refl c
  | publish =>
    rw [step]
    split
    · exact c.publish_nothingNew
    · exact .refl c
  | returned => exact .refl c

end Calls

end RateLimiter
