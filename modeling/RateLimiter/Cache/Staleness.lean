import RateLimiter.Cache.Calls
import RateLimiter.Database.Writes
import RateLimiter.Lib.Transition
import Mathlib.Tactic.Linarith

/-!
# How old a policy list can be

When calls do not interleave, every copy of the policy list was read from the database at a moment
of the run, and the age of a copy is bounded by where it is kept: by `policy_cache_ttl_seconds` in
Redis, and by as much again as `local_policy_cache_ttl_seconds` in a snapshot that is filled from
Redis.  It does not matter which Redis operations fail, for nothing that fails ever adds a copy.

`HeldWithin` is the one notion of age; `past` remembers what the database held when.
-/

set_option autoImplicit false

namespace RateLimiter

/-- What the database held at the moments of a run, with the readings of the clock: the history that
the age of a copy is measured against. -/
abbrev Past := List (ℚ × Table)

/-- The database had these active policies at some time between `now - age` and `now`. -/
def HeldWithin (past : Past) (age now : ℚ) (policies : List PolicyRead) : Prop :=
  ∃ τ table, (τ, table) ∈ past ∧ listPolicies true table = .ok policies ∧ now - age ≤ τ ∧ τ ≤ now

section HeldWithin

variable {past : Past} {age now t : ℚ} {policies : List PolicyRead}

theorem HeldWithin.append (h : HeldWithin past age now policies) (later : Past) :
    HeldWithin (past ++ later) age now policies := by
  obtain ⟨τ, table, hmem, hlist, hlo, hhi⟩ := h
  exact ⟨τ, table, List.mem_append_left _ hmem, hlist, hlo, hhi⟩

/-- A list that was of age `age` at `t` is older by `d` at `t + d`, and never from the future. -/
theorem HeldWithin.at (h : HeldWithin past age t policies) (hpast : ∀ p ∈ past, p.1 ≤ now) {d : ℚ}
    (hnow : now ≤ t + d) : HeldWithin past (age + d) now policies := by
  obtain ⟨τ, table, hmem, hlist, hlo, -⟩ := h
  exact ⟨τ, table, hmem, hlist, by linarith, hpast _ hmem⟩

theorem HeldWithin.mono (h : HeldWithin past age now policies) {age' : ℚ} (hage : age ≤ age') :
    HeldWithin past age' now policies := by
  obtain ⟨τ, table, hmem, hlist, hlo, hhi⟩ := h
  exact ⟨τ, table, hmem, hlist, by linarith, hhi⟩

theorem HeldWithin.of_mem {table : Table} (hmem : (now, table) ∈ past)
    (hlist : listPolicies true table = .ok policies) : HeldWithin past 0 now policies :=
  ⟨now, table, hmem, hlist, by linarith, le_rfl⟩

end HeldWithin

/-! ## Copies and calls -/

section Recent

variable {κ : Type} (settings : CacheSettings) (past : Past)

/-- The copies are no older than the place where they are kept allows: the one in Redis its time to
live, a snapshot that and its own. -/
structure Caches.Recent (c : Caches κ) : Prop where
  /-- In Redis, until it expires. -/
  entry : ∀ e ∈ c.entry, HeldWithin past settings.policyCacheTtlSeconds e.expiresAt e.policies
  /-- In a snapshot, when it is filled. -/
  snapshot : ∀ i, ∀ snapshot ∈ c.snapshot i,
    HeldWithin past settings.policyCacheTtlSeconds snapshot.loadedAtMonotonic snapshot.policies

/-- The list a call has in its hands is as old as where it came from allows. -/
def ListCall.Recent (now : ℚ) : ListCall → Prop
  | .setex policies => HeldWithin past 0 now policies
  | .set policies => HeldWithin past settings.policyCacheTtlSeconds now policies
  | .returned policies => HeldWithin past
      (settings.policyCacheTtlSeconds + settings.localPolicyCacheTtlSeconds) now policies
  | .get | .getFresh | .listPolicies _ | .raised _ => True

variable {settings past} {c c' : Caches κ}

theorem Caches.Recent.append (h : c.Recent settings past) (later : Past) :
    c.Recent settings (past ++ later) :=
  ⟨fun e he => (h.entry e he).append later, fun i s hs => (h.snapshot i s hs).append later⟩

theorem Caches.Recent.of_nothingNew (h : c.Recent settings past) (hc : c'.NothingNew c) :
    c'.Recent settings past :=
  ⟨fun e he => h.entry e (hc.entry e he), fun i s hs => h.snapshot i s (hc.snapshot i s hs)⟩

theorem ListCall.Recent.of_outcome {now : ℚ} {call : ListCall} {policies : List PolicyRead}
    (h : call.Recent settings past now) (hx : call.outcome = some (.ok policies)) :
    HeldWithin past (settings.policyCacheTtlSeconds + settings.localPolicyCacheTtlSeconds) now
      policies := by
  cases call with
  | returned policies' =>
    cases hx
    exact h
  | _ => cases hx

variable [DecidableEq κ] {i : κ} {now : ℚ} {out : CacheOp → RedisOutcome} {table : Table}

/-- **A step of a list call keeps the ages.** -/
theorem ListCall.Recent.step (hR : 0 ≤ settings.policyCacheTtlSeconds)
    (hL : 0 ≤ settings.localPolicyCacheTtlSeconds) (hpast : ∀ p ∈ past, p.1 ≤ now)
    (hnow : (now, table) ∈ past) {call call' : ListCall} (hc : c.Recent settings past)
    (hcall : call.Recent settings past now)
    (heff : ListCall.Effect settings i now out table c call c' call') :
    c'.Recent settings past ∧ call'.Recent settings past now := by
  have hR' : (0 : ℚ) ≤ settings.policyCacheTtlSeconds := by exact_mod_cast hR
  have hL' : (0 : ℚ) ≤ settings.localPolicyCacheTtlSeconds := by exact_mod_cast hL
  cases heff with
  | hit he halive =>
    have hheld := (hc.entry _ he).at hpast (d := 0) (by linarith)
    exact ⟨hc, hheld.mono (by linarith)⟩
  | miss | unanswered | stale | raises => exact ⟨hc, trivial⟩
  | fresh hs hage =>
    exact ⟨hc, (hc.snapshot i _ hs).at hpast (by linarith)⟩
  | @reads missed policies hl =>
    have hheld := HeldWithin.of_mem hnow hl
    cases missed with
    | true => exact ⟨hc, hheld⟩
    | false => exact ⟨hc, hheld.mono hR'⟩
  | stores policies =>
    obtain ⟨τ, table, hmem, hlist, hlo, hhi⟩ := hcall
    refine ⟨⟨fun e he => ?_, hc.snapshot⟩, ⟨τ, table, hmem, hlist, by linarith, hhi⟩⟩
    rw [Option.mem_def, Option.some_inj] at he
    subst he
    exact ⟨τ, table, hmem, hlist, by linarith, by linarith⟩
  | skips policies => exact ⟨hc, HeldWithin.mono hcall hR'⟩
  | keeps policies =>
    refine ⟨⟨hc.entry, fun j snapshot hs => ?_⟩, HeldWithin.mono hcall (by linarith)⟩
    rcases Transition.mem_update_some hs with ⟨-, rfl⟩ | hs
    · exact hcall
    · exact hc.snapshot j snapshot hs
  | stays => exact ⟨hc, hcall⟩

/-- **A list call in one go keeps the ages.** What it stores it has either just read from the
database or found in Redis, where it is no older than the time to live. -/
theorem Caches.Recent.list (i : κ) (out : CacheOp → RedisOutcome)
    (hR : 0 ≤ settings.policyCacheTtlSeconds)
    (hL : 0 ≤ settings.localPolicyCacheTtlSeconds) (hpast : ∀ p ∈ past, p.1 ≤ now)
    (hnow : (now, table) ∈ past) (hc : c.Recent settings past) :
    (listActivePoliciesCached settings i now out table c).1.Recent settings past ∧
      (listActivePoliciesCached settings i now out table c).2.Recent settings past now :=
  Function.Iterate.rec
    (fun x : Caches κ × ListCall => x.1.Recent settings past ∧ x.2.Recent settings past now)
    (a := (c, ListCall.get)) ⟨hc, trivial⟩
    (fun x hx => ListCall.Recent.step hR hL hpast hnow hx.1 hx.2
      (ListCall.step_effect settings i now out table x.1 x.2)) 4

/-- An invalidation in one go adds nothing. -/
theorem invalidatePolicyCache_nothingNew :
    (invalidatePolicyCache settings i out c).NothingNew c :=
  Function.Iterate.rec (fun x : Caches κ × Invalidation => x.1.NothingNew c) (.refl c)
    (fun x hx => (Invalidation.step_nothingNew settings i out x.1 x.2).trans hx) 3

end Recent

/-! ## Runs -/

/-- The database and the caches at one moment, and what has happened. -/
structure TimedFleet (κ : Type) where
  /-- What the clock reads. -/
  clock : ℚ
  store : PolicyStore
  caches : Caches κ
  /-- What the database held after each event. -/
  past : Past
  /-- The lists that were returned, and when. -/
  returned : List (ℚ × List PolicyRead)

/-- What is done in one step. List calls and invalidations run in one go here, since their age is
counted from when they begin. -/
inductive FleetAction (κ : Type) where
  /-- A write call; the database stamps it with `stamp`. -/
  | write (host : κ) (call : WriteCall) (stamp : ℤ) (out : CacheOp → RedisOutcome)
  /-- A list call. -/
  | list (host : κ) (out : CacheOp → RedisOutcome)
  /-- A listener receives a message. -/
  | receive (host : κ)
  /-- A message is lost. -/
  | lose (host : κ)

/-- A write call reads and commits; `none` if it raises or has nothing to write. -/
def PolicyStore.write (store : PolicyStore) (call : WriteCall) (stamp : ℤ) : Option PolicyStore :=
  (store.step (.begin 0 call)).bind fun store => store.step (.commit 0 stamp)

namespace TimedFleet

variable {κ : Type}

/-- A table and empty caches. -/
def initial (κ : Type) (table : Table) (clock : ℚ) : TimedFleet κ where
  clock := clock
  store := .initial table
  caches := .empty κ
  past := []
  returned := []

/-- An event has happened at `now`, and perhaps a list call has come to `x`. -/
def record (s : TimedFleet κ) (now : ℚ) (store : PolicyStore) (caches : Caches κ)
    (x : Option (Except ValidationError (List PolicyRead))) : TimedFleet κ where
  clock := now
  store := store
  caches := caches
  past := s.past ++ [(now, store.table)]
  returned := s.returned ++ match x with
    | some (.ok policies) => [(now, policies)]
    | _ => []

variable (settings : CacheSettings)

/-- What an action does at `now`. -/
def act [DecidableEq κ] (s : TimedFleet κ) (now : ℚ) : FleetAction κ → TimedFleet κ
  | .write host call stamp out => match s.store.write call stamp with
    | some store => s.record now store (invalidatePolicyCache settings host out s.caches) none
    | none => s.record now s.store s.caches none
  | .list host out =>
    let done := listActivePoliciesCached settings host now out s.store.table s.caches
    s.record now s.store done.1 done.2.outcome
  | .receive host => s.record now s.store
      (if 0 < s.caches.mailbox host then s.caches.receive host else s.caches) none
  | .lose host => s.record now s.store
      (if 0 < s.caches.mailbox host then s.caches.takeMessage host else s.caches) none

/-- One event. The clock does not run backwards, which is all that is asked of it. -/
def step [DecidableEq κ] (s : TimedFleet κ) (e : ℚ × FleetAction κ) : Option (TimedFleet κ) :=
  if s.clock ≤ e.1 then some (s.act settings e.1 e.2) else none

/-- The invariant: the clock is at the end of the past, and every copy lists a table the database
held recently enough. -/
structure Recent (s : TimedFleet κ) : Prop where
  /-- The past is past. -/
  past : ∀ p ∈ s.past, p.1 ≤ s.clock
  caches : s.caches.Recent settings s.past
  /-- The lists that were returned. -/
  returned : ∀ p ∈ s.returned, HeldWithin s.past
    (settings.policyCacheTtlSeconds + settings.localPolicyCacheTtlSeconds) p.1 p.2

variable {settings} {s s' : TimedFleet κ} {now : ℚ} {store : PolicyStore} {caches : Caches κ}

theorem Recent.record (h : s.Recent settings) (hnow : s.clock ≤ now)
    (hcaches : caches.Recent settings (s.past ++ [(now, store.table)]))
    {x : Option (Except ValidationError (List PolicyRead))}
    (hx : ∀ policies, x = some (.ok policies) → HeldWithin (s.past ++ [(now, store.table)])
      (settings.policyCacheTtlSeconds + settings.localPolicyCacheTtlSeconds) now policies) :
    (s.record now store caches x).Recent settings := by
  refine ⟨fun p hp => ?_, hcaches, fun p hp => ?_⟩
  · rcases List.mem_append.1 hp with hp | hp
    · exact (h.past p hp).trans hnow
    · rw [List.mem_singleton.1 hp]
      exact le_rfl
  · rcases List.mem_append.1 hp with hp | hp
    · exact (h.returned p hp).append _
    · split at hp
      · rw [List.mem_singleton.1 hp]
        exact hx _ rfl
      · cases hp

theorem Recent.record_of_nothingNew (h : s.Recent settings) (hnow : s.clock ≤ now)
    (hcaches : caches.NothingNew s.caches) : (s.record now store caches none).Recent settings :=
  h.record hnow ((h.caches.append _).of_nothingNew hcaches) fun _ hx => by cases hx

theorem recent_initial (table : Table) (clock : ℚ) :
    (initial κ table clock).Recent settings where
  past _ hp := by cases hp
  caches := ⟨fun _ he => (by cases he), fun _ _ hs => (by cases hs)⟩
  returned _ hp := by cases hp

variable [DecidableEq κ]

/-- **Every event keeps the ages**, whatever fails and whichever messages are lost, since nothing
but the clock makes a copy older. -/
theorem Recent.step (hR : 0 ≤ settings.policyCacheTtlSeconds)
    (hL : 0 ≤ settings.localPolicyCacheTtlSeconds) {e : ℚ × FleetAction κ}
    (h : s.Recent settings) (hs : s.step settings e = some s') : s'.Recent settings := by
  obtain ⟨now, action⟩ := e
  rw [TimedFleet.step] at hs
  split at hs
  case isFalse => cases hs
  rename_i hnow
  cases hs
  cases action with
  | write host call stamp out =>
    rw [act]
    split
    · exact h.record_of_nothingNew hnow invalidatePolicyCache_nothingNew
    · exact h.record_of_nothingNew hnow (.refl _)
  | list host out =>
    have hpast : ∀ p ∈ s.past ++ [(now, s.store.table)], p.1 ≤ now := fun p hp => by
      rcases List.mem_append.1 hp with hp | hp
      · exact (h.past p hp).trans hnow
      · rw [List.mem_singleton.1 hp]
    have hlist := Caches.Recent.list host out hR hL hpast
      (List.mem_append_right _ List.mem_cons_self) (h.caches.append [(now, s.store.table)])
    refine h.record hnow hlist.1 fun policies hx => ?_
    exact hlist.2.of_outcome hx
  | receive host =>
    rw [act]
    split
    · exact h.record_of_nothingNew hnow (s.caches.receive_nothingNew host)
    · exact h.record_of_nothingNew hnow (.refl _)
  | lose host =>
    rw [act]
    split
    · exact h.record_of_nothingNew hnow (s.caches.takeMessage_nothingNew host)
    · exact h.record_of_nothingNew hnow (.refl _)

/-- **Bounded staleness.**  Every list that is returned was the database's list of active policies
at most `policy_cache_ttl_seconds + local_policy_cache_ttl_seconds` earlier, whatever Redis does and
however many messages are lost. -/
theorem staleness_bounded (settings : CacheSettings) (hR : 0 < settings.policyCacheTtlSeconds)
    (hL : 0 < settings.localPolicyCacheTtlSeconds) {table : Table} {clock : ℚ}
    {es : List (ℚ × FleetAction κ)}
    (hr : Transition.run (step settings) (initial κ table clock) es = some s) :
    ∀ p ∈ s.returned, ∃ τ table, (τ, table) ∈ s.past ∧ listPolicies true table = .ok p.2 ∧
      p.1 - (settings.policyCacheTtlSeconds + settings.localPolicyCacheTtlSeconds) ≤ τ ∧
        τ ≤ p.1 := by
  have h : s.Recent settings := Transition.run_invariant
    (fun h hs => h.step hR.le hL.le hs) (recent_initial table clock) hr
  exact fun p hp => h.returned p hp

/-- A list call on one instance fills Redis and its snapshot.  The `DEL` of a write on the other
instance fails; 29 seconds after the first call the second instance still finds the old list in
Redis, and it keeps it for 15 seconds more while Redis is down. -/
theorem staleness_bounded_sample :
    ∃ s : TimedFleet Bool, Transition.run (step ⟨30, 15, true⟩) (initial Bool .sample 0)
        [(0, .list false fun _ => .replied),
          (1, .write true (.update .sample (.only .rate (some 3) (by decide))) 1 fun _ => .failed),
          (29, .list true fun _ => .replied), (44, .list true fun _ => .failed)] = some s ∧
      ∀ p ∈ s.returned, ∃ τ table, (τ, table) ∈ s.past ∧ listPolicies true table = .ok p.2 ∧
        p.1 - (30 + 15) ≤ τ ∧ τ ≤ p.1 :=
  Transition.exists_run_of_isSome (by decide +kernel) fun s hs => by
    exact_mod_cast staleness_bounded ⟨30, 15, true⟩ (by decide) (by decide) hs

end TimedFleet

end RateLimiter
