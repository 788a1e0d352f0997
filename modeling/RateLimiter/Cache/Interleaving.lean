import RateLimiter.Cache.Calls
import RateLimiter.Database.Writes

/-!
# Interleaved policy writes and list calls

`PolicyFleet` is one database, one Redis and any number of instances, with the write calls and the
list calls under way.  A write call reads, commits and then invalidates, step by step; a list call
goes step by step too; and an event is one step of one call.

After a write the next list call should see it.  What can go wrong is a list call that has read the
database before the write's commit and stores what it has read after the write's `DEL`
(`PolicyFleet.NoLateSetex` rules it out).  To tell before from after, the tables the database has
held are numbered in the order of their commits.
-/

set_option autoImplicit false

namespace RateLimiter

/-- A list call under way: the instance it runs on, what it does next, and which table it has read,
for the record. -/
structure ListRun (κ : Type) where
  host : κ
  phase : ListCall
  /-- The number of the table it has read, once it has read one. -/
  readAt : ℕ

/-- A write call that has committed and now invalidates: its instance, what it does next, and the
number of the table it has left. -/
structure InvalidationRun (κ : Type) where
  host : κ
  phase : Invalidation
  /-- The number of the table its commit has left. -/
  committedAt : ℕ

/-- The database, the caches and the calls under way on all instances. The history of the tables is
there to state results, and no step looks at it. -/
structure PolicyFleet (κ : Type) where
  /-- The database and the write calls that have not committed. -/
  store : PolicyStore
  caches : Caches κ
  /-- The list calls, by number. -/
  lists : ℕ → Option (ListRun κ)
  /-- The write calls that have committed, by number. -/
  invalidations : ℕ → Option (InvalidationRun κ)
  /-- The tables the database has held. -/
  history : List Table

/-- What can happen next: a step of a write call, of a list call or of an invalidation, or a message
that arrives or is lost. Any order of them is a run. -/
inductive CacheEvent (κ : Type) where
  /-- Write call `n` begins, and reads. -/
  | begin (n : ℕ) (call : WriteCall)
  /-- Write call `n` commits. -/
  | commit (n : ℕ) (host : κ) (now : ℤ)
  /-- Write call `n` fails. -/
  | abort (n : ℕ)
  /-- A step of the invalidation of write call `n`. -/
  | invalidate (n : ℕ) (out : CacheOp → RedisOutcome)
  /-- List call `m` begins. -/
  | list (m : ℕ) (host : κ)
  /-- A step of list call `m`. -/
  | proceed (m : ℕ) (now : ℚ) (out : CacheOp → RedisOutcome)
  /-- A listener receives a message. -/
  | receive (host : κ)
  /-- A message is lost. -/
  | lose (host : κ)

/-- The event reads the database for a list call. -/
def ListCall.reads : ListCall → Bool
  | .listPolicies _ => true
  | _ => false

/-- The call is about to execute its `SETEX`. -/
def ListCall.stores : ListCall → Bool
  | .setex _ => true
  | _ => false

/-- The invalidation is past its `DEL`. -/
def Invalidation.deleted : Invalidation → Bool
  | .publish | .returned => true
  | .clear | .delete => false

/-- No Redis operation of this event fails, and the reply to each comes back. -/
def CacheEvent.Succeeds {κ : Type} : CacheEvent κ → Prop
  | .invalidate _ out | .proceed _ _ out => ∀ op, out op = .replied
  | _ => True

instance {κ : Type} : (e : CacheEvent κ) → Decidable e.Succeeds
  | .invalidate _ out | .proceed _ _ out =>
    inferInstanceAs (Decidable (∀ op, out op = .replied))
  | .begin _ _ | .commit _ _ _ | .abort _ | .list _ _ | .receive _ | .lose _ => .isTrue trivial

namespace PolicyFleet

variable {κ : Type}

/-- A table, empty caches and no calls: the service as it is started on a database. -/
def initial (κ : Type) (table : Table) : PolicyFleet κ where
  store := .initial table
  caches := .empty κ
  lists := fun _ => none
  invalidations := fun _ => none
  history := [table]

/-- List call `r` of number `m` makes a step. -/
def proceed [DecidableEq κ] (settings : CacheSettings) (s : PolicyFleet κ) (m : ℕ) (now : ℚ)
    (out : CacheOp → RedisOutcome) (r : ListRun κ) : PolicyFleet κ :=
  let next := r.phase.step settings r.host now out s.store.table s.caches
  { s with
    caches := next.1
    lists := Function.update s.lists m <| some
      { r with
        phase := next.2
        readAt := if r.phase.reads then s.history.length - 1 else r.readAt } }

/-- The invalidation `w` of write call `n` makes a step. -/
def invalidate [DecidableEq κ] (settings : CacheSettings) (s : PolicyFleet κ) (n : ℕ)
    (out : CacheOp → RedisOutcome) (w : InvalidationRun κ) : PolicyFleet κ :=
  let next := w.phase.step settings w.host out s.caches
  { s with
    caches := next.1
    invalidations := Function.update s.invalidations n (some { w with phase := next.2 }) }

/-- One event, or nothing if it cannot happen: a call that is not under way makes no step, and a
number in use is not given again. -/
def step [DecidableEq κ] (settings : CacheSettings) (s : PolicyFleet κ) :
    CacheEvent κ → Option (PolicyFleet κ)
  | .begin n call =>
    (s.store.step (.begin n call)).map fun store => { s with store := store }
  | .commit n host now =>
    if s.invalidations n = none then
      (s.store.step (.commit n now)).map fun store =>
        { s with
          store := store
          invalidations := Function.update s.invalidations n
            (some ⟨host, .clear, s.history.length⟩)
          history := s.history ++ [store.table] }
    else none
  | .abort n => (s.store.step (.abort n)).map fun store => { s with store := store }
  | .invalidate n out => (s.invalidations n).map (s.invalidate settings n out)
  | .list m host =>
    if s.lists m = none then
      some { s with lists := Function.update s.lists m (some ⟨host, .get, 0⟩) }
    else none
  | .proceed m now out => (s.lists m).map (s.proceed settings m now out)
  | .receive host =>
    if 0 < s.caches.mailbox host then some { s with caches := s.caches.receive host } else none
  | .lose host =>
    if 0 < s.caches.mailbox host then some { s with caches := s.caches.takeMessage host } else none

/-- No list call that has read the database before the commit of write call `n` stores what it has
read after the `DEL` of write call `n`. -/
def NoLateSetex (n : ℕ) (s : PolicyFleet κ) : CacheEvent κ → Prop
  | .proceed m _ _ => ∀ r ∈ s.lists m, r.phase.stores = true →
      ∀ w ∈ s.invalidations n, w.phase.deleted = true → w.committedAt ≤ r.readAt
  | _ => True

instance (n : ℕ) (s : PolicyFleet κ) : (e : CacheEvent κ) → Decidable (s.NoLateSetex n e)
  | .proceed m _ _ => inferInstanceAs (Decidable (∀ r ∈ s.lists m, r.phase.stores = true →
      ∀ w ∈ s.invalidations n, w.phase.deleted = true → w.committedAt ≤ r.readAt))
  | .begin _ _ | .commit _ _ _ | .abort _ | .invalidate _ _ | .list _ _ | .receive _ | .lose _ =>
    .isTrue trivial

/-! ## What an event can do -/

/-- All an event can do to the fleet. Each invariant is proved once against these cases. -/
inductive Effect [DecidableEq κ] (settings : CacheSettings) (s : PolicyFleet κ) :
    CacheEvent κ → PolicyFleet κ → Prop where
  /-- A write call reads or gives up; the table stays as it is. -/
  | writes {e : CacheEvent κ} (store : PolicyStore) (htable : store.table = s.store.table) :
      Effect settings s e { s with store := store }
  /-- A write call commits. -/
  | commits (n : ℕ) (host : κ) (now : ℤ) (store : PolicyStore) (hfree : s.invalidations n = none) :
      Effect settings s (.commit n host now)
        { s with
          store := store
          invalidations := Function.update s.invalidations n (some ⟨host, .clear, s.history.length⟩)
          history := s.history ++ [store.table] }
  /-- An invalidation makes a step. -/
  | invalidates (n : ℕ) (out : CacheOp → RedisOutcome) {w : InvalidationRun κ}
      (hw : w ∈ s.invalidations n) :
      Effect settings s (.invalidate n out) (s.invalidate settings n out w)
  /-- A list call begins. -/
  | lists (m : ℕ) (host : κ) (hfree : s.lists m = none) :
      Effect settings s (.list m host)
        { s with lists := Function.update s.lists m (some ⟨host, .get, 0⟩) }
  /-- A list call makes a step. -/
  | proceeds (m : ℕ) (now : ℚ) (out : CacheOp → RedisOutcome) {r : ListRun κ}
      (hr : r ∈ s.lists m) :
      Effect settings s (.proceed m now out) (s.proceed settings m now out r)
  /-- A message arrives or is lost. -/
  | messages {e : CacheEvent κ} (caches : Caches κ) (hcaches : caches.NothingNew s.caches) :
      Effect settings s e { s with caches := caches }

theorem table_of_store_step {store store' : PolicyStore} {e : WriteEvent}
    (hne : ∀ m now, e ≠ .commit m now) (h : store.step e = some store') :
    store'.table = store.table := by
  cases PolicyStore.step_effect h with
  | reads => rfl
  | inserts | updates | deletes => exact absurd rfl (hne _ _)

/-- **Every event has one of these effects.** The proof goes through the calls one by one, so that
no invariant has to. -/
theorem step_effect [DecidableEq κ] {settings : CacheSettings} {s s' : PolicyFleet κ}
    {e : CacheEvent κ} (h : s.step settings e = some s') : s.Effect settings e s' := by
  cases e with
  | begin n call =>
    rw [step] at h
    obtain ⟨store, hstore, rfl⟩ := Option.map_eq_some_iff.1 h
    exact .writes store (table_of_store_step (by simp) hstore)
  | commit n host now =>
    simp only [step, Option.ite_none_right_eq_some] at h
    obtain ⟨store, -, rfl⟩ := Option.map_eq_some_iff.1 h.2
    exact .commits n host now store h.1
  | abort n =>
    rw [step] at h
    obtain ⟨store, hstore, rfl⟩ := Option.map_eq_some_iff.1 h
    exact .writes store (table_of_store_step (by simp) hstore)
  | invalidate n out =>
    obtain ⟨w, hw, rfl⟩ := Option.map_eq_some_iff.1 h
    exact .invalidates n out hw
  | list m host =>
    simp only [step, Option.ite_none_right_eq_some, Option.some.injEq] at h
    obtain ⟨hfree, rfl⟩ := h
    exact .lists m host hfree
  | proceed m now out =>
    obtain ⟨r, hr, rfl⟩ := Option.map_eq_some_iff.1 h
    exact .proceeds m now out hr
  | receive host =>
    simp only [step, Option.ite_none_right_eq_some, Option.some.injEq] at h
    obtain ⟨-, rfl⟩ := h
    exact .messages _ (s.caches.receive_nothingNew host)
  | lose host =>
    simp only [step, Option.ite_none_right_eq_some, Option.some.injEq] at h
    obtain ⟨-, rfl⟩ := h
    exact .messages _ (s.caches.takeMessage_nothingNew host)

end PolicyFleet

end RateLimiter
