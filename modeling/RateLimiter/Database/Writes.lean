import RateLimiter.Database.Table
import RateLimiter.Lib.Transition

/-!
# Concurrent writes

A write call reads a row, works on what it read and commits; other calls can do the same in
between.  `PolicyStore` is the table with the calls that have read and not yet committed, and every
interleaving is a run of `PolicyStore.step`.  What a call does between its read and its commit
depends on nothing but what it read, so it is done at once: `update_policy` validates the overlay of
its payload, `upsert_policy_by_name` compares.

`log` remembers the rows as they were committed.
-/

set_option autoImplicit false

namespace RateLimiter

/-- `PolicyUpdate`: for each field nothing, `None` or a value that passes the field's check. -/
structure PolicyUpdate where
  /-- The fields that are set. -/
  set : (f : Field) → Option (Option f.Base)
  /-- A value that is set passes the check of its field. -/
  accepted : ∀ (f : Field) (v : f.Base), set f = some (some v) → f.accepts v = true

/-- An update of one field. -/
def PolicyUpdate.only (f : Field) (v : Option f.Base) (h : v.all f.accepts = true) :
    PolicyUpdate where
  set := Function.update (fun _ => none) f (some v)
  accepted g x hg := by
    rcases eq_or_ne g f with rfl | hne
    · rw [Function.update_self, Option.some_inj] at hg
      rwa [hg] at h
    · rw [Function.update_of_ne hne] at hg
      cases hg

/-- `_to_policy_payload(policy) | update_data`: what the request sets, and what the row has
everywhere else. -/
def PolicyUpdate.merge (update : PolicyUpdate) (payload : Payload) : Payload :=
  fun f => (update.set f).getD (payload f)

/-- `if update_data:`. -/
def PolicyUpdate.NonEmpty (update : PolicyUpdate) : Prop := ∃ f, (update.set f).isSome = true

instance (update : PolicyUpdate) : Decidable update.NonEmpty :=
  inferInstanceAs (Decidable (∃ f, (update.set f).isSome = true))

/-- The table and the write calls under way. A call reads when it begins and writes when it commits,
and others may commit in between. -/
structure PolicyStore where
  table : Table
  /-- What each call will send at its commit. -/
  pending : ℕ → Option Statement
  /-- The rows that were committed, oldest first. -/
  log : List (UUID × Row)

/-- A table before any call; its rows count as committed. -/
def PolicyStore.initial (table : Table) : PolicyStore where
  table := table
  pending := fun _ => none
  log := table.entries.map fun e => (e.1, e.2)

/-- A write call, with its arguments and what `uuid4` draws for it. -/
inductive WriteCall where
  /-- `create_policy`. -/
  | create (id : UUID) (payload : PolicyBase)
  /-- `update_policy`. -/
  | update (id : UUID) (payload : PolicyUpdate)
  /-- `upsert_policy_by_name`; `newId` is for a policy it has to create. -/
  | upsert (newId : UUID) (payload : PolicyBase)
  /-- `delete_policy`. -/
  | delete (id : UUID)

/-- What can happen next: a call begins and reads, commits, or is rolled back. The number is the
call's. -/
inductive WriteEvent where
  /-- The call begins, and reads the row. -/
  | begin (n : ℕ) (call : WriteCall)
  /-- The call commits. -/
  | commit (n : ℕ) (now : ℤ)
  /-- The call fails and rolls back. -/
  | abort (n : ℕ)

/-- The row with a name. There is one at most, as long as names are unique. -/
def Table.findByName (table : Table) (name : String) : Option (Sigma fun _ : UUID => Row) :=
  table.entries.find? fun e => e.2.name == name

/-- What `update_policy` sends, having read `policy`.  Nothing if it raises or has nothing to do. -/
def updatePolicy (id : UUID) (payload : PolicyUpdate) (policy : Row) : Option Statement :=
  if payload.NonEmpty then
    match PolicyBase.validate (payload.merge (toPolicyPayload policy)) with
    | .ok next => some (.update id policy next)
    | .error _ => none
  else none

/-- What `upsert_policy_by_name` sends, having looked the name up: a new row, a changed one, or
nothing if the row has the payload already. -/
def upsertPolicyByName (newId : UUID) (payload : PolicyBase) :
    Option (Sigma fun _ : UUID => Row) → Option Statement
  | none => some (.insert newId payload)
  | some ⟨id, policy⟩ =>
    if toPolicyPayload policy = payload.field then none else some (.update id policy payload)

/-- What a call sends at its commit, having read the table; `none` if it raises before that or has
nothing to write. -/
def WriteCall.statement (table : Table) : WriteCall → Option Statement
  | .create id payload => some (.insert id payload)
  | .update id payload => (table.lookup id).bind (updatePolicy id payload)
  | .upsert newId payload => upsertPolicyByName newId payload (table.findByName payload.name)
  | .delete id => (table.lookup id).map fun _ => .delete id

/-- What committing a statement adds to the log. -/
def Statement.logged (table : Table) : Statement → List (UUID × Row)
  | .insert id _ | .update id _ _ => ((table.lookup id).map fun row => (id, row)).toList
  | .delete _ => []

namespace PolicyStore

/-- The id is none that has ever been in use, not even by a row that was deleted since. -/
def Fresh (s : PolicyStore) (id : UUID) : Prop := ∀ p ∈ s.log, p.1 ≠ id

instance (s : PolicyStore) (id : UUID) : Decidable (s.Fresh id) :=
  inferInstanceAs (Decidable (∀ p ∈ s.log, p.1 ≠ id))

/-- What is asked of the environment at a commit: `uuid4` does not repeat an id. -/
def CanCommit (s : PolicyStore) : Statement → Prop
  | .insert id _ => s.Fresh id
  | .update _ _ _ | .delete _ => True

instance (s : PolicyStore) : (statement : Statement) → Decidable (s.CanCommit statement)
  | .insert id _ => inferInstanceAs (Decidable (s.Fresh id))
  | .update _ _ _ | .delete _ => .isTrue trivial

/-- One event, or nothing if it cannot happen. The database checks its constraints at the commit,
against the table as it is then. -/
def step (s : PolicyStore) : WriteEvent → Option PolicyStore
  | .begin n call =>
    if s.pending n = none then
      some { s with pending := Function.update s.pending n (call.statement s.table) }
    else none
  | .commit n now => (s.pending n).bind fun statement =>
    if s.CanCommit statement then
      (statement.execute now s.table).map fun table =>
        { table := table
          pending := Function.update s.pending n none
          log := s.log ++ statement.logged table }
    else none
  | .abort n => some { s with pending := Function.update s.pending n none }

/-! ## What an event can do -/

/-- All an event can do to the store. A commit inserts, overwrites or deletes one row; everything
else leaves the table alone. -/
inductive Effect (s : PolicyStore) : WriteEvent → PolicyStore → Prop where
  /-- A call reads or gives up.  What it will overwrite is what it has read. -/
  | reads {e : WriteEvent} (hne : ∀ m now, e ≠ .commit m now) (n : ℕ) (statement : Option Statement)
      (hread : ∀ id loaded next, statement = some (.update id loaded next) →
        loaded ∈ s.table.lookup id) :
      Effect s e { s with pending := Function.update s.pending n statement }
  /-- A new row is committed. -/
  | inserts {n : ℕ} {now : ℤ} {id : UUID} {payload : PolicyBase}
      (hp : s.pending n = some (.insert id payload)) (hfresh : s.Fresh id) :
      Effect s (.commit n now)
        { table := s.table.insert id (Row.created payload now)
          pending := Function.update s.pending n none
          log := s.log ++ [(id, Row.created payload now)] }
  /-- A row is overwritten. -/
  | updates {n : ℕ} {now : ℤ} {id : UUID} {loaded current : Row} {next : PolicyBase}
      (hp : s.pending n = some (.update id loaded next)) (hcur : current ∈ s.table.lookup id) :
      Effect s (.commit n now)
        { table := s.table.insert id (current.flush loaded next now)
          pending := Function.update s.pending n none
          log := s.log ++ [(id, current.flush loaded next now)] }
  /-- A row is gone. -/
  | deletes {n : ℕ} {now : ℤ} {id : UUID} (hp : s.pending n = some (.delete id)) :
      Effect s (.commit n now)
        { table := s.table.erase id
          pending := Function.update s.pending n none
          log := s.log }

variable {s s' : PolicyStore} {e : WriteEvent}

theorem eq_insert_of_put {table table' : Table} {id : UUID} {row : Row}
    (h : table.put id row = some table') : table' = table.insert id row := by
  rw [Table.put] at h
  split at h
  · cases h
  · exact (Option.some_inj.1 h).symm

theorem of_updatePolicy {id id' : UUID} {payload : PolicyUpdate} {policy loaded : Row}
    {next : PolicyBase} (h : updatePolicy id payload policy = some (.update id' loaded next)) :
    id' = id ∧ loaded = policy := by
  rw [updatePolicy] at h
  split at h
  · split at h
    · cases h
      exact ⟨rfl, rfl⟩
    · cases h
  · cases h

theorem of_upsertPolicyByName {table : Table} {id newId : UUID} {payload next : PolicyBase}
    {name : String} {loaded : Row}
    (h : upsertPolicyByName newId payload (table.findByName name) =
      some (.update id loaded next)) : loaded ∈ table.lookup id := by
  cases hf : table.findByName name with
  | none =>
    rw [hf] at h
    cases h
  | some found =>
    rw [hf, upsertPolicyByName] at h
    split at h
    · cases h
    · cases h
      exact AList.mem_lookup_iff.2 (List.mem_of_find?_eq_some hf)

/-- A call overwrites what it has read. -/
theorem mem_lookup_of_statement {table : Table} {call : WriteCall} {id : UUID} {loaded : Row}
    {next : PolicyBase} (h : call.statement table = some (.update id loaded next)) :
    loaded ∈ table.lookup id := by
  cases call with
  | create id' payload => cases h
  | update id' payload =>
    obtain ⟨policy, hrow, h⟩ := Option.bind_eq_some_iff.1 h
    obtain ⟨rfl, rfl⟩ := of_updatePolicy h
    exact hrow
  | upsert newId payload => exact of_upsertPolicyByName h
  | delete id' =>
    obtain ⟨_, -, h⟩ := Option.map_eq_some_iff.1 h
    cases h

/-- **Every event has one of these effects.** A commit inserts, overwrites or deletes one row;
whatever else happens leaves the table as it is. -/
theorem step_effect (h : s.step e = some s') : s.Effect e s' := by
  cases e with
  | begin n call =>
    rw [step] at h
    split at h
    · rw [← Option.some_inj.1 h]
      exact .reads (by simp) n _ fun _ _ _ hs => mem_lookup_of_statement hs
    · cases h
  | commit n now =>
    obtain ⟨statement, hp, h⟩ := Option.bind_eq_some_iff.1 h
    split at h
    case isFalse => cases h
    rename_i hcan
    obtain ⟨table, hexec, rfl⟩ := Option.map_eq_some_iff.1 h
    cases statement with
    | insert id payload =>
      rw [eq_insert_of_put hexec, Statement.logged, AList.lookup_insert]
      exact .inserts hp hcan
    | update id loaded next =>
      obtain ⟨current, hcur, hput⟩ := Option.bind_eq_some_iff.1 hexec
      rw [eq_insert_of_put hput, Statement.logged, AList.lookup_insert]
      exact .updates hp hcur
    | delete id =>
      rw [← Option.some_inj.1 hexec, Statement.logged, List.append_nil]
      exact .deletes hp
  | abort n =>
    rw [← Option.some_inj.1 h]
    exact .reads (by simp) n none fun _ _ _ hs => by cases hs

/-- A condition on the commits that overwrite a row: `R current loaded next` of the row the commit
finds, the row its call has read and the values that call has made of it. -/
def OnUpdate (R : Row → Row → PolicyBase → Prop) (s : PolicyStore) (e : WriteEvent) : Prop :=
  ∀ n now id loaded next, e = .commit n now → s.pending n = some (.update id loaded next) →
    ∀ current ∈ s.table.lookup id, R current loaded next

theorem onUpdate_of_ne {R : Row → Row → PolicyBase → Prop}
    (h : ∀ m now, e ≠ .commit m now) : s.OnUpdate R e :=
  fun _ _ _ _ _ he => absurd he (h _ _)

theorem onUpdate_commit {R : Row → Row → PolicyBase → Prop} {n : ℕ} {now : ℤ} {id : UUID}
    {loaded current : Row} {next : PolicyBase}
    (hp : s.pending n = some (.update id loaded next)) (hcur : current ∈ s.table.lookup id) :
    s.OnUpdate R (.commit n now) ↔ R current loaded next := by
  constructor
  · exact fun h => h n now id loaded next rfl hp current hcur
  · rintro h _ _ _ _ _ ⟨⟩ hp' current' hcur'
    rw [hp] at hp'
    cases hp'
    rwa [Option.mem_unique hcur' hcur]

/-- A commit that overwrites nothing meets every such condition. -/
theorem onUpdate_of_pending {R : Row → Row → PolicyBase → Prop} {n : ℕ} {now : ℤ}
    (h : ∀ id loaded next, s.pending n ≠ some (.update id loaded next)) :
    s.OnUpdate R (.commit n now) := by
  rintro _ _ _ _ _ ⟨⟩ hp
  exact absurd hp (h _ _ _)

instance decidableOnUpdate (R : Row → Row → PolicyBase → Prop)
    [∀ current loaded next, Decidable (R current loaded next)] (s : PolicyStore) :
    (e : WriteEvent) → Decidable (s.OnUpdate R e)
  | .begin _ _ | .abort _ => .isTrue (onUpdate_of_ne (by simp))
  | .commit n _ => match hp : s.pending n with
    | none => .isTrue (onUpdate_of_pending (by simp [hp]))
    | some (.insert _ _) | some (.delete _) => .isTrue (onUpdate_of_pending (by simp [hp]))
    | some (.update id loaded next) => match hcur : s.table.lookup id with
      | none => .isTrue <| by
        rintro _ _ _ _ _ ⟨⟩ hp' current hcur'
        rw [hp] at hp'
        cases hp'
        simp [hcur] at hcur'
      | some current => decidable_of_iff (R current loaded next) (onUpdate_commit hp hcur).symm

end PolicyStore

end RateLimiter
