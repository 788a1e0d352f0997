import RateLimiter.Cache.Calls
import RateLimiter.Database.Columns
import RateLimiter.Database.Writes

/-!
# Calls of `PolicyService` that run alone

`create_policy`, `update_policy`, `delete_policy` and `upsert_policy_by_name`, from the first
statement to the answer, with nothing else happening in between.  A call that raises returns its
error and the database and caches as it leaves them.  What a transaction does at its commit is
`Statement.execute`; a commit also fails if a primary key is taken or a column cannot hold a value.
Which rows the columns hold is a parameter.
-/

set_option autoImplicit false

namespace RateLimiter

/-! ## Commits -/

/-- The row a statement writes or deletes. -/
def Statement.id : Statement → UUID
  | .insert id _ | .update id _ _ | .delete id => id

/-- An `INSERT` needs an unused primary key. -/
def Statement.keyFree (table : Table) : Statement → Bool
  | .insert id _ => !decide (id ∈ table)
  | .update _ _ _ | .delete _ => true

/-- What the commit of a transaction makes of the table; `none` if the database rejects it. -/
def Statement.commit (fits : Row → Bool) (now : ℤ) (table : Table) (statement : Statement) :
    Option Table :=
  if statement.keyFree table then
    (statement.execute now table).filter fun table' => (table'.lookup statement.id).all fits
  else none

/-! ## Calls -/

/-- What the calls work on: the database and the policy caches of all instances. -/
structure Stores (κ : Type) where
  table : Table
  caches : Caches κ

/-- Where and when a call runs, and how the Redis operations of its invalidation end. -/
structure CallContext (κ : Type) where
  host : κ
  /-- The database's `now()` at the commit. -/
  now : ℤ
  /-- How the Redis operations end. -/
  out : CacheOp → RedisOutcome

/-- What the calls raise: their own error, those of validation, and those of the database at a
commit. -/
inductive PolicyServiceError where
  /-- `PolicyNotFoundError`. -/
  | notFound
  /-- A payload or a row is rejected. -/
  | validation (error : ValidationError)
  /-- The database rejects the commit. -/
  | rejected

/-- What `upsert_policy_by_name` says it has done, as the response to a sync repeats it. -/
inductive SyncAction where
  | created
  | unchanged
  | updated
  deriving DecidableEq, Repr

/-- A call of `PolicyService`, with its arguments as they have been validated. -/
inductive PolicyCall where
  | write (call : WriteCall)
  /-- `list_policies`. -/
  | list (activeOnly : Bool)
  /-- `get_policy`. -/
  | get (id : UUID)

namespace PolicyService

variable {κ α : Type} [DecidableEq κ] (settings : CacheSettings) (fits : Row → Bool)
  (ctx : CallContext κ)

/-- `PolicyRead.model_validate` of the row with an id. -/
def read (s : Stores κ) (id : UUID) : Except PolicyServiceError PolicyRead :=
  match s.table.lookup id with
  | none => .error .notFound
  | some policy => (PolicyRead.modelValidate id policy).mapError .validation

/-- Commit, invalidate the caches and go on with `k`. If the database rejects the statement nothing
has been changed, and no cache is touched. -/
def commitThen (statement : Statement) (k : Stores κ → Except PolicyServiceError α)
    (s : Stores κ) : Except PolicyServiceError α × Stores κ :=
  match statement.commit fits ctx.now s.table with
  | none => (.error .rejected, s)
  | some table =>
    let s := ⟨table, invalidatePolicyCache settings ctx.host ctx.out s.caches⟩
    (k s, s)

/-- `create_policy`; `id` is what `uuid4` draws. The policy that is returned is the row as it was
read again after the commit. -/
def createPolicy (id : UUID) (payload : PolicyBase) (s : Stores κ) :
    Except PolicyServiceError PolicyRead × Stores κ :=
  commitThen settings fits ctx (.insert id payload) (fun s => read s id) s

/-- `update_policy`: what the request leaves out stays as the row has it, and the whole is validated
again before it is written. -/
def updatePolicy (id : UUID) (payload : PolicyUpdate) (s : Stores κ) :
    Except PolicyServiceError PolicyRead × Stores κ :=
  match s.table.lookup id with
  | none => (.error .notFound, s)
  | some policy =>
    if payload.NonEmpty then
      match PolicyBase.validate (payload.merge (toPolicyPayload policy)) with
      | .error error => (.error (.validation error), s)
      | .ok next =>
        commitThen settings fits ctx (.update id policy next) (fun s => read s id) s
    else (read s id, s)

/-- `delete_policy`: the row is gone from the table, and the caches are told. -/
def deletePolicy (id : UUID) (s : Stores κ) : Except PolicyServiceError Unit × Stores κ :=
  match s.table.lookup id with
  | none => (.error .notFound, s)
  | some _ => commitThen settings fits ctx (.delete id) (fun _ => .ok ()) s

/-- `upsert_policy_by_name`; `newId` is what `uuid4` draws if the policy has to be created. -/
def upsertPolicyByName (newId : UUID) (payload : PolicyBase) (s : Stores κ) :
    Except PolicyServiceError (PolicyRead × SyncAction) × Stores κ :=
  match s.table.findByName payload.name with
  | none =>
    let out := createPolicy settings fits ctx newId payload s
    (out.1.map fun p => (p, .created), out.2)
  | some ⟨id, policy⟩ =>
    if toPolicyPayload policy = payload.field then
      ((read s id).map fun p => (p, .unchanged), s)
    else
      commitThen settings fits ctx (.update id policy payload)
        (fun s => (read s id).map fun p => (p, .updated)) s

end PolicyService

/-! ## What commits do -/

theorem Row.flush_self (row : Row) (next : PolicyBase) (now : ℤ) :
    (row.flush row next now).columns = next.field := by
  funext f
  by_cases h : Writes row next f
  · simp [Row.flush, h]
  · have heq : next.field f = row.columns f := not_not.1 h
    simp [Row.flush, h, heq]

theorem Row.name_eq {row : Row} {b : PolicyBase} (h : row.columns = b.field) :
    row.name = b.name := by
  simp only [Row.name, Row.get, PolicyBase.name, h]

section Commit

variable {table : Table} {id : UUID} (fits : Row → Bool) (now : ℤ) (next : PolicyBase)

theorem Table.put_filter (table : Table) (id : UUID) (row : Row) :
    (table.put id row).filter (fun table' => (table'.lookup id).all fits) =
      if table.nameTaken id row = false ∧ fits row = true then some (table.insert id row)
      else none := by
  rw [Table.put]
  cases table.nameTaken id row <;> simp [Option.filter, AList.lookup_insert]

/-- An update of the row it has read. -/
theorem Statement.commit_update {row : Row} (hrow : row ∈ table.lookup id) :
    (Statement.update id row next).commit fits now table =
      if table.nameTaken id (row.flush row next now) = false ∧
          fits (row.flush row next now) = true then
        some (table.insert id (row.flush row next now)) else none := by
  rw [Option.mem_def] at hrow
  rw [Statement.commit, Statement.execute, hrow, Option.bind_some, Statement.id, Table.put_filter]
  rfl

theorem Statement.commit_insert (hid : id ∉ table) :
    (Statement.insert id next).commit fits now table =
      if table.nameTaken id (Row.created next now) = false ∧ fits (Row.created next now) = true then
        some (table.insert id (Row.created next now)) else none := by
  rw [Statement.commit, Statement.execute, Statement.id, Table.put_filter]
  simp [Statement.keyFree, hid]

end Commit

section

variable {κ α : Type} [DecidableEq κ] {settings : CacheSettings} {fits : Row → Bool}
  {ctx : CallContext κ} {s : Stores κ} {statement : Statement}
  {k : Stores κ → Except PolicyServiceError α}

theorem PolicyService.commitThen_of_some {table : Table}
    (h : statement.commit fits ctx.now s.table = some table) :
    commitThen settings fits ctx statement k s =
      (k ⟨table, invalidatePolicyCache settings ctx.host ctx.out s.caches⟩,
        ⟨table, invalidatePolicyCache settings ctx.host ctx.out s.caches⟩) := by
  rw [commitThen, h]

theorem PolicyService.commitThen_of_none
    (h : statement.commit fits ctx.now s.table = none) :
    commitThen settings fits ctx statement k s = (.error .rejected, s) := by
  rw [commitThen, h]

end

/-- A row that holds the values of a payload can be read. -/
theorem PolicyService.read_eq_ok {κ : Type} {s : Stores κ} {id : UUID} {row : Row} {b : PolicyBase}
    (hrow : row ∈ s.table.lookup id) (h : row.columns = b.field) :
    PolicyService.read s id = .ok ⟨b, id, row.version, row.createdAt, row.updatedAt⟩ := by
  rw [Option.mem_def] at hrow
  rw [PolicyService.read, hrow]
  simp only [PolicyRead.modelValidate_eq_ok h.symm]
  rfl

/-- With Redis reachable an invalidation empties both caches of the instance. -/
theorem invalidatePolicyCache_replied {κ : Type} [DecidableEq κ] {settings : CacheSettings} {i : κ}
    {out : CacheOp → RedisOutcome} (hout : ∀ op, out op = .replied) (c : Caches κ) :
    (invalidatePolicyCache settings i out c).entry = none ∧
      (invalidatePolicyCache settings i out c).snapshot i = none := by
  cases hpubsub : settings.enablePolicyPubsub <;>
    simp [invalidatePolicyCache, Invalidation.next, Invalidation.step, hout, hpubsub,
      RedisOutcome.executed, Caches.delete, Caches.publish, Function.update_self]

/-! ## What a write call leaves -/

/-- What a write call makes of the table when it runs alone. -/
def WriteCall.apply (now : ℤ) (call : WriteCall) (table : Table) : Table :=
  ((call.statement table).bind fun statement => statement.commit Row.fits now table).getD table

/-- What it makes of the table and the caches. -/
def WriteCall.applyTo {κ : Type} [DecidableEq κ] (settings : CacheSettings) (ctx : CallContext κ)
    (call : WriteCall) (s : Stores κ) : Stores κ :=
  match (call.statement s.table).bind fun statement =>
    statement.commit Row.fits ctx.now s.table with
  | some table => ⟨table, invalidatePolicyCache settings ctx.host ctx.out s.caches⟩
  | none => s

theorem WriteCall.applyTo_table {κ : Type} [DecidableEq κ] (settings : CacheSettings)
    (ctx : CallContext κ) (call : WriteCall) (s : Stores κ) :
    (call.applyTo settings ctx s).table = call.apply ctx.now s.table := by
  rw [applyTo, apply]
  cases (call.statement s.table).bind fun statement =>
    statement.commit Row.fits ctx.now s.table <;> rfl

namespace PolicyService

variable {κ α : Type} [DecidableEq κ] (settings : CacheSettings) (ctx : CallContext κ)
  (s : Stores κ)

/-- A call that has come to its commit leaves what its statement makes of the stores. -/
theorem commitThen_stores (call : WriteCall) {statement : Statement}
    (h : call.statement s.table = some statement)
    (k : Stores κ → Except PolicyServiceError α) :
    (commitThen settings Row.fits ctx statement k s).2 = call.applyTo settings ctx s := by
  rw [commitThen, WriteCall.applyTo, h, Option.bind_some]
  cases statement.commit Row.fits ctx.now s.table <;> rfl

/-- A call that sends nothing leaves everything. -/
theorem applyTo_of_none {call : WriteCall} (h : call.statement s.table = none) :
    call.applyTo settings ctx s = s := by
  rw [WriteCall.applyTo, h]
  rfl

theorem createPolicy_stores (id : UUID) (payload : PolicyBase) :
    (createPolicy settings Row.fits ctx id payload s).2 =
      (WriteCall.create id payload).applyTo settings ctx s :=
  commitThen_stores settings ctx s (.create id payload) rfl _

theorem updatePolicy_stores (id : UUID) (payload : PolicyUpdate) :
    (updatePolicy settings Row.fits ctx id payload s).2 =
      (WriteCall.update id payload).applyTo settings ctx s := by
  rw [updatePolicy]
  cases hrow : s.table.lookup id with
  | none => exact (applyTo_of_none settings ctx s (by simp [WriteCall.statement, hrow])).symm
  | some policy =>
    have hstatement : (WriteCall.update id payload).statement s.table =
        RateLimiter.updatePolicy id payload policy := by simp [WriteCall.statement, hrow]
    rw [RateLimiter.updatePolicy] at hstatement
    dsimp only
    by_cases hset : payload.NonEmpty
    · rw [if_pos hset] at hstatement ⊢
      cases hnext : PolicyBase.validate (payload.merge (toPolicyPayload policy)) with
      | error error =>
        rw [hnext] at hstatement
        exact (applyTo_of_none settings ctx s hstatement).symm
      | ok next =>
        rw [hnext] at hstatement
        exact commitThen_stores settings ctx s _ hstatement _
    · rw [if_neg hset] at hstatement ⊢
      exact (applyTo_of_none settings ctx s hstatement).symm

theorem deletePolicy_stores (id : UUID) :
    (deletePolicy settings Row.fits ctx id s).2 =
      (WriteCall.delete id).applyTo settings ctx s := by
  rw [deletePolicy]
  cases hrow : s.table.lookup id with
  | none => exact (applyTo_of_none settings ctx s (by simp [WriteCall.statement, hrow])).symm
  | some policy => exact commitThen_stores settings ctx s _ (by simp [WriteCall.statement, hrow]) _

theorem upsertPolicyByName_stores (newId : UUID) (payload : PolicyBase) :
    (upsertPolicyByName settings Row.fits ctx newId payload s).2 =
      (WriteCall.upsert newId payload).applyTo settings ctx s := by
  rw [upsertPolicyByName]
  cases hfind : s.table.findByName payload.name with
  | none =>
    exact commitThen_stores settings ctx s _
      (by simp [WriteCall.statement, hfind, RateLimiter.upsertPolicyByName]) _
  | some found =>
    obtain ⟨id, policy⟩ := found
    dsimp only
    split <;> rename_i heq
    · exact (applyTo_of_none settings ctx s
        (by simp [WriteCall.statement, hfind, RateLimiter.upsertPolicyByName, heq])).symm
    · exact commitThen_stores settings ctx s _
        (by simp [WriteCall.statement, hfind, RateLimiter.upsertPolicyByName, heq]) _

end PolicyService

end RateLimiter
