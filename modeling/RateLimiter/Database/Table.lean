import RateLimiter.Policy.Schema
import Mathlib.Data.List.AList
import Mathlib.Data.List.Sort
import Mathlib.Data.Prod.Lex
import Mathlib.Data.String.Basic

/-!
# The table `rate_limit_policies`

A row holds the fourteen columns and what the database keeps beside them.  `listPolicies` is the
query every policy list comes from.  A statement is what one transaction sends at its commit.  An
`UPDATE` writes only the columns whose attribute the session has seen change, on top of whatever the
row holds by then: there is no version check.
-/

set_option autoImplicit false

namespace RateLimiter

/-- `RateLimitPolicy`, without its id.  Columns the schema requires are `NOT NULL`. -/
structure Row where
  /-- The fourteen columns of the policy. -/
  columns : Payload
  /-- No `NOT NULL` column is null. -/
  notNull : ∀ f : Field, f.required = true → (columns f).isSome = true
  /-- `version`. -/
  version : ℤ
  /-- `created_at`. -/
  createdAt : ℤ
  /-- `updated_at`. -/
  updatedAt : ℤ

/-- The value of a `NOT NULL` column, which is there because the row says so. -/
def Row.get (row : Row) (f : Field) (hf : f.required = true) : f.Base :=
  (row.columns f).get (row.notNull f hf)

/-- `name`. -/
def Row.name (row : Row) : String := row.get .name rfl

/-- `_to_policy_payload`: the fourteen fields of a row by hand. That none is missing is what change
detection rests on. -/
def toPolicyPayload (policy : Row) : Payload
  | .name => policy.columns .name
  | .description => policy.columns .description
  | .algorithm => policy.columns .algorithm
  | .rate => policy.columns .rate
  | .windowSeconds => policy.columns .windowSeconds
  | .burstCapacity => policy.columns .burstCapacity
  | .active => policy.columns .active
  | .priority => policy.columns .priority
  | .route => policy.columns .route
  | .userId => policy.columns .userId
  | .ipAddress => policy.columns .ipAddress
  | .tenantId => policy.columns .tenantId
  | .apiKey => policy.columns .apiKey
  | .failureMode => policy.columns .failureMode

theorem toPolicyPayload_eq (policy : Row) : toPolicyPayload policy = policy.columns := by
  funext f
  cases f <;> rfl

/-- `PolicyRead.model_validate` of a row. It validates again what was validated before it was
written, and raises if the row has become invalid since. -/
def PolicyRead.modelValidate (id : UUID) (policy : Row) : Except ValidationError PolicyRead :=
  (PolicyBase.validate (toPolicyPayload policy)).map fun b =>
    { b with
      id := id
      version := policy.version
      createdAt := policy.createdAt
      updatedAt := policy.updatedAt }

/-- The rows by primary key. There is one row for an id because it is the key, and one for a name
because of a constraint. -/
abbrev Table := AList fun _ : UUID => Row

/-- A row found after a row was written is that one, or it was there before. -/
theorem Table.of_mem_lookup_insert {table : Table} {id id' : UUID} {row row' : Row}
    (h : row' ∈ (table.insert id row).lookup id') :
    id' = id ∧ row' = row ∨ id' ≠ id ∧ row' ∈ table.lookup id' := by
  rcases eq_or_ne id' id with rfl | hne
  · rw [AList.lookup_insert, Option.mem_def, Option.some_inj] at h
    exact Or.inl ⟨rfl, h.symm⟩
  · rw [AList.lookup_insert_ne hne] at h
    exact Or.inr ⟨hne, h⟩

theorem Table.of_mem_lookup_erase {table : Table} {id id' : UUID} {row : Row}
    (h : row ∈ (table.erase id).lookup id') : row ∈ table.lookup id' := by
  rcases eq_or_ne id' id with rfl | hne
  · rw [AList.lookup_erase] at h
    cases h
  · rwa [AList.lookup_erase_ne hne] at h

/-- The valid rows are those `model_validate` accepts. -/
theorem PolicyRead.modelValidate_isOk_iff {id : UUID} {row : Row} :
    (∃ p, PolicyRead.modelValidate id row = .ok p) ↔ row.columns.Valid := by
  rw [← PolicyBase.validate_isOk_iff, modelValidate, toPolicyPayload_eq]
  cases PolicyBase.validate row.columns <;> simp [Except.map]

theorem PolicyRead.modelValidate_ok {id : UUID} {row : Row} {p : PolicyRead}
    (h : PolicyRead.modelValidate id row = .ok p) :
    p.field = row.columns ∧ p.id = id ∧ p.version = row.version := by
  rw [modelValidate, toPolicyPayload_eq] at h
  cases hv : PolicyBase.validate row.columns with
  | error e =>
    rw [hv] at h
    cases h
  | ok b =>
    rw [hv] at h
    cases h
    exact ⟨PolicyBase.validate_eq_ok.1 hv, rfl, rfl⟩

/-- How a row reads that holds the values of `b`. -/
theorem PolicyRead.modelValidate_eq_ok {id : UUID} {row : Row} {b : PolicyBase}
    (h : b.field = row.columns) : PolicyRead.modelValidate id row =
      .ok ⟨b, id, row.version, row.createdAt, row.updatedAt⟩ := by
  rw [modelValidate, toPolicyPayload_eq, PolicyBase.validate_eq_ok.2 h]
  rfl

/-! ## The query -/

/-- The sort key of `order_by(desc(priority), desc(updated_at), name)`, smaller for what is listed
earlier. -/
def Row.sortKey (row : Row) : ℤ ×ₗ ℤ ×ₗ String :=
  toLex (-row.get .priority rfl, toLex (-row.updatedAt, row.name))

/-- The rows in the order of the query. The sort is stable, but no two rows of a table with unique
names compare equal. -/
def selectPolicies (activeOnly : Bool) (table : Table) : List (Sigma fun _ : UUID => Row) :=
  (table.entries.filter fun e => !activeOnly || e.2.get .active rfl).insertionSort
    fun e e' => e.2.sortKey ≤ e'.2.sortKey

/-- `list_policies`: the rows in the order of the query, each validated. One row that is invalid
makes the whole call raise. -/
def listPolicies (activeOnly : Bool) (table : Table) : Except ValidationError (List PolicyRead) :=
  (selectPolicies activeOnly table).mapM fun e => PolicyRead.modelValidate e.1 e.2

/-- Every row is one the schema accepts, so that every policy list can be read. -/
def Table.Valid (table : Table) : Prop := ∀ id, ∀ row ∈ table.lookup id, row.columns.Valid

theorem mapM_ok_of_forall {α β ε : Type} {g : α → Except ε β} {l : List α}
    (h : ∀ a ∈ l, ∃ b, g a = .ok b) : ∃ bs, l.mapM g = .ok bs := by
  induction l with
  | nil => exact ⟨[], rfl⟩
  | cons a l ih =>
    obtain ⟨b, hb⟩ := h a List.mem_cons_self
    obtain ⟨bs, hbs⟩ := ih fun a' ha' => h a' (List.mem_cons_of_mem _ ha')
    refine ⟨b :: bs, ?_⟩
    rw [List.mapM_cons, hb, hbs]
    rfl

/-- **A valid table can be listed.** -/
theorem Table.Valid.listPolicies {table : Table} (h : table.Valid) (activeOnly : Bool) :
    ∃ ps, RateLimiter.listPolicies activeOnly table = .ok ps := by
  refine mapM_ok_of_forall fun e he => ?_
  rw [selectPolicies, List.mem_insertionSort] at he
  have hmem : e.2 ∈ table.lookup e.1 := AList.mem_lookup_iff.2 (List.mem_filter.1 he).1
  exact PolicyRead.modelValidate_isOk_iff.2 (h e.1 e.2 hmem)

/-! ## Statements -/

/-- What a transaction sends at its commit. An `UPDATE` carries the row as it was loaded, since the
session writes only what has changed. -/
inductive Statement where
  /-- `session.add` of a new policy. -/
  | insert (id : UUID) (payload : PolicyBase)
  /-- The attributes of a policy loaded as `loaded` have become `next`. -/
  | update (id : UUID) (loaded : Row) (next : PolicyBase)
  /-- `session.delete`. -/
  | delete (id : UUID)

/-- The session writes a column if its attribute is no longer what was loaded. -/
def Writes (loaded : Row) (next : PolicyBase) (f : Field) : Prop :=
  next.field f ≠ loaded.columns f

instance (loaded : Row) (next : PolicyBase) (f : Field) : Decidable (Writes loaded next f) :=
  inferInstanceAs (Decidable (_ ≠ _))

/-- The row `UPDATE` leaves where it finds `current`.  `version` always changes; `updated_at` has
`onupdate=func.now()`. -/
def Row.flush (current loaded : Row) (next : PolicyBase) (now : ℤ) : Row where
  columns f := if Writes loaded next f then next.field f else current.columns f
  notNull f hf := by
    split
    · exact Field.isSome_of_check hf (next.fieldOk f)
    · exact current.notNull f hf
  version := loaded.version + 1
  createdAt := current.createdAt
  updatedAt := now

/-- The row `INSERT` creates: the payload under version 1, with the database's `now()` for both
timestamps. -/
def Row.created (payload : PolicyBase) (now : ℤ) : Row where
  columns := payload.field
  notNull f hf := Field.isSome_of_check hf (payload.fieldOk f)
  version := 1
  createdAt := now
  updatedAt := now

/-- One token bucket, for concrete runs. -/
def Table.sample : Table :=
  AList.insert .sample (Row.created (PolicyRead.sample .tokenBucket 1).toPolicyBase 0) ∅

/-- Some other row has the name, so that the unique constraint rejects the write. -/
def Table.nameTaken (table : Table) (id : UUID) (row : Row) : Bool :=
  table.entries.any fun e => e.1 != id && e.2.name == row.name

/-- Write a row, if the unique constraint on `name` allows it. -/
def Table.put (table : Table) (id : UUID) (row : Row) : Option Table :=
  if table.nameTaken id row then none else some (table.insert id row)

/-- No two rows have one name. The constraint keeps it so, and the order of the query relies on it.
-/
def Table.UniqueNames (table : Table) : Prop :=
  ∀ id id' row row', row ∈ table.lookup id → row' ∈ table.lookup id' → row.name = row'.name →
    id = id'

theorem Table.nameTaken_eq_true_iff {table : Table} {id : UUID} {row : Row} :
    table.nameTaken id row = true ↔
      ∃ id' ≠ id, ∃ row' ∈ table.lookup id', row'.name = row.name := by
  simp only [nameTaken, List.any_eq_true, Bool.and_eq_true, bne_iff_ne, beq_iff_eq, Sigma.exists,
    ← AList.mem_lookup_iff]
  exact ⟨fun ⟨id', row', h, hne, hname⟩ => ⟨id', hne, row', h, hname⟩,
    fun ⟨id', hne, row', h, hname⟩ => ⟨id', row', h, hne, hname⟩⟩

/-- What the constraint lets through keeps the names unique. -/
theorem Table.UniqueNames.insert {table : Table} {id : UUID} {row : Row} (h : table.UniqueNames)
    (hfree : table.nameTaken id row = false) : Table.UniqueNames (table.insert id row) := by
  have hother : ∀ id', id' ≠ id → ∀ row' ∈ table.lookup id', row'.name ≠ row.name :=
    fun id' hne row' hrow' hname => Bool.eq_false_iff.1 hfree
      (Table.nameTaken_eq_true_iff.2 ⟨id', hne, row', hrow', hname⟩)
  intro id₁ id₂ row₁ row₂ h₁ h₂ hname
  rcases Table.of_mem_lookup_insert h₁ with ⟨rfl, rfl⟩ | ⟨hne₁, hrow₁⟩ <;>
    rcases Table.of_mem_lookup_insert h₂ with ⟨rfl, rfl⟩ | ⟨hne₂, hrow₂⟩
  · rfl
  · exact absurd hname.symm (hother _ hne₂ _ hrow₂)
  · exact absurd hname (hother _ hne₁ _ hrow₁)
  · exact h _ _ _ _ hrow₁ hrow₂ hname

theorem Table.sample_uniqueNames : Table.sample.UniqueNames :=
  Table.UniqueNames.insert (fun _ _ _ _ h => by cases h) rfl

/-- What a transaction does to the table when it commits at `now`; `none` if it cannot.  An `UPDATE`
that finds no row raises. -/
def Statement.execute (now : ℤ) (table : Table) : Statement → Option Table
  | .insert id payload => table.put id (Row.created payload now)
  | .update id loaded next =>
    (table.lookup id).bind fun current => table.put id (current.flush loaded next now)
  | .delete id => some (table.erase id)

end RateLimiter
