import RateLimiter.Database.Writes

/-!
# Which runs keep the rows valid

Every call validates what it is going to have written against the row it has read.  The `UPDATE` it
sends names only the columns it has changed, so what it leaves is a mixture of its own values and of
the values other calls have committed since.  The checks of single fields survive the mixture.  The
rule that a burst capacity needs the token bucket relates two columns, and survives it exactly if
they were written together, or if the one that was not written still goes with the one that was
(`Row.FlushesValid`).
-/

set_option autoImplicit false

namespace RateLimiter

/-! ## One overwrite -/

/-- The two columns of `validate_algorithm_specifics` go together in what an overwrite leaves: where
the call writes only one of them, the row it finds has the other as needed. -/
structure Row.FlushesValid (current loaded : Row) (next : PolicyBase) : Prop where
  /-- A call that gives up the token bucket finds no burst capacity, or removes it. -/
  algorithm : Writes loaded next .algorithm → ¬Writes loaded next .burstCapacity →
    next.field .algorithm ≠ some .tokenBucket → current.columns .burstCapacity = none
  /-- A call that sets a burst capacity finds the token bucket, or chooses it. -/
  burstCapacity : Writes loaded next .burstCapacity → ¬Writes loaded next .algorithm →
    next.field .burstCapacity ≠ none → current.columns .algorithm = some .tokenBucket

instance (current loaded : Row) (next : PolicyBase) :
    Decidable (current.FlushesValid loaded next) :=
  decidable_of_iff ((Writes loaded next .algorithm → ¬Writes loaded next .burstCapacity →
      next.field .algorithm ≠ some .tokenBucket → current.columns .burstCapacity = none) ∧
    (Writes loaded next .burstCapacity → ¬Writes loaded next .algorithm →
      next.field .burstCapacity ≠ none → current.columns .algorithm = some .tokenBucket))
    ⟨fun h => ⟨h.1, h.2⟩, fun h => ⟨h.1, h.2⟩⟩

variable {current loaded : Row} {next : PolicyBase} {now : ℤ}

theorem Row.flush_columns (f : Field) : (current.flush loaded next now).columns f =
    if Writes loaded next f then next.field f else current.columns f := rfl

theorem Row.flush_check (hcur : current.columns.Valid) (f : Field) :
    f.check ((current.flush loaded next now).columns f) = true := by
  rw [Row.flush_columns]
  split
  · exact next.fieldOk f
  · exact hcur.1 f

/-- **An overwrite of a valid row is valid exactly when the two columns go together.** -/
theorem Row.flush_valid_iff (hcur : current.columns.Valid) :
    (current.flush loaded next now).columns.Valid ↔ current.FlushesValid loaded next := by
  rw [Payload.Valid, and_iff_right (Row.flush_check hcur), AlgorithmSpecifics, Row.flush_columns,
    Row.flush_columns]
  by_cases ha : Writes loaded next .algorithm <;> by_cases hb : Writes loaded next .burstCapacity
  · rw [if_pos ha, if_pos hb]
    exact ⟨fun _ => ⟨fun _ h => absurd hb h, fun _ h => absurd ha h⟩,
      fun _ => next.algorithmSpecifics⟩
  · rw [if_pos ha, if_neg hb]
    exact ⟨fun h => ⟨fun _ _ => h, fun h => absurd h hb⟩, fun h => h.algorithm ha hb⟩
  · rw [if_neg ha, if_pos hb]
    constructor
    · exact fun h => ⟨fun h => absurd h ha, fun _ _ hne => by_contra fun hc => hne (h hc)⟩
    · exact fun h hc => by_contra fun hne => hc (h.burstCapacity hb ha hne)
  · rw [if_neg ha, if_neg hb]
    exact ⟨fun _ => ⟨fun h => absurd h ha, fun h => absurd h hb⟩, fun _ => hcur.2⟩

/-! ## Tables -/

theorem Table.valid_insert_iff {table : Table} {id : UUID} {row : Row} (h : table.Valid) :
    Table.Valid (table.insert id row) ↔ row.columns.Valid := by
  refine ⟨fun h' => h' id row (AList.lookup_insert _), fun hrow id' row' h' => ?_⟩
  rcases Table.of_mem_lookup_insert h' with ⟨-, rfl⟩ | ⟨-, h'⟩
  · exact hrow
  · exact h id' row' h'

theorem Table.Valid.erase {table : Table} (h : table.Valid) (id : UUID) :
    Table.Valid (table.erase id) :=
  fun id' row h' => h id' row (Table.of_mem_lookup_erase h')

theorem Table.sample_valid : Table.sample.Valid := by
  have hempty : Table.Valid ∅ := fun _ _ h => by cases h
  exact (Table.valid_insert_iff hempty).2 ⟨(PolicyRead.sample .tokenBucket 1).fieldOk,
    (PolicyRead.sample .tokenBucket 1).algorithmSpecifics⟩

/-! ## Runs -/

namespace PolicyStore

variable {s s' : PolicyStore} {e : WriteEvent}

/-- **A step keeps the rows valid exactly when it commits no mixture that is invalid.** -/
theorem step_valid_iff (h : s.table.Valid) (hs : s.step e = some s') :
    s'.table.Valid ↔ s.OnUpdate Row.FlushesValid e := by
  cases step_effect hs with
  | reads hne n statement hread => exact iff_of_true h (onUpdate_of_ne hne)
  | @inserts n now id payload hp hfresh =>
    refine iff_of_true ((Table.valid_insert_iff h).2 ⟨payload.fieldOk, payload.algorithmSpecifics⟩)
      (onUpdate_of_pending fun _ _ _ h' => ?_)
    rw [hp] at h'
    cases h'
  | updates hp hcur =>
    rw [onUpdate_commit hp hcur, Table.valid_insert_iff h, Row.flush_valid_iff (h _ _ hcur)]
  | deletes hp =>
    refine iff_of_true (h.erase _) (onUpdate_of_pending fun _ _ _ h' => ?_)
    rw [hp] at h'
    cases h'

/-- **Rows stay valid, and policy lists readable, exactly as long as every overwrite keeps the two
columns together.** -/
theorem rows_valid_iff {table : Table} (h : table.Valid) (es : List WriteEvent) :
    Transition.Always step
        (fun s => s.table.Valid ∧ ∀ activeOnly, ∃ ps, listPolicies activeOnly s.table = .ok ps)
        (initial table) es ↔
      Transition.Each step (OnUpdate Row.FlushesValid) (initial table) es := by
  have hiff : Transition.Always step (fun s => s.table.Valid) (initial table) es ↔
      Transition.Each step (OnUpdate Row.FlushesValid) (initial table) es :=
    Transition.always_iff_each (I := fun _ => True) (fun _ _ _ _ => trivial)
      (fun _ hv hs => step_valid_iff hv hs) trivial h
  rw [← hiff]
  exact ⟨fun ha => ha.mono fun _ hv => hv.1,
    fun ha => ha.mono fun _ hv => ⟨hv, hv.listPolicies⟩⟩

/-- Two calls that change unrelated columns of one row.  The second reads before the first commits,
and writes after it. -/
theorem rows_valid_iff_sample :
    Transition.Always step
        (fun s => s.table.Valid ∧ ∀ activeOnly, ∃ ps, listPolicies activeOnly s.table = .ok ps)
        (initial .sample)
        [.begin 0 (.update .sample (.only .rate (some 3) (by decide))),
          .begin 1 (.update .sample (.only .burstCapacity (some 7) (by decide))),
          .commit 0 1, .commit 1 2] :=
  (rows_valid_iff Table.sample_valid _).2 (by decide +kernel)

/-- One call sets a burst capacity, another turns the token bucket into a fixed window; neither
sees the other's change.  The row that is left is rejected whenever it is read. -/
theorem updates_leave_invalid_row :
    ∃ s, Transition.run step (initial .sample)
        [.begin 0 (.update .sample (.only .burstCapacity (some 5) (by decide))),
          .begin 1 (.update .sample (.only .algorithm (some .fixedWindow) (by decide))),
          .commit 0 1, .commit 1 2] = some s ∧
      Table.sample.Valid ∧ ¬s.table.Valid ∧ ∃ err, listPolicies true s.table = .error err := by
  have h : ((Transition.run step (initial .sample)
      [.begin 0 (.update .sample (.only .burstCapacity (some 5) (by decide))),
        .begin 1 (.update .sample (.only .algorithm (some .fixedWindow) (by decide))),
        .commit 0 1, .commit 1 2]).map fun s => (listPolicies true s.table).isOk) =
      some false := by decide +kernel
  obtain ⟨s, hs, h⟩ := Option.map_eq_some_iff.1 h
  refine ⟨s, hs, Table.sample_valid, fun hv => ?_, ?_⟩
  · obtain ⟨ps, hps⟩ := hv.listPolicies true
    rw [hps] at h
    cases h
  · cases hl : listPolicies true s.table with
    | ok ps =>
      rw [hl] at h
      cases h
    | error err => exact ⟨err, rfl⟩

end PolicyStore

end RateLimiter
