import RateLimiter.Lib.Timed
import RateLimiter.Service.PolicyService

/-!
# Sequences of upserts

`upsert_policy_by_name` looks a name up, compares what it finds with the payload and writes only if
they differ.  So the table, seen as a map from names to rows, develops name by name
(`Table.findByName_insert`), and after any sequence of upserts it is known what every name has come
to.  Here the columns are taken to hold whatever they are sent.
-/

set_option autoImplicit false

namespace RateLimiter

/-! ## The table as a map from names -/

namespace Table

variable {table : Table} {name : String} {id : UUID} {row : Row}

theorem UniqueNames.findByName_eq_some_iff (h : table.UniqueNames) :
    table.findByName name = some ⟨id, row⟩ ↔ row ∈ table.lookup id ∧ row.name = name := by
  constructor
  · intro hfind
    have hname := List.find?_some hfind
    exact ⟨AList.mem_lookup_iff.2 (List.mem_of_find?_eq_some hfind), by simpa using hname⟩
  · rintro ⟨hrow, hname⟩
    cases hfind : table.findByName name with
    | none =>
      have hne := List.find?_eq_none.1 hfind ⟨id, row⟩ (AList.mem_lookup_iff.1 hrow)
      simp [hname] at hne
    | some e =>
      have he : e.2 ∈ table.lookup e.1 :=
        AList.mem_lookup_iff.2 (List.mem_of_find?_eq_some hfind)
      have hname' : e.2.name = name := by simpa using List.find?_some hfind
      obtain ⟨id', row'⟩ := e
      obtain rfl := h _ _ _ _ he hrow (hname'.trans hname.symm)
      obtain rfl := Option.mem_unique he hrow
      rfl

theorem findByName_eq_none_iff :
    table.findByName name = none ↔ ∀ id, ∀ row ∈ table.lookup id, row.name ≠ name := by
  rw [findByName, List.find?_eq_none]
  constructor
  · intro h id row hrow
    simpa using h ⟨id, row⟩ (AList.mem_lookup_iff.1 hrow)
  · intro h e he
    simpa using h e.1 e.2 (AList.mem_lookup_iff.2 he)

/-- **Writing a row changes what one name stands for**, and leaves all other names alone. -/
theorem UniqueNames.findByName_insert (h : table.UniqueNames)
    (h' : UniqueNames (table.insert id row))
    (hold : ∀ old ∈ table.lookup id, old.name = row.name) :
    findByName (table.insert id row) name =
      if row.name = name then some ⟨id, row⟩ else table.findByName name := by
  split
  · rename_i hname
    exact h'.findByName_eq_some_iff.2 ⟨AList.lookup_insert _, hname⟩
  · rename_i hname
    ext ⟨id', row'⟩
    rw [h'.findByName_eq_some_iff, h.findByName_eq_some_iff]
    refine and_congr_left fun hname' => ?_
    constructor
    · intro hrow'
      rcases of_mem_lookup_insert hrow' with ⟨-, rfl⟩ | ⟨-, hrow'⟩
      · exact absurd hname' hname
      · exact hrow'
    · intro hrow'
      have hne : id' ≠ id := by
        rintro rfl
        exact hname ((hold row' hrow').symm.trans hname')
      rwa [AList.lookup_insert_ne hne]

end Table

/-! ## One upsert -/

/-- An `upsert_policy_by_name` call: its payload, and the id `uuid4` would draw for a new policy. -/
structure Upsert (κ : Type) extends CallContext κ where
  /-- What `uuid4` draws, should the policy be created. -/
  newId : UUID
  payload : PolicyBase

variable {κ : Type} [DecidableEq κ] (settings : CacheSettings)

/-- The call writes `row` under `id`, and the caches are invalidated. -/
def Upsert.written (s : Stores κ) (c : Upsert κ) (id : UUID) (row : Row) : Stores κ :=
  ⟨s.table.insert id row, invalidatePolicyCache settings c.host c.out s.caches⟩

/-- All an upsert can do: create the policy of its name, change it, leave it as it is, or fail with
nothing written. -/
inductive UpsertEffect (fits : Row → Bool) (s : Stores κ) (c : Upsert κ) :
    Except PolicyServiceError (PolicyRead × SyncAction) × Stores κ → Prop where
  /-- No row has the name. -/
  | created {p : PolicyRead} {row : Row} (hnone : s.table.findByName c.payload.name = none)
      (hcolumns : row.columns = c.payload.field) (hversion : row.version = 1)
      (hfits : fits row = true) (hunique : Table.UniqueNames (s.table.insert c.newId row)) :
      UpsertEffect fits s c (.ok (p, .created), c.written settings s c.newId row)
  /-- The row holds the payload. -/
  | unchanged {p : PolicyRead} {id : UUID} {row : Row}
      (hfind : s.table.findByName c.payload.name = some ⟨id, row⟩)
      (hcolumns : row.columns = c.payload.field) : UpsertEffect fits s c (.ok (p, .unchanged), s)
  /-- It does not. -/
  | updated {p : PolicyRead} {id : UUID} {old row : Row}
      (hfind : s.table.findByName c.payload.name = some ⟨id, old⟩)
      (hdiffers : old.columns ≠ c.payload.field) (hcolumns : row.columns = c.payload.field)
      (hversion : row.version = old.version + 1) (hfits : fits row = true)
      (hunique : Table.UniqueNames (s.table.insert id row)) :
      UpsertEffect fits s c (.ok (p, .updated), c.written settings s id row)
  /-- The columns do not hold the row. -/
  | rejected {row : Row} (hcolumns : row.columns = c.payload.field)
      (hversion : ∀ id old, s.table.findByName c.payload.name = some ⟨id, old⟩ →
        row.version = old.version + 1)
      (hcreated : s.table.findByName c.payload.name = none → row.version = 1)
      (hfits : fits row = false) : UpsertEffect fits s c (.error .rejected, s)

variable {settings} {fits : Row → Bool} {s : Stores κ} {c : Upsert κ}

theorem Table.nameTaken_eq_false_of_none {table : Table} {id : UUID} {row : Row}
    (h : table.findByName row.name = none) : table.nameTaken id row = false := by
  rw [Bool.eq_false_iff, Ne, Table.nameTaken_eq_true_iff]
  rintro ⟨id', -, row', hrow', hname⟩
  exact Table.findByName_eq_none_iff.1 h id' row' hrow' hname

theorem Table.UniqueNames.nameTaken_eq_false {table : Table} {id : UUID} {row old : Row}
    (hnames : table.UniqueNames) (hold : old ∈ table.lookup id) (h : row.name = old.name) :
    table.nameTaken id row = false := by
  rw [Bool.eq_false_iff, Ne, Table.nameTaken_eq_true_iff]
  rintro ⟨id', hne, row', hrow', hname⟩
  exact hne (hnames _ _ _ _ hrow' hold (hname.trans h))

/-- **Every upsert has one of these effects.** -/
theorem Upsert.effect (settings : CacheSettings) (fits : Row → Bool)
    (hnames : s.table.UniqueNames) (hfresh : c.newId ∉ s.table) : UpsertEffect settings fits s c
      (PolicyService.upsertPolicyByName settings fits c.toCallContext c.newId c.payload s) := by
  rw [PolicyService.upsertPolicyByName]
  cases hfind : s.table.findByName c.payload.name with
  | none =>
    have hname : (Row.created c.payload c.now).name = c.payload.name := Row.name_eq rfl
    have hfree : s.table.nameTaken c.newId (Row.created c.payload c.now) = false :=
      Table.nameTaken_eq_false_of_none (by rw [hname, hfind])
    have hcommit := Statement.commit_insert fits c.now c.payload hfresh
    dsimp only
    rw [PolicyService.createPolicy]
    cases hfits : fits (Row.created c.payload c.now) with
    | true =>
      rw [if_pos ⟨hfree, hfits⟩] at hcommit
      rw [PolicyService.commitThen_of_some hcommit,
        PolicyService.read_eq_ok (AList.lookup_insert _) rfl]
      exact .created hfind rfl rfl hfits (hnames.insert hfree)
    | false =>
      rw [if_neg fun h => by simp [hfits] at h] at hcommit
      rw [PolicyService.commitThen_of_none hcommit]
      exact .rejected rfl (fun _ _ h => by rw [hfind] at h; cases h) (fun _ => rfl) hfits
  | some e =>
    obtain ⟨id, row⟩ := e
    obtain ⟨hrow, hname⟩ := hnames.findByName_eq_some_iff.1 hfind
    dsimp only
    rw [toPolicyPayload_eq]
    by_cases hcolumns : row.columns = c.payload.field
    · rw [if_pos hcolumns, PolicyService.read_eq_ok hrow hcolumns]
      exact .unchanged hfind hcolumns
    · rw [if_neg hcolumns]
      have hflush := Row.flush_self row c.payload c.now
      have hfree : s.table.nameTaken id (row.flush row c.payload c.now) = false :=
        hnames.nameTaken_eq_false hrow ((Row.name_eq hflush).trans hname.symm)
      have hcommit := Statement.commit_update fits c.now c.payload hrow
      cases hfits : fits (row.flush row c.payload c.now) with
      | true =>
        rw [if_pos ⟨hfree, hfits⟩] at hcommit
        rw [PolicyService.commitThen_of_some hcommit,
          PolicyService.read_eq_ok (AList.lookup_insert _) hflush]
        exact .updated hfind hcolumns hflush rfl hfits (hnames.insert hfree)
      | false =>
        rw [if_neg fun h => by simp [hfits] at h] at hcommit
        rw [PolicyService.commitThen_of_none hcommit]
        refine .rejected hflush (fun id' old h => ?_) (fun h => by rw [hfind] at h; cases h) hfits
        rw [hfind] at h
        cases h
        rfl

/-- Run the call, the columns holding whatever they are sent. -/
def Upsert.run (settings : CacheSettings) (s : Stores κ) (c : Upsert κ) :
    Except PolicyServiceError (PolicyRead × SyncAction) × Stores κ :=
  PolicyService.upsertPolicyByName settings (fun _ => true) c.toCallContext c.newId c.payload s

theorem Upsert.run_effect (settings : CacheSettings) (hnames : s.table.UniqueNames)
    (hfresh : c.newId ∉ s.table) :
    UpsertEffect settings (fun _ => true) s c (c.run settings s) :=
  Upsert.effect settings _ hnames hfresh

section Effect

variable {run : Except PolicyServiceError (PolicyRead × SyncAction) × Stores κ}

theorem UpsertEffect.uniqueNames (h : UpsertEffect settings fits s c run)
    (hnames : s.table.UniqueNames) : run.2.table.UniqueNames := by
  cases h with
  | created _ _ _ _ hunique => exact hunique
  | unchanged | rejected => exact hnames
  | updated _ _ _ _ _ hunique => exact hunique

/-- The other names stand for what they stood for. -/
theorem UpsertEffect.findByName_of_ne (h : UpsertEffect settings fits s c run)
    (hnames : s.table.UniqueNames) (hfresh : c.newId ∉ s.table) {name : String}
    (hne : c.payload.name ≠ name) : run.2.table.findByName name = s.table.findByName name := by
  cases h with
  | @created _ row _ hcolumns _ _ hunique =>
    have hold : ∀ old ∈ s.table.lookup c.newId, old.name = row.name := fun old hmem =>
      absurd (AList.lookup_isSome.1 (Option.isSome_of_mem hmem)) hfresh
    exact (hnames.findByName_insert hunique hold).trans
      (if_neg (by rwa [Row.name_eq hcolumns]))
  | unchanged | rejected => rfl
  | @updated _ id old row hfind _ hcolumns _ _ hunique =>
    obtain ⟨hmem, hname⟩ := hnames.findByName_eq_some_iff.1 hfind
    have hold : ∀ old' ∈ s.table.lookup id, old'.name = row.name := fun old' hmem' => by
      rw [Option.mem_unique hmem' hmem, hname, Row.name_eq hcolumns]
    exact (hnames.findByName_insert hunique hold).trans
      (if_neg (by rwa [Row.name_eq hcolumns]))

/-- A call inserts no other key than its own. -/
theorem UpsertEffect.mem_table (h : UpsertEffect settings fits s c run)
    (hnames : s.table.UniqueNames) {id : UUID} (hid : id ∈ run.2.table) :
    id = c.newId ∨ id ∈ s.table := by
  cases h with
  | created => exact (AList.mem_insert _).1 hid
  | unchanged | rejected => exact Or.inr hid
  | updated hfind =>
    rcases (AList.mem_insert _).1 hid with rfl | hid
    · have hmem := (hnames.findByName_eq_some_iff.1 hfind).1
      exact Or.inr (AList.lookup_isSome.1 (Option.isSome_of_mem hmem))
    · exact Or.inr hid

/-- The call reports `updated`. -/
def reportsUpdated : Except PolicyServiceError (PolicyRead × SyncAction) → Bool
  | .ok (_, .updated) => true
  | _ => false

/-- The name of the call stands for a row with the payload.  If there was one before, it has kept
its key, and a report of `updated` has raised its version. -/
theorem UpsertEffect.findByName_self (h : UpsertEffect settings (fun _ => true) s c run) :
    ∃ id row, run.2.table.findByName c.payload.name = some ⟨id, row⟩ ∧
      row.columns = c.payload.field ∧
      (s.table.findByName c.payload.name = none ∧ row.version = 1 ∧
          reportsUpdated run.1 = false ∨
        ∃ old, s.table.findByName c.payload.name = some ⟨id, old⟩ ∧
          row.version = old.version + if reportsUpdated run.1 = true then 1 else 0) := by
  cases h with
  | created hnone hcolumns hversion _ hunique =>
    exact ⟨_, _, hunique.findByName_eq_some_iff.2 ⟨AList.lookup_insert _, Row.name_eq hcolumns⟩,
      hcolumns, Or.inl ⟨hnone, hversion, rfl⟩⟩
  | @unchanged _ id row hfind hcolumns =>
    exact ⟨id, row, hfind, hcolumns, Or.inr ⟨row, hfind, by simp [reportsUpdated]⟩⟩
  | updated hfind _ hcolumns hversion _ hunique =>
    exact ⟨_, _, hunique.findByName_eq_some_iff.2 ⟨AList.lookup_insert _, Row.name_eq hcolumns⟩,
      hcolumns, Or.inr ⟨_, hfind, hversion⟩⟩
  | rejected _ _ _ hfits => cases hfits

/-- **What an upsert reports**: a creation when no row has the name, and no change when the row
holds the payload, in which case nothing is written. -/
theorem UpsertEffect.report (h : UpsertEffect settings (fun _ => true) s c run)
    (hnames : s.table.UniqueNames) :
    ∃ p action, run.1 = .ok (p, action) ∧
      (action = .created ↔ ∀ id, ∀ row ∈ s.table.lookup id, row.name ≠ c.payload.name) ∧
      (action = .unchanged ↔ ∃ id, ∃ row ∈ s.table.lookup id, row.columns = c.payload.field) ∧
      (action = .unchanged → run.2 = s) := by
  -- Where the name stands for a row, that is the row that may hold the payload.
  have hholds : ∀ id row, s.table.findByName c.payload.name = some ⟨id, row⟩ →
      ((∃ id, ∃ row ∈ s.table.lookup id, row.columns = c.payload.field) ↔
        row.columns = c.payload.field) := by
    intro id row hfind
    have hrow := hnames.findByName_eq_some_iff.1 hfind
    constructor
    · rintro ⟨id', row', hrow', hcolumns⟩
      have hname : row.name = row'.name := hrow.2.trans (Row.name_eq hcolumns).symm
      obtain rfl := hnames _ _ _ _ hrow.1 hrow' hname
      rwa [Option.mem_unique hrow.1 hrow']
    · exact fun hcolumns => ⟨id, row, hrow.1, hcolumns⟩
  have hexists : ∀ id row, s.table.findByName c.payload.name = some ⟨id, row⟩ →
      ¬∀ id, ∀ row ∈ s.table.lookup id, row.name ≠ c.payload.name := by
    intro id row hfind hall
    have hrow := hnames.findByName_eq_some_iff.1 hfind
    exact hall id row hrow.1 hrow.2
  cases h with
  | @created p row hnone =>
    have hall := Table.findByName_eq_none_iff.1 hnone
    refine ⟨p, .created, rfl, iff_of_true rfl hall, iff_of_false (by simp) ?_, by simp⟩
    rintro ⟨id, row, hrow, hcolumns⟩
    exact hall id row hrow (Row.name_eq hcolumns)
  | @unchanged p id row hfind hcolumns =>
    exact ⟨p, .unchanged, rfl, iff_of_false (by simp) (hexists id row hfind),
      iff_of_true rfl ((hholds id row hfind).2 hcolumns), fun _ => rfl⟩
  | @updated p id old row hfind hdiffers =>
    exact ⟨p, .updated, rfl, iff_of_false (by simp) (hexists id old hfind),
      iff_of_false (by simp) fun h => hdiffers ((hholds id old hfind).1 h), by simp⟩
  | rejected _ _ _ hfits => cases hfits

end Effect

/-! ## Sequences -/

/-- The calls for a name. -/
def upsertsOf (name : String) (calls : List (Upsert κ)) : List (Upsert κ) :=
  calls.filter fun c => c.payload.name = name

/-- How many calls for a name report `updated`. -/
def updatesOf (settings : CacheSettings) (s : Stores κ) (name : String) (calls : List (Upsert κ)) :
    ℕ :=
  (Timed.trace (Upsert.run settings) s calls).countP fun e =>
    e.1.payload.name = name && reportsUpdated e.2

/-- `uuid4` repeats no id and draws none of the table's, which is asked even of the calls that do
not need one. -/
structure FreshIds (table : Table) (calls : List (Upsert κ)) : Prop where
  unused : ∀ c ∈ calls, c.newId ∉ table
  nodup : (calls.map Upsert.newId).Nodup

/-- The version a name starts from: that of its row, or the one a creation gives. -/
def Table.startVersion (table : Table) (name : String) : ℤ :=
  (table.findByName name).elim 1 fun e => e.2.version

/-- **What a sequence of upserts has done**, name by name. -/
structure Upserted (settings : CacheSettings) (s : Stores κ) (calls : List (Upsert κ))
    (s' : Stores κ) : Prop where
  uniqueNames : s'.table.UniqueNames
  /-- The keys are old, or drawn by the calls. -/
  keys : ∀ id ∈ s'.table, id ∈ s.table ∨ id ∈ calls.map Upsert.newId
  /-- A name without calls stands for what it stood for. -/
  untouched : ∀ name, upsertsOf name calls = [] →
    s'.table.findByName name = s.table.findByName name
  /-- A name without a row has had none. -/
  absent : ∀ name, s'.table.findByName name = none → s.table.findByName name = none
  /-- The row of a name holds the last payload. -/
  columns : ∀ name, ∀ c ∈ (upsertsOf name calls).getLast?,
    ∃ id row, s'.table.findByName name = some ⟨id, row⟩ ∧ row.columns = c.payload.field
  /-- Its version counts the updates. -/
  version : ∀ name id row, s'.table.findByName name = some ⟨id, row⟩ →
    row.version = s.table.startVersion name + updatesOf settings s name calls
  /-- It keeps its key. -/
  key : ∀ name id row, s'.table.findByName name = some ⟨id, row⟩ →
    ∀ e ∈ s.table.findByName name, e.1 = id

section Sequence

variable {calls : List (Upsert κ)} {name : String}

omit [DecidableEq κ] in
theorem upsertsOf_concat : upsertsOf name (calls ++ [c]) =
    upsertsOf name calls ++ if c.payload.name = name then [c] else [] := by
  rw [upsertsOf, List.filter_append]
  by_cases h : c.payload.name = name <;> simp [upsertsOf, h]

theorem updatesOf_concat : updatesOf settings s name (calls ++ [c]) =
    updatesOf settings s name calls + if c.payload.name = name ∧ reportsUpdated
      (c.run settings (Timed.final (Upsert.run settings) s calls)).1 = true then 1 else 0 := by
  rw [updatesOf, Timed.trace_concat, List.countP_append]
  simp [updatesOf, List.countP_cons]

/-- A name without calls is not updated. -/
theorem updatesOf_eq_zero (h : upsertsOf name calls = []) :
    updatesOf settings s name calls = 0 := by
  rw [updatesOf, List.countP_eq_zero]
  intro e he
  have hc : e.1 ∈ calls := by
    rw [← Timed.map_fst_trace (Upsert.run settings) s calls]
    exact List.mem_map_of_mem he
  have hne := List.filter_eq_nil_iff.1 h e.1 hc
  simp_all

theorem FreshIds.newId_notMem {s' : Stores κ} (hfresh : FreshIds s.table (calls ++ [c]))
    (h : Upserted settings s calls s') : c.newId ∉ s'.table := by
  intro hid
  rcases h.keys _ hid with hid | hid
  · exact hfresh.unused c (by simp) hid
  · have hnodup := hfresh.nodup
    rw [List.map_append, List.nodup_append] at hnodup
    exact hnodup.2.2 _ hid _ (by simp) rfl

omit [DecidableEq κ] in
theorem FreshIds.left {table : Table} {calls' : List (Upsert κ)}
    (h : FreshIds table (calls ++ calls')) : FreshIds table calls :=
  ⟨fun c hc => h.unused c (List.mem_append_left _ hc), by
    have hnodup := h.nodup
    rw [List.map_append, List.nodup_append] at hnodup
    exact hnodup.1⟩

/-- A name that stands for no row has had no calls. -/
theorem Upserted.upsertsOf_eq_nil {s' : Stores κ} (h : Upserted settings s calls s')
    (hnone : s'.table.findByName name = none) : upsertsOf name calls = [] := by
  cases hlast : (upsertsOf name calls).getLast? with
  | none => exact List.getLast?_eq_none_iff.1 hlast
  | some c =>
    obtain ⟨_, _, hfind, -⟩ := h.columns name c hlast
    rw [hnone] at hfind
    cases hfind

/-- The row that the call leaves for its name counts the updates. -/
theorem Upserted.version_concat
    (h : Upserted settings s calls (Timed.final (Upsert.run settings) s calls)) {id : UUID}
    {row : Row} (hbefore :
      (Timed.final (Upsert.run settings) s calls).table.findByName c.payload.name = none ∧
          row.version = 1 ∧ reportsUpdated
            (c.run settings (Timed.final (Upsert.run settings) s calls)).1 = false ∨
        ∃ old, (Timed.final (Upsert.run settings) s calls).table.findByName c.payload.name =
            some ⟨id, old⟩ ∧ row.version = old.version + if reportsUpdated
              (c.run settings (Timed.final (Upsert.run settings) s calls)).1 = true then 1 else 0) :
    row.version = s.table.startVersion c.payload.name +
      updatesOf settings s c.payload.name (calls ++ [c]) := by
  rw [updatesOf_concat]
  rcases hbefore with ⟨hnone, hversion, hreport⟩ | ⟨old, hold, hversion⟩
  · have hstart : s.table.startVersion c.payload.name = 1 := by
      rw [Table.startVersion, h.absent _ hnone]
      rfl
    rw [hversion, hstart, updatesOf_eq_zero (h.upsertsOf_eq_nil hnone)]
    simp [hreport]
  · rw [hversion, h.version _ _ _ hold]
    push_cast
    simp [add_assoc]

/-- **One more upsert** goes on where the sequence has left the tables, and the books of its name
are brought up to date. -/
theorem Upserted.concat
    (h : Upserted settings s calls (Timed.final (Upsert.run settings) s calls))
    (hfresh : c.newId ∉ (Timed.final (Upsert.run settings) s calls).table) :
    Upserted settings s (calls ++ [c]) (Timed.final (Upsert.run settings) s (calls ++ [c])) := by
  rw [Timed.final_concat]
  have heffect := Upsert.run_effect settings h.uniqueNames hfresh
  have hother := fun name (hne : c.payload.name ≠ name) =>
    heffect.findByName_of_ne h.uniqueNames hfresh hne
  obtain ⟨id, row, hfind, hcolumns, hbefore⟩ := heffect.findByName_self
  constructor
  case uniqueNames => exact heffect.uniqueNames h.uniqueNames
  case keys =>
    intro id' hid'
    rw [List.map_append, List.mem_append]
    rcases heffect.mem_table h.uniqueNames hid' with rfl | hid'
    · exact Or.inr (Or.inr (by simp))
    · exact (h.keys id' hid').imp_right Or.inl
  case untouched =>
    intro name hnil
    rw [upsertsOf_concat, List.append_eq_nil_iff] at hnil
    have hne : c.payload.name ≠ name := fun hname => by simp [hname] at hnil
    exact (hother name hne).trans (h.untouched name hnil.1)
  case absent =>
    intro name hnone
    by_cases hname : c.payload.name = name
    · rw [← hname, hfind] at hnone
      cases hnone
    · exact h.absent name ((hother name hname).symm.trans hnone)
  case columns =>
    intro name c' hc'
    rw [upsertsOf_concat] at hc'
    by_cases hname : c.payload.name = name
    · obtain rfl : c = c' := by simpa [hname] using hc'
      exact ⟨id, row, hname ▸ hfind, hcolumns⟩
    · rw [if_neg hname, List.append_nil] at hc'
      rw [hother name hname]
      exact h.columns name c' hc'
  case version =>
    intro name id' row' hfind'
    by_cases hname : c.payload.name = name
    · subst hname
      obtain ⟨-, rfl⟩ : id = id' ∧ row = row' := by simpa [hfind] using hfind'
      exact h.version_concat hbefore
    · rw [updatesOf_concat, if_neg fun hc => hname hc.1, Nat.add_zero]
      exact h.version name id' row' ((hother name hname).symm.trans hfind')
  case key =>
    intro name id' row' hfind' e he
    by_cases hname : c.payload.name = name
    · subst hname
      obtain ⟨rfl, -⟩ : id = id' ∧ row = row' := by simpa [hfind] using hfind'
      rcases hbefore with ⟨hnone, -, -⟩ | ⟨old, hold, -⟩
      · rw [h.absent _ hnone] at he
        cases he
      · exact h.key _ _ _ hold e he
    · exact h.key name id' row' ((hother name hname).symm.trans hfind') e he

/-- **A whole sequence**, by induction on its last call. -/
theorem upserted_final (settings : CacheSettings) (hnames : s.table.UniqueNames)
    (hfresh : FreshIds s.table calls) :
    Upserted settings s calls (Timed.final (Upsert.run settings) s calls) := by
  induction calls using List.reverseRecOn with
  | nil =>
    refine ⟨hnames, fun id hid => Or.inl hid, fun _ _ => rfl, fun _ h => h, ?_, ?_, ?_⟩
    · intro name c hc
      cases hc
    · intro name id row hfind
      have hfind : s.table.findByName name = some ⟨id, row⟩ := hfind
      simp [Table.startVersion, hfind, updatesOf, Timed.trace]
    · intro name id row hfind e he
      rw [show s.table.findByName name = some ⟨id, row⟩ from hfind] at he
      rw [← Option.some_inj.1 he]
  | append_singleton calls c ih =>
    have h := ih hfresh.left
    exact h.concat (hfresh.newId_notMem h)

/-- **Upserts converge and repeat harmlessly.**  Every call of a sequence reports `created` exactly
when no row has the name, `unchanged` exactly when the row equals the payload, and then it changes
nothing.  Afterwards the row of every name that was called equals the last payload, under its old
key if it had one, and its version has grown by the number of `updated` reports.  The rows of other
names are as before. -/
theorem upserts_converge (settings : CacheSettings) (hnames : s.table.UniqueNames)
    (hfresh : FreshIds s.table calls) :
    (∀ before c after, calls = before ++ c :: after →
      ∃ p action, (c.run settings (Timed.final (Upsert.run settings) s before)).1 =
          .ok (p, action) ∧
        (action = .created ↔ ∀ id,
          ∀ row ∈ (Timed.final (Upsert.run settings) s before).table.lookup id,
            row.name ≠ c.payload.name) ∧
        (action = .unchanged ↔
          ∃ id, ∃ row ∈ (Timed.final (Upsert.run settings) s before).table.lookup id,
            row.columns = c.payload.field) ∧
        (action = .unchanged → (c.run settings (Timed.final (Upsert.run settings) s before)).2 =
          Timed.final (Upsert.run settings) s before)) ∧
    (∀ id row, upsertsOf row.name calls = [] →
      (row ∈ (Timed.final (Upsert.run settings) s calls).table.lookup id ↔
        row ∈ s.table.lookup id)) ∧
    ∀ name, ∀ c ∈ (upsertsOf name calls).getLast?,
      ∃ id, ∃ row ∈ (Timed.final (Upsert.run settings) s calls).table.lookup id,
        row.columns = c.payload.field ∧
        row.version = s.table.startVersion name + updatesOf settings s name calls ∧
        ∀ e ∈ s.table.findByName name, e.1 = id := by
  have hdone := upserted_final settings hnames hfresh
  refine ⟨fun before c after hcalls => ?_, fun id row hnil => ?_, fun name c hc => ?_⟩
  · rw [hcalls, ← List.singleton_append, ← List.append_assoc] at hfresh
    have hbefore := upserted_final settings hnames hfresh.left.left
    exact (Upsert.run_effect settings hbefore.uniqueNames (hfresh.left.newId_notMem hbefore)).report
      hbefore.uniqueNames
  · have hsame := hdone.untouched row.name hnil
    have hafter :
        (Timed.final (Upsert.run settings) s calls).table.findByName row.name = some ⟨id, row⟩ ↔
          _ := hdone.uniqueNames.findByName_eq_some_iff
    rw [hsame, hnames.findByName_eq_some_iff] at hafter
    simpa using hafter.symm
  · obtain ⟨id, row, hfind, hcolumns⟩ := hdone.columns name c hc
    exact ⟨id, row, (hdone.uniqueNames.findByName_eq_some_iff.1 hfind).1, hcolumns,
      hdone.version name id row hfind, hdone.key name id row hfind⟩

end Sequence

/-- Another policy beside the sample one. -/
def Table.withUploads : Table :=
  AList.insert ⟨"00000000-0000-4000-8000-0000000000b0", by decide⟩
    (Row.created ⟨Payload.ofRequired "uploads" 9 60, by decide, by decide⟩ 0) Table.sample

/-- Calls for two names in turn: one is new, is repeated and gets another rate; the other becomes a
fixed window and a token bucket again. -/
def Upsert.samples : List (Upsert Unit) :=
  [⟨⟨(), 1, fun _ => .failed⟩, ⟨"00000000-0000-4000-8000-0000000000b1", by decide⟩,
      ⟨Payload.ofRequired "searches" 3 60, by decide, by decide⟩⟩,
    ⟨⟨(), 2, fun _ => .replied⟩, ⟨"00000000-0000-4000-8000-0000000000b2", by decide⟩,
      (PolicyRead.sample .fixedWindow 1).toPolicyBase⟩,
    ⟨⟨(), 3, fun _ => .lost⟩, ⟨"00000000-0000-4000-8000-0000000000b3", by decide⟩,
      ⟨Payload.ofRequired "searches" 3 60, by decide, by decide⟩⟩,
    ⟨⟨(), 4, fun _ => .replied⟩, ⟨"00000000-0000-4000-8000-0000000000b4", by decide⟩,
      (PolicyRead.sample .tokenBucket 1).toPolicyBase⟩,
    ⟨⟨(), 5, fun _ => .replied⟩, ⟨"00000000-0000-4000-8000-0000000000b5", by decide⟩,
      ⟨Payload.ofRequired "searches" 4 60, by decide, by decide⟩⟩]

/-- What the calls report, and what has become of the three names. -/
theorem upserts_converge_sample :
    let s : Stores Unit := ⟨.withUploads, Caches.empty Unit⟩
    let final := Timed.final (Upsert.run ⟨30, 30, true⟩) s Upsert.samples
    (Timed.trace (Upsert.run ⟨30, 30, true⟩) s Upsert.samples).map
        (fun e => e.2.toOption.map Prod.snd) =
      [some .created, some .updated, some .unchanged, some .updated, some .updated] ∧
    (∀ c ∈ Upsert.samples[2]?, (c.run ⟨30, 30, true⟩ (Timed.final (Upsert.run ⟨30, 30, true⟩) s
        (Upsert.samples.take 2))).2 =
      Timed.final (Upsert.run ⟨30, 30, true⟩) s (Upsert.samples.take 2)) ∧
    (∃ id, ∃ row ∈ final.table.lookup id,
      row.columns = (PolicyRead.sample .tokenBucket 1).field ∧ row.version = 3) ∧
    (∃ id, ∃ row ∈ final.table.lookup id,
      row.columns = Payload.ofRequired "searches" 4 60 ∧ row.version = 2) ∧
    ∀ id row, row.name = "uploads" →
      (row ∈ final.table.lookup id ↔ row ∈ Table.withUploads.lookup id) := by
  intro s final
  have hfresh : FreshIds Table.withUploads Upsert.samples := ⟨by decide, by decide⟩
  have hnames : Table.withUploads.UniqueNames :=
    .insert Table.sample_uniqueNames (by decide +kernel)
  obtain ⟨hreports, huntouched, hlast⟩ := upserts_converge (s := s) ⟨30, 30, true⟩ hnames hfresh
  refine ⟨by decide +kernel, ?_, ?_, ?_, fun id row hname => huntouched id row ?_⟩
  · intro c hc
    obtain rfl : Upsert.samples[2] = c := Option.some_inj.1 hc
    obtain ⟨p, action, hrun, -, -, hsame⟩ := hreports (Upsert.samples.take 2) Upsert.samples[2]
      (Upsert.samples.drop 3) rfl
    refine hsame ?_
    have haction : ((Upsert.samples[2].run ⟨30, 30, true⟩ (Timed.final
        (Upsert.run ⟨30, 30, true⟩) s (Upsert.samples.take 2))).1.toOption.map Prod.snd) =
          some .unchanged := by decide +kernel
    rw [hrun] at haction
    exact Option.some_inj.1 haction
  · obtain ⟨id, row, hrow, hcolumns, hversion, -⟩ := hlast "sample" _ rfl
    exact ⟨id, row, hrow, hcolumns, hversion.trans (by decide +kernel)⟩
  · obtain ⟨id, row, hrow, hcolumns, hversion, -⟩ := hlast "searches" _ rfl
    exact ⟨id, row, hrow, hcolumns, hversion.trans (by decide +kernel)⟩
  · rw [hname]
    rfl

end RateLimiter
