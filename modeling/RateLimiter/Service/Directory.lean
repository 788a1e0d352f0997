import RateLimiter.Policy.Resolution
import RateLimiter.Service.Upserts

/-!
# What the policies are to a client

To those who manage them the policies are a directory: ids stand for policies, no two of one name.
`Directory.Serves` says what each call answers and what it makes of the directory, without rows,
overlays, flushes or commits.  `PolicyService` serves the directory its table shows
(`Directory.Shows`), call by call.

* `Directory.Shows.accepts_iff`: what the unique constraint and the columns let through is what a
  directory can hold.
* `Directory.Shows.lists`: the query lists the directory.
* `createPolicy_serves` and the others, one for each call.
-/

set_option autoImplicit false

namespace RateLimiter

/-! ## Directories -/

/-- A policy for some of the ids, no two of one name. -/
structure Directory where
  /-- The policy with an id. -/
  find : UUID → Option PolicyRead
  /-- A policy is found under its id. -/
  id_eq : ∀ id, ∀ p ∈ find id, p.id = id
  /-- A name has one policy. -/
  name_unique : ∀ id id', ∀ p ∈ find id, ∀ q ∈ find id', p.name = q.name → id = id'

/-- A policy as it is created: version 1, and created and changed at the same time. -/
def PolicyRead.new (id : UUID) (payload : PolicyBase) (now : ℤ) : PolicyRead :=
  ⟨payload, id, 1, now, now⟩

/-- A policy after it has been given other values: the next version, changed now and created when it
was. -/
def PolicyRead.next (p : PolicyRead) (payload : PolicyBase) (now : ℤ) : PolicyRead :=
  ⟨payload, p.id, p.version + 1, p.createdAt, now⟩

/-- Policies are listed by descending priority, then by descending `updated_at`, then by name. -/
def PolicyRead.listKey (p : PolicyRead) : ℤ ×ₗ ℤ ×ₗ String :=
  toLex (-p.priority, toLex (-p.updatedAt, p.name))

namespace Directory

/-- The directory can hold `p`: its name is no other policy's and the columns hold it. -/
structure CanHold (d : Directory) (p : PolicyRead) : Prop where
  nameFree : ∀ id ≠ p.id, ∀ q ∈ d.find id, q.name ≠ p.name
  fits : p.field.FitsColumns
  fitsVersion : fitsInteger p.version = true

/-- `p` under its id, in the place of what was there, and everything else as it was. -/
def set (d : Directory) (p : PolicyRead) (h : d.CanHold p) : Directory where
  find := Function.update d.find p.id (some p)
  id_eq id q hq := by
    rcases eq_or_ne id p.id with rfl | hne
    · simp_all
    · exact d.id_eq id q (by simpa [hne] using hq)
  name_unique id id' q hq q' hq' hname := by
    rcases eq_or_ne id p.id with rfl | hne <;> rcases eq_or_ne id' p.id with rfl | hne'
    · rfl
    · obtain rfl : p = q := by simpa using hq
      exact absurd hname.symm (h.nameFree id' hne' q' (by simpa [hne'] using hq'))
    · obtain rfl : p = q' := by simpa using hq'
      exact absurd hname (h.nameFree id hne q (by simpa [hne] using hq))
    · exact d.name_unique id id' q (by simpa [hne] using hq) q' (by simpa [hne'] using hq') hname

/-- Nothing under `id`. -/
def remove (d : Directory) (id : UUID) : Directory where
  find := Function.update d.find id none
  id_eq id' q hq := by
    have hne : id' ≠ id := by
      rintro rfl
      simp at hq
    exact d.id_eq id' q (by simpa [hne] using hq)
  name_unique id₁ id₂ q hq q' hq' hname := by
    have hne : id₁ ≠ id := by
      rintro rfl
      simp at hq
    have hne' : id₂ ≠ id := by
      rintro rfl
      simp at hq'
    exact d.name_unique id₁ id₂ q (by simpa [hne] using hq) q' (by simpa [hne'] using hq') hname

/-- The policies of the directory, or the active ones, in their order. -/
structure Lists (d : Directory) (activeOnly : Bool) (items : List PolicyRead) : Prop where
  mem : ∀ p, p ∈ items ↔ p ∈ d.find p.id ∧ (activeOnly = true → p.active = true)
  sorted : items.Pairwise fun p q => p.listKey < q.listKey

end Directory

/-! ## Calls -/

/-- The id a call has to find. -/
def PolicyCall.target : PolicyCall → Option UUID
  | .get id | .write (.update id _) | .write (.delete id) => some id
  | .list _ | .write (.create _ _) | .write (.upsert _ _) => none

/-- What comes of a call, whoever has made it and however it is sent. -/
inductive PolicyAnswer where
  | policy (p : PolicyRead)
  /-- An upsert says what it has done. -/
  | synced (p : PolicyRead) (action : SyncAction)
  | deleted
  | policies (items : List PolicyRead)
  | notFound
  /-- The call raises something else. -/
  | failed

/-- The answer in what a call returns or raises. -/
def PolicyAnswer.of {α : Type} (answer : α → PolicyAnswer) :
    Except PolicyServiceError α → PolicyAnswer
  | .ok a => answer a
  | .error .notFound => .notFound
  | .error (.validation _) | .error .rejected => .failed

/-- **What a directory answers, and what becomes of it.** -/
inductive Directory.Serves (now : ℤ) (d : Directory) :
    PolicyCall → PolicyAnswer → Directory → Prop where
  | created {id : UUID} {payload : PolicyBase} (hid : d.find id = none)
      (h : d.CanHold (.new id payload now)) :
      Serves now d (.write (.create id payload)) (.policy (.new id payload now)) (d.set _ h)
  /-- The id or the name is taken, or the columns do not hold the policy. -/
  | notCreated {id : UUID} {payload : PolicyBase}
      (h : ¬(d.find id = none ∧ d.CanHold (.new id payload now))) :
      Serves now d (.write (.create id payload)) .failed d
  /-- The values that are set replace the old ones. -/
  | updated {id : UUID} {payload : PolicyUpdate} {p : PolicyRead} {next : PolicyBase}
      (hp : p ∈ d.find id) (hset : payload.NonEmpty) (hnext : next.field = payload.merge p.field)
      (h : d.CanHold (p.next next now)) :
      Serves now d (.write (.update id payload)) (.policy (p.next next now)) (d.set _ h)
  /-- An update that sets nothing reads. -/
  | untouched {id : UUID} {payload : PolicyUpdate} {p : PolicyRead} (hp : p ∈ d.find id)
      (hset : ¬payload.NonEmpty) : Serves now d (.write (.update id payload)) (.policy p) d
  /-- The values do not go together, or the directory cannot hold them. -/
  | notUpdated {id : UUID} {payload : PolicyUpdate} {p : PolicyRead} (hp : p ∈ d.find id)
      (hset : payload.NonEmpty) (h : ∀ next : PolicyBase, next.field = payload.merge p.field →
        ¬d.CanHold (p.next next now)) : Serves now d (.write (.update id payload)) .failed d
  | deleted {id : UUID} {p : PolicyRead} (hp : p ∈ d.find id) :
      Serves now d (.write (.delete id)) .deleted (d.remove id)
  /-- No policy has the name. -/
  | upsertCreates {newId : UUID} {payload : PolicyBase}
      (hnone : ∀ id, ∀ p ∈ d.find id, p.name ≠ payload.name) (hid : d.find newId = none)
      (h : d.CanHold (.new newId payload now)) :
      Serves now d (.write (.upsert newId payload)) (.synced (.new newId payload now) .created)
        (d.set _ h)
  /-- The policy of the name has the values. -/
  | upsertFinds {newId id : UUID} {payload : PolicyBase} {p : PolicyRead} (hp : p ∈ d.find id)
      (heq : p.field = payload.field) :
      Serves now d (.write (.upsert newId payload)) (.synced p .unchanged) d
  /-- It has others. -/
  | upsertUpdates {newId id : UUID} {payload : PolicyBase} {p : PolicyRead} (hp : p ∈ d.find id)
      (hname : p.name = payload.name) (hne : p.field ≠ payload.field)
      (h : d.CanHold (p.next payload now)) :
      Serves now d (.write (.upsert newId payload)) (.synced (p.next payload now) .updated)
        (d.set _ h)
  /-- The directory cannot hold what the upsert would write. -/
  | upsertFails {newId : UUID} {payload : PolicyBase}
      (hnew : (∀ id, ∀ p ∈ d.find id, p.name ≠ payload.name) →
        ¬(d.find newId = none ∧ d.CanHold (.new newId payload now)))
      (hold : ∀ id, ∀ p ∈ d.find id, p.name = payload.name →
        p.field ≠ payload.field ∧ ¬d.CanHold (p.next payload now)) :
      Serves now d (.write (.upsert newId payload)) .failed d
  | found {id : UUID} {p : PolicyRead} (hp : p ∈ d.find id) :
      Serves now d (.get id) (.policy p) d
  /-- The id has no policy. -/
  | missing {call : PolicyCall} {id : UUID} (htarget : call.target = some id)
      (hp : d.find id = none) : Serves now d call .notFound d
  | listed {activeOnly : Bool} {items : List PolicyRead} (h : d.Lists activeOnly items) :
      Serves now d (.list activeOnly) (.policies items) d

/-! ## The directory in a table -/

/-- The rows read as the policies of the directory, id by id, and there are no others. -/
def Directory.Shows (d : Directory) (table : Table) : Prop :=
  ∀ id, (table.lookup id).map (PolicyRead.modelValidate id) = (d.find id).map .ok

namespace Directory.Shows

variable {d : Directory} {table : Table} {id : UUID} {row : Row} {p : PolicyRead}

theorem read_of_find (h : d.Shows table) (hp : p ∈ d.find id) :
    ∃ row ∈ table.lookup id, PolicyRead.modelValidate id row = .ok p := by
  have hid := h id
  rw [hp, Option.map_some, Option.map_eq_some_iff] at hid
  exact hid

theorem find_of_lookup (h : d.Shows table) (hrow : row ∈ table.lookup id) :
    ∃ p ∈ d.find id, PolicyRead.modelValidate id row = .ok p := by
  have hid := h id
  rw [hrow, Option.map_some, eq_comm, Option.map_eq_some_iff] at hid
  obtain ⟨p, hp, heq⟩ := hid
  exact ⟨p, hp, heq.symm⟩

theorem lookup_eq_none_iff (h : d.Shows table) : table.lookup id = none ↔ d.find id = none := by
  have hid := congrArg (· = none) (h id)
  simpa using hid

theorem valid (h : d.Shows table) : table.Valid := by
  intro id row hrow
  obtain ⟨p, -, hread⟩ := h.find_of_lookup hrow
  exact PolicyRead.modelValidate_isOk_iff.1 ⟨p, hread⟩

theorem uniqueNames (h : d.Shows table) : table.UniqueNames := by
  intro id id' row row' hrow hrow' hname
  obtain ⟨p, hp, hread⟩ := h.find_of_lookup hrow
  obtain ⟨p', hp', hread'⟩ := h.find_of_lookup hrow'
  refine d.name_unique id id' p hp p' hp' ?_
  rw [modelValidate_name hread, modelValidate_name hread', hname]

/-- **A table of valid rows with unique names shows a directory.** -/
theorem exists_of_valid (hvalid : table.Valid) (hnames : table.UniqueNames) :
    ∃ d : Directory, d.Shows table := by
  have hread : ∀ id p, ((table.lookup id).bind fun row =>
      (PolicyRead.modelValidate id row).toOption) = some p →
      ∃ row ∈ table.lookup id, PolicyRead.modelValidate id row = .ok p := by
    intro id p hp
    obtain ⟨row, hrow, hp⟩ := Option.bind_eq_some_iff.1 hp
    cases hval : PolicyRead.modelValidate id row with
    | error e => simp [hval, Except.toOption] at hp
    | ok p' =>
      obtain rfl : p' = p := by simpa [hval, Except.toOption] using hp
      exact ⟨row, hrow, hval⟩
  refine ⟨⟨fun id => (table.lookup id).bind fun row => (PolicyRead.modelValidate id row).toOption,
    fun id p hp => ?_, fun id id' p hp q hq hname => ?_⟩, fun id => ?_⟩
  · obtain ⟨row, -, hval⟩ := hread id p hp
    exact (PolicyRead.modelValidate_ok hval).2.1
  · obtain ⟨row, hrow, hval⟩ := hread id p hp
    obtain ⟨row', hrow', hval'⟩ := hread id' q hq
    rw [modelValidate_name hval, modelValidate_name hval'] at hname
    exact hnames id id' row row' hrow hrow' hname
  · dsimp only
    cases hrow : table.lookup id with
    | none => rfl
    | some row =>
      obtain ⟨p, hval⟩ : ∃ p, PolicyRead.modelValidate id row = .ok p :=
        PolicyRead.modelValidate_isOk_iff.2 (hvalid id row hrow)
      simp [hval, Except.toOption]

/-- **The database accepts what the directory can hold**: its constraints are on ids, names and
ranges, and so is `CanHold`. -/
theorem accepts_iff (h : d.Shows table) (hread : PolicyRead.modelValidate id row = .ok p) :
    (table.nameTaken id row = false ∧ row.fits = true) ↔ d.CanHold p := by
  obtain ⟨hcolumns, rfl, hversion⟩ := PolicyRead.modelValidate_ok hread
  have hname : table.nameTaken p.id row = false ↔
      ∀ id ≠ p.id, ∀ q ∈ d.find id, q.name ≠ p.name := by
    rw [Bool.eq_false_iff, Ne, Table.nameTaken_eq_true_iff, modelValidate_name hread]
    constructor
    · intro hfree id hne q hq hname
      obtain ⟨row', hrow', hread'⟩ := h.read_of_find hq
      exact hfree ⟨id, hne, row', hrow', (modelValidate_name hread').symm.trans hname⟩
    · rintro hfree ⟨id, hne, row', hrow', hname⟩
      obtain ⟨q, hq, hread'⟩ := h.find_of_lookup hrow'
      exact hfree id hne q hq ((modelValidate_name hread').trans hname)
  rw [hname, Row.fits, decide_eq_true_eq, Row.FitsColumns, ← hcolumns, ← hversion]
  exact ⟨fun ⟨hfree, hfits, hversion⟩ => ⟨hfree, hfits, hversion⟩,
    fun hc => ⟨hc.nameFree, hc.fits, hc.fitsVersion⟩⟩

theorem set (h : d.Shows table) (hread : PolicyRead.modelValidate id row = .ok p)
    (hp : d.CanHold p) : (d.set p hp).Shows (table.insert id row) := by
  obtain ⟨-, rfl, -⟩ := PolicyRead.modelValidate_ok hread
  intro id'
  rcases eq_or_ne id' p.id with rfl | hne
  · simp [Directory.set, AList.lookup_insert, hread]
  · simpa [Directory.set, AList.lookup_insert_ne hne, hne] using h id'

theorem remove (h : d.Shows table) (id : UUID) : (d.remove id).Shows (table.erase id) := by
  intro id'
  rcases eq_or_ne id' id with rfl | hne
  · simp [Directory.remove]
  · simpa [Directory.remove, AList.lookup_erase_ne hne, hne] using h id'

/-- **The query lists the directory**: all its policies, or the active ones, in the order of the
query. -/
theorem lists (h : d.Shows table) (activeOnly : Bool) :
    ∃ items, listPolicies activeOnly table = .ok items ∧ d.Lists activeOnly items := by
  obtain ⟨items, hlist⟩ := h.valid.listPolicies activeOnly
  have hmap := map_eq_of_mapM hlist
  have hmem : ∀ p, p ∈ items ↔ p ∈ d.find p.id ∧ (activeOnly = true → p.active = true) := by
    intro p
    have hitems : p ∈ items ↔ Except.ok p ∈ items.map (Except.ok (ε := ValidationError)) := by simp
    rw [hitems, ← hmap, List.mem_map]
    simp only [selectPolicies, List.mem_insertionSort, List.mem_filter, Sigma.exists]
    constructor
    · rintro ⟨id, row, ⟨hmem, hactive⟩, hread⟩
      obtain ⟨q, hq, hread'⟩ := h.find_of_lookup (AList.mem_lookup_iff.2 hmem)
      obtain rfl : q = p := Except.ok.inj (hread'.symm.trans hread)
      rw [d.id_eq id q hq, modelValidate_active hread]
      exact ⟨hq, by simpa [or_iff_not_imp_left] using hactive⟩
    · rintro ⟨hp, hactive⟩
      obtain ⟨row, hrow, hread⟩ := h.read_of_find hp
      rw [modelValidate_active hread] at hactive
      exact ⟨p.id, row, ⟨AList.mem_lookup_iff.1 hrow, by simpa [or_iff_not_imp_left] using hactive⟩,
        hread⟩
  refine ⟨items, hlist, hmem, ?_⟩
  -- The rows are sorted and have different ids.
  have hrows : (selectPolicies activeOnly table).Pairwise fun e e' =>
      e.2.sortKey ≤ e'.2.sortKey ∧ e.1 ≠ e'.1 :=
    (List.pairwise_insertionSort _ _).and
      (((List.perm_insertionSort _ _).pairwise_iff Ne.symm).2
        (table.nodupKeys.pairwise_ne.filter _))
  have hkeys : (items.map (Except.ok (ε := ValidationError))).Pairwise fun x y =>
      ∀ p q, x = .ok p → y = .ok q → p.listKey ≤ q.listKey ∧ p.id ≠ q.id := by
    rw [← hmap, List.pairwise_map]
    refine hrows.imp ?_
    rintro _ _ ⟨hle, hne⟩ p q hp hq
    refine ⟨?_, ?_⟩
    · rwa [modelValidate_sortKey hp, modelValidate_sortKey hq] at hle
    · rwa [(PolicyRead.modelValidate_ok hp).2.1, (PolicyRead.modelValidate_ok hq).2.1]
  rw [List.pairwise_map] at hkeys
  refine hkeys.imp_of_mem fun hp hq hpq => ?_
  obtain ⟨hle, hne⟩ := hpq _ _ rfl rfl
  refine lt_of_le_of_ne hle fun heq => hne ?_
  have hname := congrArg (fun key : ℤ ×ₗ ℤ ×ₗ String => (ofLex (ofLex key).2).2) heq
  exact d.name_unique _ _ _ ((hmem _).1 hp).1 _ ((hmem _).1 hq).1 hname

/-! ## Commits -/

theorem read_created (id : UUID) (payload : PolicyBase) (now : ℤ) :
    PolicyRead.modelValidate id (Row.created payload now) = .ok (.new id payload now) :=
  PolicyRead.modelValidate_eq_ok rfl

theorem read_flush (hread : PolicyRead.modelValidate id row = .ok p) (next : PolicyBase)
    (now : ℤ) :
    PolicyRead.modelValidate id (row.flush row next now) = .ok (p.next next now) := by
  obtain ⟨-, rfl, hversion⟩ := PolicyRead.modelValidate_ok hread
  rw [PolicyRead.modelValidate_eq_ok (Row.flush_self row next now).symm, PolicyRead.next, hversion,
    modelValidate_createdAt hread]
  rfl

theorem commit_insert (h : d.Shows table) (id : UUID) (payload : PolicyBase) (now : ℤ) :
    (d.find id = none ∧ d.CanHold (.new id payload now) ∧
      (Statement.insert id payload).commit Row.fits now table =
        some (table.insert id (Row.created payload now))) ∨
    (¬(d.find id = none ∧ d.CanHold (.new id payload now)) ∧
      (Statement.insert id payload).commit Row.fits now table = none) := by
  by_cases hid : id ∈ table
  · have hfind : d.find id ≠ none := by
      rwa [Ne, ← h.lookup_eq_none_iff, AList.lookup_eq_none, not_not]
    exact Or.inr ⟨fun hc => hfind hc.1, by simp [Statement.commit, Statement.keyFree, hid]⟩
  · have hfind : d.find id = none := by
      rwa [← h.lookup_eq_none_iff, AList.lookup_eq_none]
    have hiff := h.accepts_iff (read_created id payload now)
    rw [Statement.commit_insert _ _ _ hid]
    by_cases hc : d.CanHold (.new id payload now)
    · exact Or.inl ⟨hfind, hc, if_pos (hiff.2 hc)⟩
    · exact Or.inr ⟨fun hc' => hc hc'.2, if_neg fun ha => hc (hiff.1 ha)⟩

/-- The commit of an overwrite of the row it has read. -/
theorem commit_update (h : d.Shows table) (hrow : row ∈ table.lookup id)
    (hread : PolicyRead.modelValidate id row = .ok p) (next : PolicyBase) (now : ℤ) :
    (d.CanHold (p.next next now) ∧ (Statement.update id row next).commit Row.fits now table =
      some (table.insert id (row.flush row next now))) ∨
    (¬d.CanHold (p.next next now) ∧
      (Statement.update id row next).commit Row.fits now table = none) := by
  have hiff := h.accepts_iff (read_flush hread next now)
  rw [Statement.commit_update _ _ _ hrow]
  by_cases hc : d.CanHold (p.next next now)
  · exact Or.inl ⟨hc, if_pos (hiff.2 hc)⟩
  · exact Or.inr ⟨hc, if_neg fun ha => hc (hiff.1 ha)⟩

end Directory.Shows

/-! ## The calls of `PolicyService` -/

namespace PolicyService

variable {κ : Type} [DecidableEq κ] (settings : CacheSettings) (ctx : CallContext κ)
  {s : Stores κ} {d : Directory}

omit [DecidableEq κ] in
theorem read_of_modelValidate {id : UUID} {row : Row} {p : PolicyRead}
    (hrow : row ∈ s.table.lookup id) (hread : PolicyRead.modelValidate id row = .ok p) :
    read s id = .ok p := by
  rw [Option.mem_def] at hrow
  rw [read, hrow]
  simp only [hread]
  rfl

theorem createPolicy_serves (h : d.Shows s.table) (id : UUID) (payload : PolicyBase) :
    let out := createPolicy settings Row.fits ctx id payload s
    ∃ d', d.Serves ctx.now (.write (.create id payload)) (.of .policy out.1) d' ∧
      d'.Shows out.2.table := by
  have hread := Directory.Shows.read_created id payload ctx.now
  rw [createPolicy]
  rcases h.commit_insert id payload ctx.now with ⟨hid, hc, hcommit⟩ | ⟨hc, hcommit⟩
  · rw [commitThen_of_some hcommit, read_of_modelValidate (AList.lookup_insert _) hread]
    exact ⟨_, .created hid hc, h.set hread hc⟩
  · rw [commitThen_of_none hcommit]
    exact ⟨_, .notCreated hc, h⟩

theorem updatePolicy_serves (h : d.Shows s.table) (id : UUID) (payload : PolicyUpdate) :
    let out := updatePolicy settings Row.fits ctx id payload s
    ∃ d', d.Serves ctx.now (.write (.update id payload)) (.of .policy out.1) d' ∧
      d'.Shows out.2.table := by
  rw [updatePolicy]
  cases hrow : s.table.lookup id with
  | none => exact ⟨_, .missing rfl (h.lookup_eq_none_iff.1 hrow), h⟩
  | some row =>
    obtain ⟨p, hp, hread⟩ := h.find_of_lookup hrow
    have hfield := (PolicyRead.modelValidate_ok hread).1
    by_cases hset : payload.NonEmpty
    · simp only [if_pos hset, toPolicyPayload_eq, ← hfield]
      cases hnext : PolicyBase.validate (payload.merge p.field) with
      | error error =>
        refine ⟨_, .notUpdated hp hset fun next heq => ?_, h⟩
        rw [PolicyBase.validate_eq_ok.2 heq] at hnext
        cases hnext
      | ok next =>
        have heq := PolicyBase.validate_eq_ok.1 hnext
        have hflush := Directory.Shows.read_flush hread next ctx.now
        dsimp only
        rcases h.commit_update hrow hread next ctx.now with ⟨hc, hcommit⟩ | ⟨hc, hcommit⟩
        · rw [commitThen_of_some hcommit, read_of_modelValidate (AList.lookup_insert _) hflush]
          exact ⟨_, .updated hp hset heq hc, h.set hflush hc⟩
        · rw [commitThen_of_none hcommit]
          refine ⟨_, .notUpdated hp hset fun next' heq' => ?_, h⟩
          rw [PolicyBase.validate_eq_ok.2 heq'] at hnext
          cases hnext
          exact hc
    · simp only [if_neg hset, read_of_modelValidate hrow hread]
      exact ⟨_, .untouched hp hset, h⟩

theorem deletePolicy_serves (h : d.Shows s.table) (id : UUID) :
    let out := deletePolicy settings Row.fits ctx id s
    ∃ d', d.Serves ctx.now (.write (.delete id)) (.of (fun _ => .deleted) out.1) d' ∧
      d'.Shows out.2.table := by
  rw [deletePolicy]
  cases hrow : s.table.lookup id with
  | none => exact ⟨_, .missing rfl (h.lookup_eq_none_iff.1 hrow), h⟩
  | some row =>
    obtain ⟨p, hp, -⟩ := h.find_of_lookup hrow
    have hcommit : (Statement.delete id).commit Row.fits ctx.now s.table =
        some (s.table.erase id) := by
      simp [Statement.commit, Statement.keyFree, Statement.execute, Statement.id]
    dsimp only
    rw [commitThen_of_some hcommit]
    exact ⟨_, .deleted hp, h.remove id⟩

theorem upsertPolicyByName_serves (h : d.Shows s.table) (newId : UUID) (payload : PolicyBase) :
    let out := upsertPolicyByName settings Row.fits ctx newId payload s
    ∃ d', d.Serves ctx.now (.write (.upsert newId payload))
        (.of (fun r => .synced r.1 r.2) out.1) d' ∧ d'.Shows out.2.table := by
  rw [upsertPolicyByName]
  cases hfind : s.table.findByName payload.name with
  | none =>
    have hnone : ∀ id, ∀ p ∈ d.find id, p.name ≠ payload.name := by
      intro id p hp hname
      obtain ⟨row, hrow, hread⟩ := h.read_of_find hp
      exact Table.findByName_eq_none_iff.1 hfind id row hrow
        ((modelValidate_name hread).symm.trans hname)
    have hread := Directory.Shows.read_created newId payload ctx.now
    dsimp only
    rw [createPolicy]
    rcases h.commit_insert newId payload ctx.now with ⟨hid, hc, hcommit⟩ | ⟨hc, hcommit⟩
    · rw [commitThen_of_some hcommit, read_of_modelValidate (AList.lookup_insert _) hread]
      exact ⟨_, .upsertCreates hnone hid hc, h.set hread hc⟩
    · rw [commitThen_of_none hcommit]
      exact ⟨_, .upsertFails (fun _ => hc) fun id p hp hname => absurd hname (hnone id p hp), h⟩
  | some found =>
    obtain ⟨id, row⟩ := found
    obtain ⟨hrow, hname⟩ := h.uniqueNames.findByName_eq_some_iff.1 hfind
    obtain ⟨p, hp, hread⟩ := h.find_of_lookup hrow
    have hfield := (PolicyRead.modelValidate_ok hread).1
    rw [← modelValidate_name hread] at hname
    have hflush := Directory.Shows.read_flush hread payload ctx.now
    simp only [toPolicyPayload_eq, ← hfield]
    by_cases heq : p.field = payload.field
    · rw [if_pos heq, read_of_modelValidate hrow hread]
      exact ⟨_, .upsertFinds hp heq, h⟩
    · rw [if_neg heq]
      rcases h.commit_update hrow hread payload ctx.now with ⟨hc, hcommit⟩ | ⟨hc, hcommit⟩
      · rw [commitThen_of_some hcommit, read_of_modelValidate (AList.lookup_insert _) hflush]
        exact ⟨_, .upsertUpdates hp hname heq hc, h.set hflush hc⟩
      · rw [commitThen_of_none hcommit]
        refine ⟨_, .upsertFails (fun hnone => absurd hname (hnone id p hp)) ?_, h⟩
        intro id' p' hp' hname'
        obtain rfl := d.name_unique _ _ _ hp _ hp' (hname.trans hname'.symm)
        obtain rfl := Option.mem_unique hp hp'
        exact ⟨heq, hc⟩

omit [DecidableEq κ] in
theorem read_serves (h : d.Shows s.table) (now : ℤ) (id : UUID) :
    d.Serves now (.get id) (.of .policy (read s id)) d := by
  cases hrow : s.table.lookup id with
  | none =>
    rw [read, hrow]
    exact .missing rfl (h.lookup_eq_none_iff.1 hrow)
  | some row =>
    obtain ⟨p, hp, hread⟩ := h.find_of_lookup hrow
    rw [read_of_modelValidate hrow hread]
    exact .found hp

end PolicyService

end RateLimiter
