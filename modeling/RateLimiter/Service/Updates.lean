import RateLimiter.Database.Validity
import RateLimiter.Service.PolicyService

/-!
# `update_policy` as an atomic overlay

An update that runs alone either replaces its row by the overlay of the fields it sets, or changes
nothing at all.  Which of the two is decided by the row, the payload and the names of the other
rows, before anything is written.
-/

set_option autoImplicit false

namespace RateLimiter

theorem Row.columns_name (row : Row) : row.columns .name = some row.name := by
  simp [Row.name, Row.get]

/-- An update goes through: it sets something, the overlay is a valid policy, its name is no other
row's and the columns hold it. -/
structure UpdateAccepted (table : Table) (id : UUID) (payload : PolicyUpdate) (row : Row) :
    Prop where
  nonEmpty : payload.NonEmpty
  valid : (payload.merge row.columns).Valid
  nameFree : ∀ id' ≠ id, ∀ row' ∈ table.lookup id',
    payload.merge row.columns .name ≠ some row'.name
  fits : (payload.merge row.columns).FitsColumns
  fitsVersion : fitsInteger (row.version + 1) = true

/-- The row an update leaves: the fields it sets, and the others as they were. -/
structure Row.Overlaid (payload : PolicyUpdate) (now : ℤ) (row row' : Row) : Prop where
  set : ∀ f v, payload.set f = some v → row'.columns f = v
  unset : ∀ f, payload.set f = none → row'.columns f = row.columns f
  version : row'.version = row.version + 1
  createdAt : row'.createdAt = row.createdAt
  updatedAt : row'.updatedAt = now

section

variable {κ : Type} [DecidableEq κ] (settings : CacheSettings) (ctx : CallContext κ) {id : UUID}
  {payload : PolicyUpdate} {s : Stores κ} {row : Row} {next : PolicyBase}

theorem Row.flush_overlaid (h : next.field = payload.merge row.columns) (now : ℤ) :
    row.Overlaid payload now (row.flush row next now) where
  set f v hv := by simp [Row.flush_self, h, PolicyUpdate.merge, hv]
  unset f hf := by simp [Row.flush_self, h, PolicyUpdate.merge, hf]
  version := rfl
  createdAt := rfl
  updatedAt := rfl

/-- What the database checks at the commit. -/
theorem commit_accepts_iff (h : next.field = payload.merge row.columns) (table : Table) (now : ℤ) :
    (table.nameTaken id (row.flush row next now) = false ∧ (row.flush row next now).fits = true) ↔
      (∀ id' ≠ id, ∀ row' ∈ table.lookup id', payload.merge row.columns .name ≠ some row'.name) ∧
      (payload.merge row.columns).FitsColumns ∧ fitsInteger (row.version + 1) = true := by
  have hcolumns : (row.flush row next now).columns = payload.merge row.columns := by
    rw [Row.flush_self, h]
  refine and_congr ?_ ?_
  · rw [Bool.eq_false_iff, Ne, Table.nameTaken_eq_true_iff, ← hcolumns, Row.columns_name]
    simp only [not_exists, not_and, ne_eq, Option.some_inj]
    exact forall₂_congr fun _ _ => forall₂_congr fun _ _ => not_congr eq_comm
  · simp only [Row.fits, Row.FitsColumns, hcolumns, decide_eq_true_eq]
    rfl

/-- **An accepted update replaces the row and invalidates the caches**, and returns the policy as it
is now. -/
theorem updatePolicy_of_accepted (hrow : row ∈ s.table.lookup id)
    (h : UpdateAccepted s.table id payload row) : ∃ p row', row.Overlaid payload ctx.now row' ∧
      PolicyService.updatePolicy settings Row.fits ctx id payload s =
        (.ok p, ⟨s.table.insert id row',
          invalidatePolicyCache settings ctx.host ctx.out s.caches⟩) := by
  obtain ⟨next, hnext⟩ := PolicyBase.validate_isOk_iff.2 h.valid
  have hfield := PolicyBase.validate_eq_ok.1 hnext
  have hcommit : (Statement.update id row next).commit Row.fits ctx.now s.table =
      some (s.table.insert id (row.flush row next ctx.now)) := by
    rw [Statement.commit_update _ _ _ hrow,
      if_pos ((commit_accepts_iff hfield _ _).2 ⟨h.nameFree, h.fits, h.fitsVersion⟩)]
  have hcolumns := Row.flush_self row next ctx.now
  refine ⟨⟨next, id, row.version + 1, row.createdAt, ctx.now⟩, row.flush row next ctx.now,
    Row.flush_overlaid hfield ctx.now, ?_⟩
  rw [PolicyService.updatePolicy, hrow]
  simp only [toPolicyPayload_eq, if_pos h.nonEmpty, hnext]
  rw [PolicyService.commitThen_of_some hcommit,
    PolicyService.read_eq_ok (AList.lookup_insert _) hcolumns]
  rfl

/-- **Any other update leaves everything as it was**, the caches included, and raises. -/
theorem updatePolicy_of_not_accepted
    (h : ∀ row ∈ s.table.lookup id, ¬UpdateAccepted s.table id payload row) :
    (PolicyService.updatePolicy settings Row.fits ctx id payload s).2 = s := by
  rw [PolicyService.updatePolicy]
  cases hrow : s.table.lookup id with
  | none => rfl
  | some row =>
    dsimp only
    by_cases hne : payload.NonEmpty
    · rw [if_pos hne, toPolicyPayload_eq]
      cases hnext : PolicyBase.validate (payload.merge row.columns) with
      | error error => rfl
      | ok next =>
        -- What is left to fail is the commit.
        have hvalid := PolicyBase.validate_isOk_iff.1 ⟨next, hnext⟩
        have hfield := PolicyBase.validate_eq_ok.1 hnext
        have hcommit : (Statement.update id row next).commit Row.fits ctx.now s.table = none := by
          rw [Statement.commit_update _ _ _ hrow, if_neg]
          intro hacc
          obtain ⟨hname, hfits, hversion⟩ := (commit_accepts_iff hfield _ _).1 hacc
          exact h row hrow ⟨hne, hvalid, hname, hfits, hversion⟩
        dsimp only
        rw [PolicyService.commitThen_of_none hcommit]
    · rw [if_neg hne]

end

variable {κ : Type} [DecidableEq κ]

/-- **`update_policy` is an atomic, validated overlay.**  Alone, it changes the table exactly if the
row exists and the update is accepted.  Then the row becomes the overlay, all other rows stay and,
with Redis reachable, both caches are empty.  In every other case the table and the caches are as
before. -/
theorem update_policy_is_atomic_overlay (settings : CacheSettings) (ctx : CallContext κ)
    (id : UUID) (payload : PolicyUpdate) (s : Stores κ) :
    let run := PolicyService.updatePolicy settings Row.fits ctx id payload s
    (run.2.table ≠ s.table ↔
      ∃ row ∈ s.table.lookup id, UpdateAccepted s.table id payload row) ∧
    (∀ row ∈ s.table.lookup id, UpdateAccepted s.table id payload row →
      (∃ p, run.1 = .ok p) ∧
      (∃ row' ∈ run.2.table.lookup id, row.Overlaid payload ctx.now row') ∧
      (∀ id' ≠ id, run.2.table.lookup id' = s.table.lookup id') ∧
      ((∀ op, ctx.out op = .replied) →
        run.2.caches.entry = none ∧ run.2.caches.snapshot ctx.host = none)) ∧
    ((¬∃ row ∈ s.table.lookup id, UpdateAccepted s.table id payload row) → run.2 = s) := by
  have haccepted : ∀ row ∈ s.table.lookup id, UpdateAccepted s.table id payload row →
      (∃ p, (PolicyService.updatePolicy settings Row.fits ctx id payload s).1 = .ok p) ∧
      ∃ row', row.Overlaid payload ctx.now row' ∧
        (PolicyService.updatePolicy settings Row.fits ctx id payload s).2 =
          ⟨s.table.insert id row', invalidatePolicyCache settings ctx.host ctx.out s.caches⟩ := by
    intro row hrow h
    obtain ⟨p, row', hover, hrun⟩ := updatePolicy_of_accepted settings ctx hrow h
    rw [hrun]
    exact ⟨⟨p, rfl⟩, row', hover, rfl⟩
  have hrest : (¬∃ row ∈ s.table.lookup id, UpdateAccepted s.table id payload row) →
      (PolicyService.updatePolicy settings Row.fits ctx id payload s).2 = s := fun h =>
    updatePolicy_of_not_accepted settings ctx fun row hrow hacc => h ⟨row, hrow, hacc⟩
  refine ⟨⟨fun hne => by_contra fun h => hne ?_, ?_⟩, fun row hrow h => ?_, hrest⟩
  · rw [hrest h]
  · rintro ⟨row, hrow, h⟩ heq
    -- The version tells the new row from the old one.
    obtain ⟨-, row', hover, hrun⟩ := haccepted row hrow h
    rw [hrun] at heq
    have hrow' : row' ∈ s.table.lookup id := by
      rw [← heq]
      exact AList.lookup_insert _
    have hversion := hover.version
    rw [Option.mem_unique hrow' hrow] at hversion
    omega
  · obtain ⟨hok, row', hover, hrun⟩ := haccepted row hrow h
    rw [hrun]
    exact ⟨hok, ⟨row', AList.lookup_insert _, hover⟩, fun id' hne => AList.lookup_insert_ne hne,
      fun hout => invalidatePolicyCache_replied hout s.caches⟩

/-- A new rate for the sample policy. -/
theorem update_policy_is_atomic_overlay_sample :
    let run := PolicyService.updatePolicy ⟨30, 30, true⟩ Row.fits ⟨(), 1, fun _ => .replied⟩ .sample
      (.only .rate (some 3) (by decide)) ⟨.sample, Caches.empty Unit⟩
    run.2.table ≠ Table.sample ∧
      (∃ row' ∈ run.2.table.lookup .sample, row'.columns .rate = some 3 ∧ row'.version = 2) ∧
      run.2.caches.entry = none := by
  intro run
  have hrow : Row.created (PolicyRead.sample .tokenBucket 1).toPolicyBase 0 ∈
      Table.sample.lookup .sample := AList.lookup_insert _
  have haccepted : UpdateAccepted .sample .sample (.only .rate (some 3) (by decide))
      (Row.created (PolicyRead.sample .tokenBucket 1).toPolicyBase 0) :=
    { nonEmpty := by decide
      valid := by decide
      nameFree := fun id' hne row' hrow' => by
        rw [Table.sample, AList.lookup_insert_ne hne] at hrow'
        cases hrow'
      fits := by decide
      fitsVersion := by decide }
  have h := update_policy_is_atomic_overlay ⟨30, 30, true⟩ ⟨(), 1, fun _ => .replied⟩ .sample
    (.only .rate (some 3) (by decide)) ⟨.sample, Caches.empty Unit⟩
  obtain ⟨-, ⟨row', hrow', hover⟩, -, hcaches⟩ := h.2.1 _ hrow haccepted
  exact ⟨h.1.2 ⟨_, hrow, haccepted⟩, ⟨row', hrow', hover.set .rate _ rfl, hover.version⟩,
    (hcaches fun _ => rfl).1⟩

end RateLimiter
