import RateLimiter.Policy.Keys
import RateLimiter.Database.Validity
import RateLimiter.Lib.FirstMaximum

/-!
# Which policy applies

`select_best_policy` takes the first maximum of a score over the active policies that match.  The
score leaves ties; what settles them is the order of the query behind the list, which sorts by
`updated_at` and `name` among policies of one priority.  Together the two are one total order on
the policies of a table, `PolicyRead.rank`, and the result is its greatest element.
-/

set_option autoImplicit false

namespace RateLimiter

/-! ## The score -/

/-- The selectors that are not `None`: a policy that sets more of them is the more specific one. -/
def specificity (policy : PolicyBase) : ℕ :=
  [Field.route, .userId, .ipAddress, .tenantId, .apiKey].countP fun f => (policy.field f).isSome

/-- `selector_weight`: by the weights of the source, so that policies with equally many selectors
are told apart by which they set. -/
def selectorWeight (policy : PolicyBase) : ℕ :=
  (if (policy.field .userId).isSome then 20 else 0) +
  (if (policy.field .apiKey).isSome then 18 else 0) +
  (if (policy.field .tenantId).isSome then 16 else 0) +
  (if (policy.field .ipAddress).isSome then 14 else 0) +
  (if (policy.field .route).isSome then 12 else 0)

/-- The tuples of `policy_score`, compared in the order Python compares tuples. -/
def PolicyScore : Type := ℕ ×ₗ ℕ ×ₗ ℤ ×ₗ ℤ

instance : LinearOrder PolicyScore := inferInstanceAs (LinearOrder (ℕ ×ₗ ℕ ×ₗ ℤ ×ₗ ℤ))

/-- `policy_score`: how specific the policy is comes first, then its selectors, then its priority
and its version. -/
def policyScore (policy : PolicyRead) : PolicyScore :=
  toLex (specificity policy.toPolicyBase, toLex (selectorWeight policy.toPolicyBase,
    toLex (policy.priority, policy.version)))

/-- `select_best_policy`: `max` over the policies that match, which returns the first of those with
the largest score. -/
def selectBestPolicy (policies : List PolicyRead) (identity : RequestIdentity) :
    Option PolicyRead :=
  (policies.filter fun policy =>
    policy.active && policyMatches policy.toPolicyBase identity).argmax policyScore

/-- What policies are told apart by, once the order in which the query lists them is counted in. -/
def PolicyRank : Type := PolicyScore ×ₗ ℤ ×ₗ Stringᵒᵈ

instance : LinearOrder PolicyRank := inferInstanceAs (LinearOrder (PolicyScore ×ₗ ℤ ×ₗ Stringᵒᵈ))

/-- The score, then the later `updated_at`, then the smaller `name`. -/
def PolicyRead.rank (policy : PolicyRead) : PolicyRank :=
  toLex (policyScore policy, toLex (policy.updatedAt, OrderDual.toDual policy.name))

theorem PolicyRead.rank_le_iff {p q : PolicyRead} : p.rank ≤ q.rank ↔
    policyScore p < policyScore q ∨ policyScore p = policyScore q ∧
      (p.updatedAt < q.updatedAt ∨ p.updatedAt = q.updatedAt ∧ q.name ≤ p.name) :=
  Prod.Lex.toLex_le_toLex.trans
    (or_congr Iff.rfl (and_congr Iff.rfl Prod.Lex.toLex_le_toLex))

theorem PolicyRead.rank_le_of_score_lt {p q : PolicyRead} (h : policyScore p < policyScore q) :
    p.rank ≤ q.rank :=
  rank_le_iff.2 (Or.inl h)

theorem priority_eq_of_score_eq {p q : PolicyRead} (h : policyScore p = policyScore q) :
    p.priority = q.priority :=
  congrArg (fun score : ℕ ×ₗ ℕ ×ₗ ℤ ×ₗ ℤ => (ofLex (ofLex (ofLex score).2).2).1) h

/-! ## The list -/

/-- The policy is how a row of the table reads. -/
def Table.Reads (table : Table) (p : PolicyRead) : Prop :=
  ∃ row ∈ table.lookup p.id, PolicyRead.modelValidate p.id row = .ok p

/-- The policies that apply to a request: those active that match. -/
def Table.Applies (table : Table) (identity : RequestIdentity) (p : PolicyRead) : Prop :=
  table.Reads p ∧ p.active = true ∧ policyMatches p.toPolicyBase identity = true

variable {table table' : Table} {ps ps' : List PolicyRead} {identity : RequestIdentity}
  {p q : PolicyRead}

theorem map_eq_of_mapM {α β ε : Type} {g : α → Except ε β} {l : List α} {bs : List β}
    (h : l.mapM g = .ok bs) : l.map g = bs.map .ok := by
  induction l generalizing bs with
  | nil =>
    cases h
    rfl
  | cons a l ih =>
    rw [List.mapM_cons] at h
    cases ha : g a with
    | error e => simp [ha, bind, Except.bind] at h
    | ok b =>
      cases hl : l.mapM g with
      | error e => simp [ha, hl, bind, Except.bind] at h
      | ok bs' =>
        have h : b :: bs' = bs := by simpa [ha, hl, bind, Except.bind, pure, Except.pure] using h
        rw [← h, List.map_cons, List.map_cons, ha, ih hl]

theorem modelValidate_updatedAt {id : UUID} {row : Row}
    (h : PolicyRead.modelValidate id row = .ok p) : p.updatedAt = row.updatedAt := by
  rw [PolicyRead.modelValidate] at h
  cases hv : PolicyBase.validate (toPolicyPayload row) with
  | error e => simp [hv, Except.map] at h
  | ok b =>
    simp only [hv, Except.map, Except.ok.injEq] at h
    rw [← h]

theorem modelValidate_createdAt {id : UUID} {row : Row}
    (h : PolicyRead.modelValidate id row = .ok p) : p.createdAt = row.createdAt := by
  rw [PolicyRead.modelValidate] at h
  cases hv : PolicyBase.validate (toPolicyPayload row) with
  | error e => simp [hv, Except.map] at h
  | ok b =>
    simp only [hv, Except.map, Except.ok.injEq] at h
    rw [← h]

section ModelValidate

variable {id : UUID} {row : Row} (h : PolicyRead.modelValidate id row = .ok p)
include h

theorem modelValidate_name : p.name = row.name := by
  simp only [Row.name, Row.get, PolicyBase.name, (PolicyRead.modelValidate_ok h).1]

theorem modelValidate_active : p.active = row.get .active rfl := by
  simp only [Row.get, PolicyBase.active, (PolicyRead.modelValidate_ok h).1]

/-- The query sorts the policies by their own fields. -/
theorem modelValidate_sortKey :
    row.sortKey = toLex (-p.priority, toLex (-p.updatedAt, p.name)) := by
  rw [modelValidate_updatedAt h, modelValidate_name h, Row.sortKey]
  simp only [Row.get, PolicyBase.priority, (PolicyRead.modelValidate_ok h).1]

end ModelValidate

theorem Table.Reads.of_modelValidate {id : UUID} {row : Row} (hrow : row ∈ table.lookup id)
    (h : PolicyRead.modelValidate id row = .ok p) : table.Reads p := by
  obtain ⟨-, rfl, -⟩ := PolicyRead.modelValidate_ok h
  exact ⟨row, hrow, h⟩

/-- With unique names a table has one policy of a name. -/
theorem Table.UniqueNames.eq_of_name_eq (hnames : table.UniqueNames) (hp : table.Reads p)
    (hq : table.Reads q) (h : p.name = q.name) : p = q := by
  obtain ⟨row, hrow, hp⟩ := hp
  obtain ⟨row', hrow', hq⟩ := hq
  rw [modelValidate_name hp, modelValidate_name hq] at h
  have hid := hnames _ _ _ _ hrow hrow' h
  rw [hid] at hrow hp
  obtain rfl := Option.mem_unique hrow hrow'
  exact Except.ok.inj (hp.symm.trans hq)

/-- The policies of a list are those of the active rows. -/
theorem mem_listPolicies (h : listPolicies true table = .ok ps) :
    p ∈ ps ↔ table.Reads p ∧ p.active = true := by
  have hmap := map_eq_of_mapM h
  have hps : p ∈ ps ↔ Except.ok p ∈ ps.map (Except.ok (ε := ValidationError)) := by simp
  rw [hps, ← hmap]
  constructor
  · intro hp
    obtain ⟨e, he, hp⟩ := List.mem_map.1 hp
    rw [selectPolicies, List.mem_insertionSort, List.mem_filter] at he
    have hactive : e.2.get .active rfl = true := by simpa using he.2
    exact ⟨.of_modelValidate (AList.mem_lookup_iff.2 he.1) hp,
      (modelValidate_active hp).trans hactive⟩
  · rintro ⟨⟨row, hrow, hp⟩, hactive⟩
    refine List.mem_map.2 ⟨⟨p.id, row⟩, ?_, hp⟩
    rw [selectPolicies, List.mem_insertionSort, List.mem_filter]
    exact ⟨AList.mem_lookup_iff.1 hrow, by simpa [modelValidate_active hp] using hactive⟩

/-- Policies of one score are listed from the greatest rank down. -/
theorem listPolicies_ties (h : listPolicies true table = .ok ps) :
    ps.Pairwise fun p q => policyScore p = policyScore q → q.rank ≤ p.rank := by
  have hkeys : (ps.map (Except.ok (ε := ValidationError))).Pairwise fun x y =>
      ∀ p q, x = .ok p → y = .ok q →
        toLex (-p.priority, toLex (-p.updatedAt, p.name)) ≤
          toLex (-q.priority, toLex (-q.updatedAt, q.name)) := by
    rw [← map_eq_of_mapM h, List.pairwise_map]
    refine (List.pairwise_insertionSort _ _).imp fun hle p q hp hq => ?_
    rwa [modelValidate_sortKey hp, modelValidate_sortKey hq] at hle
  rw [List.pairwise_map] at hkeys
  refine hkeys.imp fun hle hscore => ?_
  have hpriority := priority_eq_of_score_eq hscore
  have hle := hle _ _ rfl rfl
  simp only [Prod.Lex.toLex_le_toLex, hpriority, lt_irrefl, true_and, false_or, neg_lt_neg_iff,
    neg_inj] at hle
  refine PolicyRead.rank_le_iff.2 (Or.inr ⟨hscore.symm, ?_⟩)
  rcases hle with hlt | ⟨heq, hname⟩
  · exact Or.inl hlt
  · exact Or.inr ⟨heq.symm, hname⟩

theorem name_eq_of_rank_eq (h : p.rank = q.rank) : p.name = q.name :=
  congrArg (fun rank : PolicyScore ×ₗ ℤ ×ₗ Stringᵒᵈ =>
    OrderDual.ofDual (ofLex (ofLex rank).2).2) h

/-! ## The result -/

/-- **What is selected is the greatest of the policies that apply**, in the order of their ranks, of
which no two are equal. -/
theorem selectBestPolicy_eq_some_iff (hnames : table.UniqueNames)
    (h : listPolicies true table = .ok ps) : selectBestPolicy ps identity = some p ↔
      table.Applies identity p ∧ ∀ q, table.Applies identity q → q.rank ≤ p.rank := by
  have hmem : ∀ q, q ∈ ps.filter (fun policy =>
      policy.active && policyMatches policy.toPolicyBase identity) ↔
      table.Applies identity q := by
    intro q
    simp only [List.mem_filter, mem_listPolicies h, Bool.and_eq_true, Table.Applies]
    tauto
  have hgreatest := FirstMaximum.mem_argmax_iff (m := p)
    (fun _ _ => PolicyRead.rank_le_of_score_lt) ((listPolicies_ties h).filter _)
    fun a ha b hb hab =>
      hnames.eq_of_name_eq ((hmem a).1 ha).1 ((hmem b).1 hb).1 (name_eq_of_rank_eq hab)
  rw [selectBestPolicy, ← Option.mem_def, hgreatest, hmem]
  simp only [hmem]

theorem selectBestPolicy_eq_none_iff (h : listPolicies true table = .ok ps) :
    selectBestPolicy ps identity = none ↔ ∀ p, ¬table.Applies identity p := by
  simp only [selectBestPolicy, List.argmax_eq_none, List.filter_eq_nil_iff, mem_listPolicies h,
    Bool.and_eq_true, Table.Applies]
  exact ⟨fun hnone p hp => hnone p ⟨hp.1, hp.2.1⟩ hp.2,
    fun hnone p hp hmatch => hnone p ⟨hp.1, hmatch⟩⟩

/-- A row that cannot change a result: it is inactive, does not match or ranks lower. -/
def Row.Irrelevant (identity : RequestIdentity) (result : Option PolicyRead) (id : UUID)
    (row : Row) : Prop :=
  ∀ p, PolicyRead.modelValidate id row = .ok p →
    p.active = false ∨ policyMatches p.toPolicyBase identity = false ∨
      ∃ best ∈ result, p.rank < best.rank

/-- The tables have the same rows but for irrelevant ones. -/
def Table.SameRelevant (identity : RequestIdentity) (result : Option PolicyRead)
    (table table' : Table) : Prop :=
  ∀ id, table.lookup id = table'.lookup id ∨
    (∀ row ∈ table.lookup id, row.Irrelevant identity result id) ∧
      ∀ row ∈ table'.lookup id, row.Irrelevant identity result id

theorem Table.SameRelevant.symm {result : Option PolicyRead}
    (h : table.SameRelevant identity result table') : table'.SameRelevant identity result table :=
  fun id => (h id).imp Eq.symm And.symm

/-- A policy that applies to one of the tables applies to the other, or ranks below the result. -/
theorem Table.SameRelevant.applies {result : Option PolicyRead}
    (h : table.SameRelevant identity result table') (hp : table.Applies identity p) :
    table'.Applies identity p ∨ ∃ best ∈ result, p.rank < best.rank := by
  obtain ⟨⟨row, hrow, hread⟩, hactive, hmatch⟩ := hp
  rcases h p.id with heq | ⟨hlow, -⟩
  · exact Or.inl ⟨⟨row, heq ▸ hrow, hread⟩, hactive, hmatch⟩
  · rcases hlow row hrow p hread with h | h | h
    · rw [hactive] at h
      cases h
    · rw [hmatch] at h
      cases h
    · exact Or.inr h

/-- **Irrelevant rows can come and go without changing the result**, though they change the list
that is searched. -/
theorem selectBestPolicy_eq_of_sameRelevant (hnames : table.UniqueNames)
    (hnames' : table'.UniqueNames) (h : listPolicies true table = .ok ps)
    (h' : listPolicies true table' = .ok ps')
    (hsame : table.SameRelevant identity (selectBestPolicy ps identity) table') :
    selectBestPolicy ps' identity = selectBestPolicy ps identity := by
  cases hbest : selectBestPolicy ps identity with
  | none =>
    rw [hbest] at hsame
    refine (selectBestPolicy_eq_none_iff h').2 fun p hp => ?_
    rcases hsame.symm.applies hp with hp | ⟨best, hb, -⟩
    · exact (selectBestPolicy_eq_none_iff h).1 hbest p hp
    · cases hb
  | some best =>
    rw [hbest] at hsame
    obtain ⟨happlies, hgreatest⟩ := (selectBestPolicy_eq_some_iff hnames h).1 hbest
    refine (selectBestPolicy_eq_some_iff hnames' h').2 ⟨?_, fun q hq => ?_⟩
    · rcases hsame.applies happlies with happlies | ⟨_, ⟨⟩, hlt⟩
      · exact happlies
      · exact absurd hlt (lt_irrefl _)
    · rcases hsame.symm.applies hq with hq | ⟨_, ⟨⟩, hlt⟩
      · exact hgreatest q hq
      · exact hlt.le

/-- **Resolution is the maximum of one total order.**  Nothing is selected exactly when no policy
applies; otherwise the one policy that ranks above all others that apply is; and rows that are
inactive, do not match or rank lower never change the result. -/
theorem resolution_is_greatest (hnames : table.UniqueNames) (h : listPolicies true table = .ok ps)
    (identity : RequestIdentity) :
    (selectBestPolicy ps identity = none ↔ ∀ p, ¬table.Applies identity p) ∧
    (∀ p, selectBestPolicy ps identity = some p ↔
      table.Applies identity p ∧ ∀ q, table.Applies identity q → q ≠ p → q.rank < p.rank) ∧
    ∀ table' ps', table'.UniqueNames → listPolicies true table' = .ok ps' →
      table.SameRelevant identity (selectBestPolicy ps identity) table' →
        selectBestPolicy ps' identity = selectBestPolicy ps identity := by
  refine ⟨selectBestPolicy_eq_none_iff h, fun p => ?_,
    fun table' ps' hnames' h' => selectBestPolicy_eq_of_sameRelevant hnames hnames' h h'⟩
  rw [selectBestPolicy_eq_some_iff hnames h]
  refine and_congr_right fun hp => forall₂_congr fun q hq => ?_
  constructor
  · intro hle hne
    exact hle.lt_of_ne fun heq => hne (hnames.eq_of_name_eq hq.1 hp.1 (name_eq_of_rank_eq heq))
  · intro hlt
    rcases eq_or_ne q p with rfl | hne
    · exact le_rfl
    · exact (hlt hne).le

/-- A fixed window of the name, with what decides its rank. -/
def Row.ranking (name : String) (userId : Option String) (priority : ℤ) (active : Bool)
    (updatedAt : ℤ) : Row where
  columns
    | .userId => userId
    | .priority => some priority
    | .active => some active
    | f => Payload.ofRequired name 2 60 f
  notNull f hf := by cases f <;> first | rfl | cases hf
  version := 1
  createdAt := 0
  updatedAt := updatedAt

/-- Two policies that only their names tell apart. -/
def Table.tied : Table :=
  AList.insert ⟨"00000000-0000-4000-8000-0000000000a1", by decide⟩
    (Row.ranking "retries" (some "u") 7 true 5)
    (AList.insert ⟨"00000000-0000-4000-8000-0000000000a2", by decide⟩
      (Row.ranking "logins" (some "u") 7 true 5) ∅)

/-- With them one of the same score that was last changed earlier, one of a higher priority without
a selector, and an inactive one. -/
def Table.ties : Table :=
  AList.insert ⟨"00000000-0000-4000-8000-0000000000a3", by decide⟩
    (Row.ranking "archived" (some "u") 9 false 6)
    (AList.insert ⟨"00000000-0000-4000-8000-0000000000a4", by decide⟩
      (Row.ranking "everything" none 9 true 6)
      (AList.insert ⟨"00000000-0000-4000-8000-0000000000a5", by decide⟩
        (Row.ranking "uploads" (some "u") 7 true 4) Table.tied))

theorem Table.tied_uniqueNames : Table.tied.UniqueNames :=
  .insert (.insert (fun _ _ _ _ h => by cases h) rfl) (by decide +kernel)

theorem Table.ties_uniqueNames : Table.ties.UniqueNames :=
  .insert (.insert (.insert Table.tied_uniqueNames (by decide +kernel)) (by decide +kernel))
    (by decide +kernel)

/-- A row of another policy than the one that is selected is irrelevant. -/
theorem Row.irrelevant_of_ne {id : UUID} {row : Row} (hnames : table.UniqueNames)
    (h : listPolicies true table = .ok ps) (hbest : selectBestPolicy ps identity = some p)
    (hrow : row ∈ table.lookup id) (hid : id ≠ p.id) : row.Irrelevant identity (some p) id := by
  intro q hq
  obtain ⟨-, rfl, -⟩ := PolicyRead.modelValidate_ok hq
  by_cases happlies : table.Applies identity q
  · have hle := ((selectBestPolicy_eq_some_iff hnames h).1 hbest)
    refine Or.inr (Or.inr ⟨p, rfl, (hle.2 q happlies).lt_of_ne fun heq => hid ?_⟩)
    rw [hnames.eq_of_name_eq happlies.1 hle.1.1 (name_eq_of_rank_eq heq)]
  · have hreads := Table.Reads.of_modelValidate hrow hq
    cases hactive : q.active with
    | false => exact Or.inl rfl
    | true =>
      refine Or.inr (Or.inl (Bool.eq_false_iff.2 fun hmatch => happlies ⟨hreads, hactive, hmatch⟩))

/-- The name settles the tie, and without the three others the result is the same. -/
theorem resolution_is_greatest_sample :
    ∃ ps p, listPolicies true Table.ties = .ok ps ∧ selectBestPolicy ps .sample = some p ∧
      p.name = "logins" ∧ (ps.filter fun q => policyScore q = policyScore p).length = 3 ∧
      (∀ q, Table.ties.Applies .sample q → q ≠ p → q.rank < p.rank) ∧
      ∀ ps', listPolicies true Table.tied = .ok ps' → selectBestPolicy ps' .sample = some p := by
  have hbest : ∃ ps ∈ (listPolicies true Table.ties).toOption,
      ∃ p ∈ selectBestPolicy ps .sample,
        p.name = "logins" ∧ p.id.str = "00000000-0000-4000-8000-0000000000a2" ∧
        (ps.filter fun q => policyScore q = policyScore p).length = 3 := by
    decide +kernel
  obtain ⟨ps, hps, p, hp, hname, hid, hscore⟩ := hbest
  have hps : listPolicies true Table.ties = .ok ps := by
    cases hlist : listPolicies true Table.ties with
    | error error => simp [hlist, Except.toOption] at hps
    | ok ps' => simpa [hlist, Except.toOption] using hps
  have hp : selectBestPolicy ps .sample = some p := hp
  have hgone : ∀ id : UUID, id.str ≠ "00000000-0000-4000-8000-0000000000a2" →
      Table.tied.lookup id = none →
      (∀ row ∈ Table.ties.lookup id, row.Irrelevant .sample (some p) id) ∧
        ∀ row ∈ Table.tied.lookup id, row.Irrelevant .sample (some p) id := by
    intro id hne hnone
    refine ⟨fun row hrow => ?_, fun row hrow => by rw [hnone] at hrow; cases hrow⟩
    exact Row.irrelevant_of_ne Table.ties_uniqueNames hps hp hrow fun h => hne (h ▸ hid)
  have hsame : Table.ties.SameRelevant .sample (selectBestPolicy ps .sample) Table.tied := by
    intro id
    rw [hp]
    by_cases h₃ : id = ⟨"00000000-0000-4000-8000-0000000000a3", by decide⟩
    · exact Or.inr (hgone id (by rw [h₃]; decide) (by rw [h₃]; rfl))
    by_cases h₄ : id = ⟨"00000000-0000-4000-8000-0000000000a4", by decide⟩
    · exact Or.inr (hgone id (by rw [h₄]; decide) (by rw [h₄]; rfl))
    by_cases h₅ : id = ⟨"00000000-0000-4000-8000-0000000000a5", by decide⟩
    · exact Or.inr (hgone id (by rw [h₅]; decide) (by rw [h₅]; rfl))
    · left
      rw [Table.ties, AList.lookup_insert_ne h₃, AList.lookup_insert_ne h₄,
        AList.lookup_insert_ne h₅]
  have h := resolution_is_greatest Table.ties_uniqueNames hps .sample
  exact ⟨ps, p, hps, hp, hname, hscore, ((h.2.1 p).1 hp).2, fun ps' hps' =>
    (h.2.2 Table.tied ps' Table.tied_uniqueNames hps' hsame).trans hp⟩

end RateLimiter
