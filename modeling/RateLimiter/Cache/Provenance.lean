import RateLimiter.Cache.Freshness
import RateLimiter.Database.Versions
import RateLimiter.Policy.Resolution

/-!
# Where policy lists come from

Calls interleave and Redis operations fail, but a policy list only ever comes from the query: what
is cached, carried or returned is what `list_policies` gave on a table the database has held
(`PolicyFleet.FromHistory`).  A row of such a table was committed, so a policy on a list is a row of
the log; while versions increase, its id and version say which one
(`VersionsIncrease.committed_unique`).
-/

set_option autoImplicit false

namespace RateLimiter

/-! ## Lists -/

namespace PolicyFleet

variable {κ : Type} {P Q : List PolicyRead → Prop} {s s' : PolicyFleet κ}

/-- Every list that is cached, or that a call has in its hands, satisfies `P`. -/
structure OnlyLists (P : List PolicyRead → Prop) (s : PolicyFleet κ) : Prop where
  entry : ∀ e ∈ s.caches.entry, P e.policies
  snapshot : ∀ i, ∀ snapshot ∈ s.caches.snapshot i, P snapshot.policies
  carried : ∀ m, ∀ r ∈ s.lists m, ∀ policies, r.phase.carried = some (.ok policies) → P policies

theorem OnlyLists.mono (h : s.OnlyLists P) (hP : ∀ policies, P policies → Q policies) :
    s.OnlyLists Q :=
  ⟨fun e he => hP _ (h.entry e he), fun i sn hsn => hP _ (h.snapshot i sn hsn),
    fun m r hr policies hc => hP _ (h.carried m r hr policies hc)⟩

variable [DecidableEq κ] {settings : CacheSettings} {i : κ} {now : ℚ}
  {out : CacheOp → RedisOutcome} {table : Table} {e : CacheEvent κ}

/-- A step of a list call gets its list from the caches, from the call or from the query. -/
theorem OnlyLists.of_effect (h : s.OnlyLists P)
    (hread : ∀ policies, listPolicies true table = .ok policies → P policies)
    {call call' : ListCall} (hcall : ∀ policies, call.carried = some (.ok policies) → P policies)
    {c' : Caches κ} (heff : ListCall.Effect settings i now out table s.caches call c' call') :
    (∀ e ∈ c'.entry, P e.policies) ∧
      (∀ j, ∀ snapshot ∈ c'.snapshot j, P snapshot.policies) ∧
      ∀ policies, call'.carried = some (.ok policies) → P policies := by
  have hentry := h.entry
  have hsnapshot := h.snapshot
  cases heff with
  | hit he =>
    refine ⟨hentry, hsnapshot, ?_⟩
    rintro _ ⟨⟩
    exact hentry _ he
  | fresh hs =>
    refine ⟨hentry, hsnapshot, ?_⟩
    rintro _ ⟨⟩
    exact hsnapshot i _ hs
  | @reads missed policies hl =>
    refine ⟨hentry, hsnapshot, ?_⟩
    cases missed <;>
    · rintro _ ⟨⟩
      exact hread _ hl
  | stores policies =>
    refine ⟨?_, hsnapshot, hcall⟩
    rintro _ ⟨⟩
    exact hcall policies rfl
  | skips policies => exact ⟨hentry, hsnapshot, hcall⟩
  | keeps policies =>
    refine ⟨hentry, fun j snapshot hs => ?_, hcall⟩
    rcases Transition.mem_update_some hs with ⟨-, rfl⟩ | hs
    · exact hcall policies rfl
    · exact hsnapshot j snapshot hs
  | miss | unanswered | stale => exact ⟨hentry, hsnapshot, by simp [ListCall.carried]⟩
  | raises => exact ⟨hentry, hsnapshot, by simp [ListCall.carried]⟩
  | stays => exact ⟨hentry, hsnapshot, hcall⟩

/-- **Only the query brings in lists.** Whatever is true of every list the query returns is true of
every copy and of every list in a call's hands. -/
theorem OnlyLists.step (h : s.OnlyLists P)
    (hread : ∀ policies, listPolicies true s.store.table = .ok policies → P policies)
    (hs : s.step settings e = some s') : s'.OnlyLists P := by
  cases step_effect hs with
  | writes store => exact ⟨h.entry, h.snapshot, h.carried⟩
  | commits n host now store => exact ⟨h.entry, h.snapshot, h.carried⟩
  | messages caches hnew =>
    exact ⟨fun e he => h.entry e (hnew.entry e he),
      fun i sn hsn => h.snapshot i sn (hnew.snapshot i sn hsn), h.carried⟩
  | @invalidates n out w hw =>
    have hnew := Invalidation.step_nothingNew settings w.host out s.caches w.phase
    exact ⟨fun e he => h.entry e (hnew.entry e he),
      fun i sn hsn => h.snapshot i sn (hnew.snapshot i sn hsn), h.carried⟩
  | lists m host =>
    refine ⟨h.entry, h.snapshot, fun m' r hr policies hc => ?_⟩
    rcases Transition.mem_update_some hr with ⟨-, rfl⟩ | hr
    · cases hc
    · exact h.carried m' r hr policies hc
  | @proceeds m now out r hr =>
    obtain ⟨hentry, hsnapshot, hcarried⟩ := h.of_effect hread (h.carried m r hr)
      (ListCall.step_effect settings r.host now out s.store.table s.caches r.phase)
    refine ⟨hentry, hsnapshot, fun m' r' hr' policies hc => ?_⟩
    rcases Transition.mem_update_some hr' with ⟨-, rfl⟩ | hr'
    · exact hcarried policies hc
    · exact h.carried m' r' hr' policies hc

/-- The last table is the one in the database, and lists come from these tables. -/
structure FromHistory (s : PolicyFleet κ) : Prop where
  table : s.history.getLast? = some s.store.table
  lists : s.OnlyLists fun policies => ListsFrom s.history 0 (.ok policies)

omit [DecidableEq κ] in
theorem fromHistory_initial (table : Table) : (initial κ table).FromHistory := by
  refine ⟨rfl, ?_, ?_, ?_⟩ <;> simp [initial, Caches.empty]

omit [DecidableEq κ] in
theorem FromHistory.mem (h : s.FromHistory) : s.store.table ∈ s.history :=
  List.mem_of_getLast? h.table

/-- What an event does to the tables. -/
theorem history_of_step (hs : s.step settings e = some s') :
    s'.history = s.history ∧ s'.store.table = s.store.table ∨
      s'.history = s.history ++ [s'.store.table] := by
  cases step_effect hs with
  | writes store htable => exact Or.inl ⟨rfl, htable⟩
  | commits => exact Or.inr rfl
  | invalidates | lists | proceeds | messages => exact Or.inl ⟨rfl, rfl⟩

/-- **Every list was read from a table the database has held**, whatever fails. -/
theorem FromHistory.step (h : s.FromHistory) (hs : s.step settings e = some s') :
    s'.FromHistory := by
  have hread : ∀ policies, listPolicies true s.store.table = .ok policies →
      ListsFrom s.history 0 (.ok policies) := by
    intro policies hl
    obtain ⟨k, hk⟩ := List.getElem?_of_mem h.mem
    exact ⟨k, Nat.zero_le k, _, hk, hl⟩
  have hlists := h.lists.step hread hs
  rcases history_of_step hs with ⟨hhistory, htable⟩ | hhistory
  · exact ⟨by rw [hhistory, htable, h.table], by rwa [hhistory]⟩
  · refine ⟨by simp [hhistory], ?_⟩
    rw [hhistory]
    exact hlists.mono fun policies hl => hl.concat _

end PolicyFleet

/-! ## Policies -/

/-- The policy reads a row that was committed, be it in the table still or overwritten or deleted
since. -/
def Committed (log : List (UUID × Row)) (p : PolicyRead) : Prop :=
  ∃ row, (p.id, row) ∈ log ∧ PolicyRead.modelValidate p.id row = .ok p

/-- What names a version of a policy: its id and its version number, which is also what a key in
Redis begins with. -/
def PolicyRead.key (p : PolicyRead) : UUID × ℤ := (p.id, p.version)

variable {log log' : List (UUID × Row)} {p q : PolicyRead}

theorem Committed.mono (h : Committed log p) (hsub : log ⊆ log') : Committed log' p := by
  obtain ⟨row, hrow, hread⟩ := h
  exact ⟨row, hsub hrow, hread⟩

/-- **While versions increase, an id and a version name one policy.** -/
theorem VersionsIncrease.committed_unique (h : VersionsIncrease log) (hp : Committed log p)
    (hq : Committed log q) (hkey : p.key = q.key) : p = q := by
  obtain ⟨hid, hversion⟩ := Prod.mk.inj hkey
  obtain ⟨row, hrow, hread⟩ := hp
  obtain ⟨row', hrow', hread'⟩ := hq
  -- in the symmetric form the order of the two rows in the log does not matter
  let R : UUID × Row → UUID × Row → Prop := fun a b => a.1 = b.1 → a.2.version = b.2.version → a = b
  have hsymm : Std.Symm R := ⟨fun _ _ hR hid hv => (hR hid.symm hv.symm).symm⟩
  have hpair : log.Pairwise R := h.imp fun hlt hid hv => absurd hv (hlt hid).ne
  have hv : row.version = row'.version := by
    rw [← (PolicyRead.modelValidate_ok hread).2.2, ← (PolicyRead.modelValidate_ok hread').2.2,
      hversion]
  have heq : (p.id, row) = (q.id, row') :=
    hpair.forall_of_forall (fun _ _ _ _ => rfl) hrow hrow' hid hv
  obtain ⟨-, rfl⟩ := Prod.mk.inj heq
  rw [hid, hread', Except.ok.injEq] at hread
  exact hread.symm

/-! ## The log -/

/-- The step of a write call in an event. -/
def CacheEvent.write? {κ : Type} : CacheEvent κ → Option WriteEvent
  | .begin n call => some (.begin n call)
  | .commit n _ now => some (.commit n now)
  | .abort n => some (.abort n)
  | .invalidate _ _ | .list _ _ | .proceed _ _ _ | .receive _ | .lose _ => none

/-- The rows of the table are in the log of what was committed, each under its id. -/
def PolicyStore.Logged (s : PolicyStore) : Prop :=
  ∀ id, ∀ row ∈ s.table.lookup id, (id, row) ∈ s.log

theorem PolicyStore.log_subset {s s' : PolicyStore} {e : WriteEvent} (hs : s.step e = some s') :
    s.log ⊆ s'.log := by
  cases step_effect hs with
  | reads | deletes => exact List.Subset.refl _
  | inserts | updates => exact List.subset_append_left _ _

theorem PolicyStore.Logged.step {s s' : PolicyStore} {e : WriteEvent} (h : s.Logged)
    (hs : s.step e = some s') : s'.Logged := by
  have hinsert : ∀ {id : UUID} {row : Row}, ∀ id', ∀ row' ∈ (s.table.insert id row).lookup id',
      (id', row') ∈ s.log ++ [(id, row)] := by
    intro id row id' row' h'
    rcases Table.of_mem_lookup_insert h' with ⟨rfl, rfl⟩ | ⟨-, h'⟩
    · simp
    · exact List.mem_append_left _ (h id' row' h')
  cases step_effect hs with
  | reads => exact h
  | inserts | updates => exact hinsert
  | deletes => exact fun id' row' h' => h id' row' (Table.of_mem_lookup_erase h')

namespace PolicyFleet

variable {κ : Type} {settings : CacheSettings} {s s' : PolicyFleet κ} {e : CacheEvent κ}

/-- What an event does to the database: the step of a write call in it, or nothing. -/
theorem store_of_step [DecidableEq κ] (hs : s.step settings e = some s') :
    (∃ w, e.write? = some w ∧ s.store.step w = some s'.store) ∨
      e.write? = none ∧ s'.store = s.store := by
  cases e with
  | begin n call =>
    obtain ⟨store, hstore, rfl⟩ := Option.map_eq_some_iff.1 hs
    exact Or.inl ⟨_, rfl, hstore⟩
  | commit n host now =>
    simp only [step, Option.ite_none_right_eq_some] at hs
    obtain ⟨store, hstore, rfl⟩ := Option.map_eq_some_iff.1 hs.2
    exact Or.inl ⟨_, rfl, hstore⟩
  | abort n =>
    rw [step] at hs
    obtain ⟨store, hstore, rfl⟩ := Option.map_eq_some_iff.1 hs
    exact Or.inl ⟨_, rfl, hstore⟩
  | invalidate n out =>
    obtain ⟨w, -, rfl⟩ := Option.map_eq_some_iff.1 hs
    exact Or.inr ⟨rfl, rfl⟩
  | proceed m now out =>
    obtain ⟨r, -, rfl⟩ := Option.map_eq_some_iff.1 hs
    exact Or.inr ⟨rfl, rfl⟩
  | list m host =>
    simp only [step, Option.ite_none_right_eq_some, Option.some.injEq] at hs
    obtain ⟨-, rfl⟩ := hs
    exact Or.inr ⟨rfl, rfl⟩
  | receive host | lose host =>
    simp only [step, Option.ite_none_right_eq_some, Option.some.injEq] at hs
    obtain ⟨-, rfl⟩ := hs
    exact Or.inr ⟨rfl, rfl⟩

/-- The rows of all tables that the database has held are in the log, those of the present one
included. -/
structure Logged (s : PolicyFleet κ) : Prop where
  /-- Those of the table in the database. -/
  store : s.store.Logged
  /-- Those of the tables it has held. -/
  history : ∀ table ∈ s.history, ∀ id, ∀ row ∈ table.lookup id, (id, row) ∈ s.store.log

theorem logged_initial (table : Table) : (initial κ table).Logged := by
  have hstore : (PolicyStore.initial table).Logged := fun id row hrow =>
    PolicyStore.mem_initial_log.2 hrow
  refine ⟨hstore, fun table' htable' => ?_⟩
  rw [List.mem_singleton.1 htable']
  exact hstore

theorem log_subset [DecidableEq κ] (hs : s.step settings e = some s') :
    s.store.log ⊆ s'.store.log := by
  rcases store_of_step hs with ⟨w, -, hw⟩ | ⟨-, hw⟩
  · exact PolicyStore.log_subset hw
  · rw [hw]
    exact List.Subset.refl _

theorem Logged.step [DecidableEq κ] (h : s.Logged) (hs : s.step settings e = some s') :
    s'.Logged := by
  have hlog := log_subset hs
  have hstore : s'.store.Logged := by
    rcases store_of_step hs with ⟨w, -, hw⟩ | ⟨-, hw⟩
    · exact h.store.step hw
    · rw [hw]
      exact h.store
  refine ⟨hstore, fun table htable id row hrow => ?_⟩
  rcases history_of_step hs with ⟨hhistory, -⟩ | hhistory
  · exact hlog (h.history table (hhistory ▸ htable) id row hrow)
  · rw [hhistory, List.mem_append, List.mem_singleton] at htable
    rcases htable with htable | rfl
    · exact hlog (h.history table htable id row hrow)
    · exact hstore id row hrow

/-- The policies on a list from one of these tables were committed. -/
theorem Logged.committed (h : s.Logged) {policies : List PolicyRead} {c : ℕ}
    (hl : ListsFrom s.history c (.ok policies)) {p : PolicyRead} (hp : p ∈ policies) :
    Committed s.store.log p := by
  obtain ⟨k, -, table, hk, hlist⟩ := hl
  obtain ⟨row, hrow, hread⟩ := ((mem_listPolicies hlist).1 hp).1
  exact ⟨row, h.history table (List.mem_of_getElem? hk) p.id row hrow, hread⟩

/-- A commit that overwrites a row finds it at the version its call has read. -/
def OverwritesVersionRead (s : PolicyFleet κ) (e : CacheEvent κ) : Prop :=
  ∀ w ∈ e.write?, s.store.OnUpdate (fun current loaded _ => current.version = loaded.version) w

instance (s : PolicyFleet κ) (e : CacheEvent κ) : Decidable (s.OverwritesVersionRead e) :=
  inferInstanceAs (Decidable (∀ w ∈ e.write?, s.store.OnUpdate _ w))

/-- The policies on all lists were committed, and two of them with one id and version are the same
policy. -/
structure Traceable (s : PolicyFleet κ) : Prop where
  /-- The database keeps track of its versions. -/
  tracked : s.store.Tracked
  increase : VersionsIncrease s.store.log
  /-- Rows are in the log. -/
  logged : s.Logged
  /-- Lists are read from tables. -/
  history : s.FromHistory

theorem traceable_initial (table : Table) : (initial κ table).Traceable :=
  ⟨PolicyStore.tracked_initial table, PolicyStore.versionsIncrease_initial table,
    logged_initial table, fromHistory_initial table⟩

theorem Traceable.step [DecidableEq κ] (h : s.Traceable) (he : s.OverwritesVersionRead e)
    (hs : s.step settings e = some s') : s'.Traceable := by
  have hlogged := h.logged.step hs
  have hhistory := h.history.step hs
  rcases store_of_step hs with ⟨w, hw, hstore⟩ | ⟨-, hstore⟩
  · have hincrease :=
      (PolicyStore.step_versionsIncrease_iff h.tracked h.increase hstore).2 (he w hw)
    exact ⟨h.tracked.step h.increase hstore hincrease, hincrease, hlogged, hhistory⟩
  · exact ⟨hstore ▸ h.tracked, hstore ▸ h.increase, hlogged, hhistory⟩

/-- A policy on a list that a call has returned. -/
theorem Traceable.committed (h : s.Traceable) {m : ℕ} {r : ListRun κ} (hr : r ∈ s.lists m)
    {policies : List PolicyRead} (hp : r.phase = .returned policies) {p : PolicyRead}
    (hmem : p ∈ policies) : Committed s.store.log p :=
  h.logged.committed (h.history.lists.carried m r hr policies (by rw [hp]; rfl)) hmem

theorem lists_of_step [DecidableEq κ] (hs : s.step settings e = some s') {m : ℕ}
    (hm : s.lists m ≠ none) : s'.lists m ≠ none := by
  cases step_effect hs with
  | writes | commits | messages | invalidates => exact hm
  | lists m' host =>
    rcases eq_or_ne m m' with rfl | hne
    · simp
    · simpa [hne] using hm
  | @proceeds m' now out r hr =>
    rcases eq_or_ne m m' with rfl | hne
    · simp [proceed]
    · simpa [proceed, hne] using hm

end PolicyFleet

end RateLimiter
