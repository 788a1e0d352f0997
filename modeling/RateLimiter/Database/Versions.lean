import RateLimiter.Database.Writes
import RateLimiter.Policy.Keys

/-!
# Which runs give every content its own version

`policy.version += 1` adds to the version the call has read, and the commit writes the sum, whatever
the row has become in between.  So a commit raises the version of its row exactly when the row is
still of the version that was read.  While all commits do, a version of a row is a version of its
content, and the rate-limit keys of two contents are different.

The invariant (`PolicyStore.Tracked`) ties the two places a version comes from to the log: the table
holds the latest row of each id, and what a call has read was committed once.
-/

set_option autoImplicit false

namespace RateLimiter

/-- Of the rows committed under one id, the later one has the higher version. -/
def VersionsIncrease (log : List (UUID × Row)) : Prop :=
  log.Pairwise fun p q => p.1 = q.1 → p.2.version < q.2.version

/-- A version of an id is a version of its content, and no two of them share a rate-limit key. -/
def VersionsIdentify (log : List (UUID × Row)) : Prop :=
  ∀ p ∈ log, ∀ q ∈ log, p.1 = q.1 → toPolicyPayload p.2 ≠ toPolicyPayload q.2 →
    p.2.version ≠ q.2.version ∧
      ∀ a b, PolicyRead.modelValidate p.1 p.2 = .ok a → PolicyRead.modelValidate q.1 q.2 = .ok b →
        ∀ i j, buildRateLimitKey a i ≠ buildRateLimitKey b j

/-! ## Logs -/

variable {log : List (UUID × Row)} {id : UUID} {row : Row}

theorem VersionsIncrease.append_iff (h : VersionsIncrease log) :
    VersionsIncrease (log ++ [(id, row)]) ↔ ∀ p ∈ log, p.1 = id → p.2.version < row.version := by
  rw [VersionsIncrease, List.pairwise_append]
  simp only [List.pairwise_singleton, List.mem_singleton, forall_eq, true_and]
  exact and_iff_right h

theorem buildRateLimitKey_ne_of_version {a b : PolicyRead} (h : a.version ≠ b.version)
    (i j : RequestIdentity) : buildRateLimitKey a i ≠ buildRateLimitKey b j := by
  intro hk
  have ha := buildRateLimitKey_hasHead a i
  rw [hk] at ha
  exact h (eq_of_hasHead ha (buildRateLimitKey_hasHead b j)).2.2

/-- **Increasing versions identify contents.** Two rows of one id and version are one row of the
log. -/
theorem VersionsIncrease.identify (h : VersionsIncrease log) : VersionsIdentify log := by
  -- in the symmetric form the order of the two rows in the log does not matter
  let R : UUID × Row → UUID × Row → Prop := fun p q =>
    p.1 = q.1 → toPolicyPayload p.2 ≠ toPolicyPayload q.2 → p.2.version ≠ q.2.version
  have hsymm : Std.Symm R := ⟨fun _ _ hR hid hpay => (hR hid.symm hpay.symm).symm⟩
  have hpair : log.Pairwise R := h.imp fun hlt hid _ => (hlt hid).ne
  intro p hp q hq hid hpayload
  have hv : p.2.version ≠ q.2.version :=
    hpair.forall_of_forall (fun _ _ _ hpay => absurd rfl hpay) hp hq hid hpayload
  refine ⟨hv, fun a b ha hb i j => buildRateLimitKey_ne_of_version ?_ i j⟩
  rwa [(PolicyRead.modelValidate_ok ha).2.2, (PolicyRead.modelValidate_ok hb).2.2]

/-! ## Runs -/

namespace PolicyStore

variable {s s' : PolicyStore} {e : WriteEvent}

/-- Table and calls agree with the log: the row a call has loaded was committed, and no version in
the table is behind the log. -/
structure Tracked (s : PolicyStore) : Prop where
  /-- The row of an id was committed, and nothing of a higher version under that id. -/
  table : ∀ id, ∀ row ∈ s.table.lookup id,
    (id, row) ∈ s.log ∧ ∀ p ∈ s.log, p.1 = id → p.2.version ≤ row.version
  /-- What a call has read was committed. -/
  pending : ∀ n id loaded next, s.pending n = some (.update id loaded next) → (id, loaded) ∈ s.log

theorem pending_of_update {n m : ℕ} {statement : Option Statement} {id : UUID} {loaded : Row}
    {next : PolicyBase}
    (h : Function.update s.pending n statement m = some (.update id loaded next)) :
    statement = some (.update id loaded next) ∨ s.pending m = some (.update id loaded next) := by
  rcases eq_or_ne m n with rfl | hne
  · rw [Function.update_self] at h
    exact Or.inl h
  · rw [Function.update_of_ne hne] at h
    exact Or.inr h

theorem pending_of_done {n m : ℕ} {id : UUID} {loaded : Row} {next : PolicyBase}
    (h : Function.update s.pending n none m = some (.update id loaded next)) :
    s.pending m = some (.update id loaded next) :=
  (pending_of_update h).resolve_left fun h => by cases h

/-- Writing the row of highest version keeps table and log together. -/
theorem Tracked.insert (h : s.Tracked) (n : ℕ)
    (hmax : ∀ p ∈ s.log, p.1 = id → p.2.version < row.version) :
    Tracked
      { table := s.table.insert id row
        pending := Function.update s.pending n none
        log := s.log ++ [(id, row)] } where
  table id' row' h' := by
    simp only [List.mem_append, List.mem_singleton]
    rcases Table.of_mem_lookup_insert h' with ⟨rfl, rfl⟩ | ⟨hne, h'⟩
    · refine ⟨Or.inr rfl, ?_⟩
      rintro p (hp | rfl) hid
      · exact (hmax p hp hid).le
      · exact le_rfl
    · obtain ⟨hmem, hle⟩ := h.table id' row' h'
      refine ⟨Or.inl hmem, ?_⟩
      rintro p (hp | rfl) hid
      · exact hle p hp hid
      · exact absurd hid.symm hne
  pending m id' loaded next h' :=
    List.mem_append_left _ (h.pending m id' loaded next (pending_of_done h'))

theorem Tracked.step (h : s.Tracked) (hv : VersionsIncrease s.log) (hs : s.step e = some s')
    (hv' : VersionsIncrease s'.log) : s'.Tracked := by
  cases step_effect hs with
  | reads hne n statement hread =>
    refine ⟨h.table, fun m id loaded next h' => ?_⟩
    rcases pending_of_update h' with h' | h'
    · exact (h.table id loaded (hread _ _ _ h')).1
    · exact h.pending m id loaded next h'
  | inserts hp hfresh => exact h.insert _ (hv.append_iff.1 hv')
  | updates hp hcur => exact h.insert _ (hv.append_iff.1 hv')
  | @deletes n now id hp =>
    exact ⟨fun id' row h' => h.table id' row (Table.of_mem_lookup_erase h'),
      fun m id' loaded next h' => h.pending m id' loaded next (pending_of_done h')⟩

/-- **A step raises the version exactly when it finds the version that was read.** A commit that
finds a later one writes a number that is in use. -/
theorem step_versionsIncrease_iff (h : s.Tracked) (hv : VersionsIncrease s.log)
    (hs : s.step e = some s') : VersionsIncrease s'.log ↔
      s.OnUpdate (fun current loaded _ => current.version = loaded.version) e := by
  cases step_effect hs with
  | reads hne n statement hread => exact iff_of_true hv (onUpdate_of_ne hne)
  | inserts hp hfresh =>
    refine iff_of_true (hv.append_iff.2 fun p hmem hid => absurd hid (hfresh p hmem))
      (onUpdate_of_pending fun _ _ _ h' => ?_)
    rw [hp] at h'
    cases h'
  | @updates n now id loaded current next hp hcur =>
    obtain ⟨hmem, hmax⟩ := h.table id current hcur
    have hloaded : loaded.version ≤ current.version := hmax _ (h.pending n id loaded next hp) rfl
    have hnew : (current.flush loaded next now).version = loaded.version + 1 := rfl
    rw [onUpdate_commit hp hcur, hv.append_iff, hnew]
    constructor
    · intro hlt
      have hcurrent : current.version < loaded.version + 1 := hlt _ hmem rfl
      omega
    · intro heq p hp' hid
      have hle : p.2.version ≤ current.version := hmax p hp' hid
      omega
  | deletes hp =>
    refine iff_of_true hv (onUpdate_of_pending fun _ _ _ h' => ?_)
    rw [hp] at h'
    cases h'

theorem mem_initial_log {table : Table} {p : UUID × Row} :
    p ∈ (initial table).log ↔ p.2 ∈ table.lookup p.1 := by
  rw [AList.mem_lookup_iff]
  constructor
  · intro h
    obtain ⟨e, he, rfl⟩ := List.mem_map.1 h
    exact he
  · exact fun h => List.mem_map.2 ⟨_, h, rfl⟩

theorem tracked_initial (table : Table) : (initial table).Tracked where
  table id row h := by
    refine ⟨mem_initial_log.2 h, ?_⟩
    rintro ⟨_, row'⟩ hp rfl
    exact (congrArg Row.version (Option.mem_unique (mem_initial_log.1 hp) h)).le
  pending _ _ _ _ h := by cases h

theorem versionsIncrease_initial (table : Table) : VersionsIncrease (initial table).log :=
  List.pairwise_map.2 <| (List.nodupKeys_iff_pairwise.1 table.nodupKeys).imp
    fun hne hid => absurd hid hne

/-- **A version identifies one content exactly as long as every overwrite finds the version that
was read.** -/
theorem versions_identify_iff (table : Table) (es : List WriteEvent) :
    Transition.Always step (fun s => VersionsIncrease s.log ∧ VersionsIdentify s.log)
        (initial table) es ↔
      Transition.Each step (OnUpdate fun current loaded _ => current.version = loaded.version)
        (initial table) es := by
  have hiff : Transition.Always step (fun s => VersionsIncrease s.log) (initial table) es ↔
      Transition.Each step (OnUpdate fun current loaded _ => current.version = loaded.version)
        (initial table) es :=
    Transition.always_iff_each (fun h hv hs hv' => h.step hv hs hv')
      (fun h hv hs => step_versionsIncrease_iff h hv hs) (tracked_initial table)
      (versionsIncrease_initial table)
  rw [← hiff]
  exact ⟨fun ha => ha.mono fun _ hv => hv.1, fun ha => ha.mono fun _ hv => ⟨hv, hv.identify⟩⟩

/-- Two calls change the rate of one row.  Both read version 1 and commit version 2, with different
rates. -/
theorem updates_repeat_version :
    ∃ s, Transition.run step (initial .sample)
        [.begin 0 (.update .sample (.only .rate (some 3) (by decide))),
          .begin 1 (.update .sample (.only .rate (some 4) (by decide))),
          .commit 0 1, .commit 1 2] = some s ∧
      ¬VersionsIncrease s.log ∧ ¬VersionsIdentify s.log := by
  have h : ((Transition.run step (initial .sample)
      [.begin 0 (.update .sample (.only .rate (some 3) (by decide))),
        .begin 1 (.update .sample (.only .rate (some 4) (by decide))),
        .commit 0 1, .commit 1 2]).map
      fun s => s.log.map fun p => (p.1, p.2.version, toPolicyPayload p.2 .rate)) =
      some [(.sample, 1, some 2), (.sample, 2, some 3), (.sample, 2, some 4)] := by decide +kernel
  obtain ⟨s, hs, hlog⟩ := Option.map_eq_some_iff.1 h
  have hmem : ∀ e ∈ [(UUID.sample, (2 : ℤ), some (3 : ℤ)), (UUID.sample, 2, some 4)],
      ∃ p ∈ s.log, (p.1, p.2.version, toPolicyPayload p.2 .rate) = e := fun e he =>
    List.mem_map.1 (hlog ▸ List.mem_cons_of_mem _ he)
  obtain ⟨p, hp, hpe⟩ := hmem _ List.mem_cons_self
  obtain ⟨q, hq, hqe⟩ := hmem _ (List.mem_cons_of_mem _ List.mem_cons_self)
  simp only [Prod.mk.injEq] at hpe hqe
  have hidentify : ¬VersionsIdentify s.log := by
    intro hv
    refine (hv p hp q hq (hpe.1.trans hqe.1.symm) fun hpay => ?_).1 (hpe.2.1.trans hqe.2.1.symm)
    have hrate : some (3 : ℤ) = some 4 :=
      hpe.2.2.symm.trans ((congrFun hpay .rate).trans hqe.2.2)
    cases hrate
  exact ⟨s, hs, fun hv => hidentify hv.identify, hidentify⟩

end PolicyStore

end RateLimiter
