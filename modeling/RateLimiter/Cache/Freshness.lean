import RateLimiter.Cache.Interleaving

/-!
# List calls after a write

From the `DEL` of a write on, every copy of the policy list in Redis was read after the write's
commit, as long as no operation of Redis fails and no list is stored late
(`PolicyFleet.CurrentFor`).  A list call that begins after the write has returned finds such a copy,
or reads the database itself.
-/

set_option autoImplicit false

namespace RateLimiter

/-- The list a call has in its hands, or has come to. -/
def ListCall.carried : ListCall → Option (Except ValidationError (List PolicyRead))
  | .setex policies | .set policies | .returned policies => some (.ok policies)
  | .raised error => some (.error error)
  | _ => none

theorem ListCall.carried_of_outcome {call : ListCall}
    {x : Except ValidationError (List PolicyRead)} (h : call.outcome = some x) :
    call.carried = some x := by
  cases call with
  | returned | raised => exact h
  | _ => cases h

namespace PolicyFleet

variable {κ : Type}

/-- The condition on the events of a run: Redis does not fail, and no list that was read before the
commit of write call `n` is stored after its `DEL`. -/
def Undisturbed (n : ℕ) (s : PolicyFleet κ) (e : CacheEvent κ) : Prop :=
  e.Succeeds ∧ s.NoLateSetex n e

instance (n : ℕ) (s : PolicyFleet κ) (e : CacheEvent κ) : Decidable (s.Undisturbed n e) :=
  inferInstanceAs (Decidable (_ ∧ _))

/-- `list_policies` gives `x` on table number `k`, counting the tables the database has held from
the beginning. -/
def Lists (history : List Table) (k : ℕ) (x : Except ValidationError (List PolicyRead)) : Prop :=
  ∃ table, history[k]? = some table ∧ listPolicies true table = x

/-- `list_policies` gives `x` on table number `c` or a later one. -/
def ListsFrom (history : List Table) (c : ℕ) (x : Except ValidationError (List PolicyRead)) :
    Prop :=
  ∃ k, c ≤ k ∧ Lists history k x

/-- The copy in Redis, if there is one, is of table number `c` or a later one. -/
def EntryFrom (history : List Table) (c : ℕ) (caches : Caches κ) : Prop :=
  ∀ e ∈ caches.entry, ListsFrom history c (.ok e.policies)

/-- What is known of a list call: Redis has answered it, and the list it is about to store is the
one of the table it has read. -/
structure CallSound (history : List Table) (r : ListRun κ) : Prop where
  /-- Redis has answered it. -/
  answered : r.phase ≠ .getFresh
  /-- The list it is about to store is the one of the table it has read. -/
  stores : ∀ policies, r.phase = .setex policies → Lists history r.readAt (.ok policies)

/-- The invariant, while Redis does not fail: the latest table is the one in the database, writes
have left tables, and list calls are about to store what they have read. -/
structure Sound (s : PolicyFleet κ) : Prop where
  /-- The latest table is the one in the database. -/
  history : s.history.getLast? = some s.store.table
  /-- Writes have left tables. -/
  committedAt : ∀ n, ∀ w ∈ s.invalidations n, w.committedAt < s.history.length
  lists : ∀ m, ∀ r ∈ s.lists m, CallSound s.history r

/-- The invariant for write call `n`, while no list is stored late. -/
structure CurrentFor (n : ℕ) (s : PolicyFleet κ) : Prop extends s.Sound where
  /-- Once the write is past its `DEL`, the copy in Redis is no older than the write. -/
  entry : ∀ w ∈ s.invalidations n, w.phase.deleted = true →
    EntryFrom s.history w.committedAt s.caches

variable {s s' : PolicyFleet κ} {c n m : ℕ} {x : Except ValidationError (List PolicyRead)}
  {history : List Table}

/-! ## Commits -/

theorem Lists.concat {k : ℕ} (h : Lists history k x) (table : Table) :
    Lists (history ++ [table]) k x := by
  obtain ⟨earlier, hk, hx⟩ := h
  refine ⟨earlier, ?_, hx⟩
  rw [List.getElem?_append_left (List.getElem?_eq_some_iff.1 hk).1, hk]

theorem ListsFrom.concat (h : ListsFrom history c x) (table : Table) :
    ListsFrom (history ++ [table]) c x := by
  obtain ⟨k, hk, hl⟩ := h
  exact ⟨k, hk, hl.concat table⟩

/-- The table the database holds is the last one. -/
theorem Sound.lists_table (h : s.Sound) (hc : c < s.history.length) :
    ListsFrom s.history c (listPolicies true s.store.table) :=
  ⟨s.history.length - 1, Nat.le_pred_of_lt hc, s.store.table,
    by rw [← List.getLast?_eq_getElem?, h.history], rfl⟩

/-! ## A step of a list call -/

section Proceed

variable [DecidableEq κ] {settings : CacheSettings} {now : ℚ} {out : CacheOp → RedisOutcome}
  {r : ListRun κ} {caches : Caches κ} {phase : ListCall}

/-- What becomes of the list call itself. -/
theorem Sound.call_of_effect (h : s.Sound) (hr : CallSound s.history r)
    (hout : ∀ op, out op = .replied)
    (heff : ListCall.Effect settings r.host now out s.store.table s.caches r.phase caches phase) :
    CallSound s.history
      { r with
        phase := phase
        readAt := if r.phase.reads then s.history.length - 1 else r.readAt } := by
  obtain ⟨host, phase', readAt⟩ := r
  cases heff with
  | hit | miss | raises | stores | skips | keeps => exact ⟨by simp, by simp⟩
  | unanswered hget => exact absurd (hout .get) hget
  | fresh | stale => exact absurd rfl hr.answered
  | @reads missed policies hl =>
    refine ⟨by split <;> simp, fun policies' hp => ?_⟩
    cases missed <;> cases hp
    exact ⟨s.store.table, by rw [← h.history, List.getLast?_eq_getElem?]; rfl, hl⟩
  | stays hdone =>
    refine ⟨hr.answered, fun policies hp => ?_⟩
    cases hp
    cases hdone

/-- What a list call leaves in Redis is no older than what was there, unless it is stored late. -/
theorem EntryFrom.of_effect (h : EntryFrom s.history c s.caches) (hr : CallSound s.history r)
    (hlate : r.phase.stores = true → c ≤ r.readAt)
    (heff : ListCall.Effect settings r.host now out s.store.table s.caches r.phase caches phase) :
    EntryFrom s.history c caches := by
  obtain ⟨host, phase', readAt⟩ := r
  cases heff with
  | stores policies =>
    intro e he
    rw [Option.mem_def, Option.some_inj] at he
    subst he
    exact ⟨readAt, hlate rfl, hr.stores policies rfl⟩
  | _ => exact h

/-- A list call gets its list from Redis or from the database. -/
theorem Sound.carried_of_effect (h : s.Sound) (hentry : EntryFrom s.history c s.caches)
    (hc : c < s.history.length) (hr : CallSound s.history r)
    (hcarried : ∀ x, r.phase.carried = some x → ListsFrom s.history c x)
    (heff : ListCall.Effect settings r.host now out s.store.table s.caches r.phase caches phase) :
    ∀ x, phase.carried = some x → ListsFrom s.history c x := by
  have hread := h.lists_table hc
  obtain ⟨host, phase', readAt⟩ := r
  intro x hx
  cases heff with
  | hit he halive =>
    cases hx
    exact hentry _ he
  | miss | unanswered => cases hx
  | fresh | stale => exact absurd rfl hr.answered
  | @reads missed policies hl =>
    rw [hl] at hread
    cases missed <;> cases hx <;> exact hread
  | raises hl =>
    rw [hl] at hread
    cases hx
    exact hread
  | stores | skips | keeps | stays => exact hcarried x hx

end Proceed

/-! ## Events -/

variable [DecidableEq κ] {settings : CacheSettings} {e : CacheEvent κ}

theorem Sound.step (h : s.Sound) (he : e.Succeeds) (hs : s.step settings e = some s') :
    s'.Sound := by
  cases step_effect hs with
  | writes store htable => exact ⟨by rw [h.history, htable], h.committedAt, h.lists⟩
  | commits n host now store hfree =>
    refine ⟨List.getLast?_concat, fun n' w hw => ?_, fun m r hr => ?_⟩
    · have hlength : (s.history ++ [store.table]).length = s.history.length + 1 :=
        List.length_append
      rw [hlength]
      rcases Transition.mem_update_some hw with ⟨-, rfl⟩ | hw
      · exact Nat.lt_succ_self _
      · exact Nat.lt_succ_of_lt (h.committedAt n' w hw)
    · exact ⟨(h.lists m r hr).answered, fun policies hp =>
        ((h.lists m r hr).stores policies hp).concat store.table⟩
  | @invalidates n out w hw =>
    refine ⟨h.history, fun n' w' hw' => ?_, h.lists⟩
    rcases Transition.mem_update_some hw' with ⟨-, rfl⟩ | hw'
    · exact h.committedAt n w hw
    · exact h.committedAt n' w' hw'
  | lists m host hfree =>
    refine ⟨h.history, h.committedAt, fun m' r hr => ?_⟩
    rcases Transition.mem_update_some hr with ⟨-, rfl⟩ | hr
    · exact ⟨by simp, by simp⟩
    · exact h.lists m' r hr
  | @proceeds m now out r hr =>
    refine ⟨h.history, h.committedAt, fun m' r' hr' => ?_⟩
    rcases Transition.mem_update_some hr' with ⟨-, rfl⟩ | hr'
    · exact h.call_of_effect (h.lists m r hr) he (ListCall.step_effect ..)
    · exact h.lists m' r' hr'
  | messages caches hcaches => exact ⟨h.history, h.committedAt, h.lists⟩

/-- **Every event keeps the invariant of a write.**  Its `DEL` takes away every copy there is, and
what is stored afterwards was read after its commit. -/
theorem CurrentFor.step (h : CurrentFor n s) (he : s.Undisturbed n e)
    (hs : s.step settings e = some s') : CurrentFor n s' := by
  refine ⟨h.toSound.step he.1 hs, ?_⟩
  cases step_effect hs with
  | writes store htable => exact h.entry
  | commits n' host now store hfree =>
    intro w hw hdeleted
    rcases Transition.mem_update_some hw with ⟨-, rfl⟩ | hw
    · cases hdeleted
    · exact fun e he => (h.entry w hw hdeleted e he).concat store.table
  | @invalidates n' out w' hw' =>
    have hnothing := Invalidation.step_nothingNew settings w'.host out s.caches w'.phase
    intro w hw hdeleted
    rcases Transition.mem_update_some hw with ⟨rfl, rfl⟩ | hw
    · cases hphase : w'.phase with
      | clear =>
        simp only [hphase, Invalidation.step] at hdeleted
        cases hdeleted
      | delete =>
        intro e' he'
        simp only [PolicyFleet.invalidate, Invalidation.step, hphase, he.1 .delete,
          RedisOutcome.executed, if_true] at he'
        cases he'
      | publish | returned =>
        exact fun e he => h.entry w' hw' (by rw [hphase]; rfl) e (hnothing.entry e he)
    · exact fun e he => h.entry w hw hdeleted e (hnothing.entry e he)
  | lists m host hfree => exact h.entry
  | @proceeds m now out r hr =>
    intro w hw hdeleted
    exact (h.entry w hw hdeleted).of_effect (h.lists m r hr)
      (fun hstores => he.2 r hr hstores w hw hdeleted) (ListCall.step_effect ..)
  | messages caches hcaches =>
    exact fun w hw hdeleted e he => h.entry w hw hdeleted e (hcaches.entry e he)

theorem currentFor_initial (κ : Type) (n : ℕ) (table : Table) :
    CurrentFor n (initial κ table) where
  history := rfl
  committedAt _ _ hw := by cases hw
  lists _ _ hr := by cases hr
  entry _ hw := by cases hw

/-! ## A list call after a write -/

/-- Write call `n` has returned, and what list call `m` has in its hands is no older than it. -/
structure SeesWrite (n m c : ℕ) (s : PolicyFleet κ) : Prop extends CurrentFor n s where
  /-- The write has returned. -/
  write : ∃ w ∈ s.invalidations n, w.phase = .returned ∧ w.committedAt = c
  /-- The list call has seen it. -/
  call : ∀ r ∈ s.lists m, ∀ x, r.phase.carried = some x → ListsFrom s.history c x

/-- **From its beginning to its end the list call sees the write.** -/
theorem SeesWrite.step (h : SeesWrite n m c s) (he : s.Undisturbed n e)
    (hs : s.step settings e = some s') : SeesWrite n m c s' := by
  refine ⟨h.toCurrentFor.step he hs, ?_, ?_⟩
  · obtain ⟨w, hw, hreturned, hc⟩ := h.write
    cases step_effect hs with
    | commits n' host now store hfree =>
      have hne : n ≠ n' := by
        rintro rfl
        rw [hfree] at hw
        cases hw
      exact ⟨w, by simpa only [Option.mem_def, Function.update_of_ne hne] using hw, hreturned, hc⟩
    | @invalidates n' out w' hw' =>
      by_cases hne : n = n'
      · subst hne
        obtain rfl := Option.mem_unique hw hw'
        refine ⟨_, Function.update_self .., ?_, hc⟩
        rw [hreturned]
        rfl
      · refine ⟨w, ?_, hreturned, hc⟩
        simpa only [PolicyFleet.invalidate, Option.mem_def, Function.update_of_ne hne] using hw
    | _ => exact ⟨w, hw, hreturned, hc⟩
  · cases step_effect hs with
    | writes | invalidates | messages => exact h.call
    | commits n' host now store hfree =>
      exact fun r hr x hx => (h.call r hr x hx).concat store.table
    | lists m' host hfree =>
      intro r hr x hx
      rcases Transition.mem_update_some hr with ⟨-, rfl⟩ | hr
      · cases hx
      · exact h.call r hr x hx
    | @proceeds m' now out r' hr' =>
      intro r hr x hx
      rcases Transition.mem_update_some hr with ⟨rfl, rfl⟩ | hr
      · obtain ⟨w, hw, hreturned, rfl⟩ := h.write
        exact h.carried_of_effect (h.entry w hw (by rw [hreturned]; rfl)) (h.committedAt n w hw)
          (h.lists m r' hr') (h.call r' hr') (ListCall.step_effect ..) x hx
      · exact h.call r hr x hx

/-- In the first part of a run write call `n` returns, and in the second part list call `m` begins
and comes to `x`. -/
structure ListsAfterWrite (settings : CacheSettings) (table : Table) (es es' : List (CacheEvent κ))
    (n m : ℕ) (s s' : PolicyFleet κ) (w : InvalidationRun κ)
    (x : Except ValidationError (List PolicyRead)) : Prop where
  first : Transition.run (step settings) (initial κ table) es = some s
  second : Transition.run (step settings) s es' = some s'
  /-- The write has committed. -/
  committed : s.invalidations n = some w
  /-- Its invalidation has returned. -/
  returned : w.phase = .returned
  /-- The list call has not begun. -/
  begins : s.lists m = none
  /-- Now it has ended. -/
  ends : ((s'.lists m).bind fun r => r.phase.outcome) = some x

variable {table : Table} {es es' : List (CacheEvent κ)} {w : InvalidationRun κ}

/-- **A list call that begins after a write has returned sees it.**  It comes to what
`list_policies` gives on the table the write has left or on a later one, and on the one the database
holds if nothing was committed after the write. -/
theorem list_after_write (h : ListsAfterWrite settings table es es' n m s s' w x)
    (hrun : Transition.Each (step settings) (Undisturbed n) (initial κ table) (es ++ es')) :
    (∃ k later, w.committedAt ≤ k ∧ s'.history[k]? = some later ∧ listPolicies true later = x) ∧
      (s'.history.length = w.committedAt + 1 → listPolicies true s'.store.table = x) := by
  obtain ⟨hfirst, hsecond⟩ := Transition.each_append.1 hrun
  have hcur : CurrentFor n s := Transition.run_invariant_of_each
    (fun h he hs => h.step he hs) (currentFor_initial κ n table) hfirst h.first
  have hsees : SeesWrite n m w.committedAt s := by
    refine ⟨hcur, ⟨w, h.committed, h.returned, rfl⟩, fun r hr => ?_⟩
    rw [h.begins] at hr
    cases hr
  have hsees' : SeesWrite n m w.committedAt s' := Transition.run_invariant_of_each
    (fun h he hs => h.step he hs) hsees (hsecond s h.first) h.second
  obtain ⟨r, hr, hx⟩ := Option.bind_eq_some_iff.1 h.ends
  obtain ⟨k, hk, later, hget, hlist⟩ := hsees'.call r hr x (ListCall.carried_of_outcome hx)
  refine ⟨⟨k, later, hk, hget, hlist⟩, fun hlength => ?_⟩
  -- the write's commit is the last one, so number `k` is the current table
  have hlt : k < s'.history.length := (List.getElem?_eq_some_iff.1 hget).1
  have hlast : s'.history[k]? = some s'.store.table := by
    rw [← hsees'.history, List.getLast?_eq_getElem?]
    congr 1
    omega
  rw [hget, Option.some_inj] at hlast
  rw [← hlast, hlist]

/-! ## Concrete runs -/

theorem exists_listsAfterWrite (settings : CacheSettings) (table : Table)
    (es es' : List (CacheEvent κ)) (n m : ℕ)
    (p : PolicyFleet κ → InvalidationRun κ → Except ValidationError (List PolicyRead) → Bool)
    (h : ((Transition.run (step settings) (initial κ table) es).bind fun s =>
      (Transition.run (step settings) s es').bind fun s' =>
        (s.invalidations n).bind fun w => ((s'.lists m).bind fun r => r.phase.outcome).map fun x =>
          w.phase == .returned && (s.lists m).isNone && p s' w x) = some true) :
    ∃ s s' w x, ListsAfterWrite settings table es es' n m s s' w x ∧ p s' w x = true := by
  obtain ⟨s, hs, h⟩ := Option.bind_eq_some_iff.1 h
  obtain ⟨s', hs', h⟩ := Option.bind_eq_some_iff.1 h
  obtain ⟨w, hw, h⟩ := Option.bind_eq_some_iff.1 h
  obtain ⟨x, hx, h⟩ := Option.map_eq_some_iff.1 h
  simp only [Bool.and_eq_true, beq_iff_eq, Option.isNone_iff_eq_none] at h
  exact ⟨s, s', w, x, ⟨hs, hs', hw, h.1.1, h.1.2, hx⟩, h.2⟩

/-- Every Redis operation succeeds. -/
def replied : CacheOp → RedisOutcome := fun _ => .replied

/-- Write call `n` changes the rate of the sample policy. -/
def changeRate (n : ℕ) (rate : ℤ) (hrate : 0 < rate) : CacheEvent Bool :=
  .begin n (.update .sample (.only .rate (some rate) (decide_eq_true hrate)))

/-- The invalidation of write call `n`. -/
def invalidation (n : ℕ) : List (CacheEvent Bool) := List.replicate 3 (.invalidate n replied)

/-- A write on one instance. -/
def writeRun : List (CacheEvent Bool) :=
  [changeRate 0 3 (by decide), .commit 0 true 1] ++ invalidation 0

/-- List call 1, on the other instance. -/
def listRun : List (CacheEvent Bool) := .list 1 false :: List.replicate 4 (.proceed 1 2 replied)

/-- List call 0 has read the database before the write, and stores what it has read after it. -/
def lateSetexRun : List (CacheEvent Bool) :=
  [.list 0 false, .proceed 0 0 replied, .proceed 0 0 replied] ++ writeRun ++ [.proceed 0 1 replied]

/-- Two writes; both have committed when the first one returns. -/
def overlappingRun : List (CacheEvent Bool) :=
  [changeRate 0 3 (by decide), .commit 0 true 1, changeRate 1 4 (by decide), .commit 1 true 2] ++
    invalidation 0

/-- The rates in a policy list. -/
def rates (x : Except ValidationError (List PolicyRead)) : Option (List ℤ) :=
  x.toOption.map (List.map fun policy => policy.rate)

/-- List call 2 has filled the cache; list call 3 has found its list there when the write begins,
and keeps it on its instance after the write has returned. -/
def overlappedRun : List (CacheEvent Bool) :=
  .list 2 false :: List.replicate 4 (.proceed 2 0 replied) ++
    [.list 3 true, .proceed 3 0 replied] ++ writeRun ++ [.proceed 3 1 replied]

/-- A write that a list call overlaps, then a list call. -/
theorem list_after_write_sample :
    ∃ s s' w x, ListsAfterWrite ⟨30, 15, true⟩ .sample overlappedRun listRun 0 1 s s' w x ∧
      s'.history.length = w.committedAt + 1 ∧ rates x = some [3] ∧
      listPolicies true s'.store.table = x := by
  obtain ⟨s, s', w, x, h, hp⟩ := exists_listsAfterWrite ⟨30, 15, true⟩ .sample overlappedRun
    listRun 0 1 (fun s' w x => s'.history.length == w.committedAt + 1 && rates x == some [3])
    (by decide +kernel)
  simp only [Bool.and_eq_true, beq_iff_eq] at hp
  obtain ⟨hlength, hrates⟩ := hp
  exact ⟨s, s', w, x, h, hlength, hrates, (list_after_write h (by decide +kernel)).2 hlength⟩

/-- A list that is stored late is found by the next list call although the write has returned; and
a list call that begins when a write has returned can see a later commit. -/
theorem list_after_write_stale :
    (∃ s s' w x, ListsAfterWrite ⟨30, 15, true⟩ .sample lateSetexRun listRun 0 1 s s' w x ∧
      (∀ e ∈ lateSetexRun ++ listRun, e.Succeeds) ∧ s'.history.length = w.committedAt + 1 ∧
        listPolicies true s'.store.table ≠ x) ∧
    ∃ s s' w x, ListsAfterWrite ⟨30, 15, true⟩ .sample overlappingRun listRun 0 1 s s' w x ∧
      (∀ e ∈ overlappingRun ++ listRun, e.Succeeds) ∧
        ∀ table ∈ s'.history[w.committedAt]?, listPolicies true table ≠ x := by
  constructor
  · obtain ⟨s, s', w, x, h, hp⟩ := exists_listsAfterWrite ⟨30, 15, true⟩ .sample lateSetexRun
      listRun 0 1 (fun s' w x => s'.history.length == w.committedAt + 1 &&
        rates (listPolicies true s'.store.table) != rates x) (by decide +kernel)
    simp only [Bool.and_eq_true, beq_iff_eq, bne_iff_ne] at hp
    exact ⟨s, s', w, x, h, by decide, hp.1, fun he => hp.2 (congrArg rates he)⟩
  · obtain ⟨s, s', w, x, h, hp⟩ := exists_listsAfterWrite ⟨30, 15, true⟩ .sample overlappingRun
      listRun 0 1 (fun s' w x => s'.history[w.committedAt]?.all fun table =>
        rates (listPolicies true table) != rates x) (by decide +kernel)
    simp only [Option.all_eq_true, bne_iff_ne] at hp
    exact ⟨s, s', w, x, h, by decide, fun table ht he => hp table ht (congrArg rates he)⟩

end PolicyFleet

end RateLimiter
