import RateLimiter.Cache.Interleaving
import RateLimiter.Lib.Transition
import RateLimiter.Policy.CacheFormat
import RateLimiter.Policy.Resolution

/-!
# The cache in Redis holds text

`PolicyFleet` keeps the policy list in Redis as a list.  What is really there is text: a miss stores
`dumpPolicies` of what it has read, a hit loads what it finds, and a text that cannot be loaded
makes the call raise.  `TextFleet` is the fleet with the text.  `PolicyFleet.encode` says what it
looks like while the other one runs, and `run_encode` that it never looks otherwise, whatever is
interleaved and whatever fails.
-/

set_option autoImplicit false

namespace RateLimiter

/-! ## The caches with text -/

/-- The value under `policy_cache_key` as Redis has it: a text, and the deadline `SETEX` has given
it. -/
structure TextEntry where
  payload : String
  /-- When Redis drops it. -/
  expiresAt : ℚ

/-- The copies of the policy list, the one in Redis being text. -/
structure TextCaches (κ : Type) where
  /-- The key in Redis. -/
  entry : Option TextEntry
  /-- Each instance's `PolicySnapshotStore`. -/
  snapshot : κ → Option LocalPolicySnapshot
  /-- The refresh messages on their way to each instance's listener. -/
  mailbox : κ → ℕ

namespace TextCaches

variable {κ : Type}

/-- `GET policy_cache_key`: the text, unless it was never stored or its time to live is over. -/
def get (c : TextCaches κ) (now : ℚ) : Option String :=
  (c.entry.filter fun e => now < e.expiresAt).map TextEntry.payload

/-- `SETEX policy_cache_key`. -/
def setex (c : TextCaches κ) (ttlSeconds : ℤ) (now : ℚ) (payload : String) : TextCaches κ :=
  if 0 < ttlSeconds then { c with entry := some ⟨payload, now + ttlSeconds⟩ } else c

/-- `DEL policy_cache_key`. -/
def delete (c : TextCaches κ) : TextCaches κ := { c with entry := none }

/-- `PUBLISH policy_refresh_channel`. -/
def publish (c : TextCaches κ) : TextCaches κ := { c with mailbox := fun i => c.mailbox i + 1 }

variable [DecidableEq κ]

/-- `PolicySnapshotStore.set`. -/
def set (c : TextCaches κ) (i : κ) (now : ℚ) (policies : List PolicyRead) : TextCaches κ :=
  { c with snapshot := Function.update c.snapshot i (some ⟨policies, now⟩) }

/-- `PolicySnapshotStore.clear`. -/
def clear (c : TextCaches κ) (i : κ) : TextCaches κ :=
  { c with snapshot := Function.update c.snapshot i none }

/-- A message is taken from the mailbox, or lost on the way. -/
def takeMessage (c : TextCaches κ) (i : κ) : TextCaches κ :=
  { c with mailbox := Function.update c.mailbox i (c.mailbox i - 1) }

/-- `policy_refresh_listener` receives a message. -/
def receive (c : TextCaches κ) (i : κ) : TextCaches κ := (c.takeMessage i).clear i

end TextCaches

section

variable {φ : Type} (format : CacheFormat φ) {κ : Type} [DecidableEq κ] (settings : CacheSettings)
  (i : κ) (now : ℚ) (out : CacheOp → RedisOutcome)

/-- What a list call makes of the answer to its `GET`: the empty text counts as a miss, and `none`
is a text that cannot be loaded. -/
def afterGet : Option String → Option ListCall
  | none => some (.listPolicies true)
  | some payload =>
    if payload = "" then some (.listPolicies true)
    else (loadPolicies format payload).map .set

/-- From one `await` of `list_active_policies_cached` to the next.  A call without a phase has
raised because the text it has found could not be loaded. -/
def TextCaches.listStep (table : Table) (c : TextCaches κ) :
    ListCall → TextCaches κ × Option ListCall
  | .get => (c, if out .get = .replied then afterGet format (c.get now) else some .getFresh)
  | .getFresh =>
    (c, (getFresh settings.localPolicyCacheTtlSeconds now (c.snapshot i)).elim
      (some (.listPolicies false)) fun policies => some (.returned policies))
  | .listPolicies missed => (c, some <| match listPolicies true table with
      | .ok policies => if missed then .setex policies else .set policies
      | .error error => .raised error)
  | .setex policies =>
    (if (out .setex).executed then
        c.setex settings.policyCacheTtlSeconds now (dumpPolicies format policies)
      else c,
      some (.set policies))
  | .set policies => (c.set i now policies, some (.returned policies))
  | .returned policies => (c, some (.returned policies))
  | .raised error => (c, some (.raised error))

/-- From one `await` of `invalidate_policy_cache` to the next. The text is deleted as it is, without
being looked at. -/
def TextCaches.invalidationStep (c : TextCaches κ) : Invalidation → TextCaches κ × Invalidation
  | .clear => (c.clear i, .delete)
  | .delete =>
    (if (out .delete).executed then c.delete else c,
      if out .delete = .replied ∧ settings.enablePolicyPubsub = true then .publish else .returned)
  | .publish => (if (out .publish).executed then c.publish else c, .returned)
  | .returned => (c, .returned)

end

/-! ## The fleet with text -/

/-- The database, the caches and the calls under way, where Redis holds text and a list call has to
load what it gets. -/
structure TextFleet (κ : Type) where
  /-- The database and the write calls that have not committed. -/
  store : PolicyStore
  caches : TextCaches κ
  /-- Instance and phase of each list call. -/
  lists : ℕ → Option (κ × Option ListCall)
  /-- Instance and phase of each write call that has committed. -/
  invalidations : ℕ → Option (κ × Invalidation)

namespace TextFleet

variable {φ : Type} (format : CacheFormat φ) {κ : Type} [DecidableEq κ] (settings : CacheSettings)

/-- List call `m` makes a step; it stays where it is if it has raised. -/
def proceed (s : TextFleet κ) (m : ℕ) (now : ℚ) (out : CacheOp → RedisOutcome)
    (r : κ × Option ListCall) : TextFleet κ :=
  match r.2 with
  | none => s
  | some phase =>
    let next := s.caches.listStep format settings r.1 now out s.store.table phase
    { s with caches := next.1, lists := Function.update s.lists m (some (r.1, next.2)) }

/-- The invalidation of write call `n` makes a step. -/
def invalidate (s : TextFleet κ) (n : ℕ) (out : CacheOp → RedisOutcome)
    (w : κ × Invalidation) : TextFleet κ :=
  let next := s.caches.invalidationStep settings w.1 out w.2
  { s with
    caches := next.1
    invalidations := Function.update s.invalidations n (some (w.1, next.2)) }

/-- One event, or nothing if it cannot happen: the same events as with lists, and the same
conditions on them. -/
def step (s : TextFleet κ) : CacheEvent κ → Option (TextFleet κ)
  | .begin n call =>
    (s.store.step (.begin n call)).map fun store => { s with store := store }
  | .commit n host now =>
    if s.invalidations n = none then
      (s.store.step (.commit n now)).map fun store =>
        { s with
          store := store
          invalidations := Function.update s.invalidations n (some (host, .clear)) }
    else none
  | .abort n => (s.store.step (.abort n)).map fun store => { s with store := store }
  | .invalidate n out => (s.invalidations n).map (s.invalidate settings n out)
  | .list m host =>
    if s.lists m = none then
      some { s with lists := Function.update s.lists m (some (host, some .get)) }
    else none
  | .proceed m now out => (s.lists m).map (s.proceed format settings m now out)
  | .receive host =>
    if 0 < s.caches.mailbox host then some { s with caches := s.caches.receive host } else none
  | .lose host =>
    if 0 < s.caches.mailbox host then some { s with caches := s.caches.takeMessage host } else none

end TextFleet

/-! ## Timestamps that survive -/

/-- The timestamps of the list survive being written and read, which for the other fields is a
theorem. -/
def CacheFormat.KeepsAll {φ : Type} (format : CacheFormat φ) (policies : List PolicyRead) : Prop :=
  ∀ p ∈ policies, format.Keeps p.createdAt ∧ format.Keeps p.updatedAt

/-- The timestamps of the table survive. -/
def Table.Kept {φ : Type} (format : CacheFormat φ) (table : Table) : Prop :=
  ∀ id, ∀ row ∈ table.lookup id, format.Keeps row.createdAt ∧ format.Keeps row.updatedAt

/-- The commit's timestamp survives. -/
def CacheEvent.Kept {φ κ : Type} (format : CacheFormat φ) : CacheEvent κ → Prop
  | .commit _ _ now => format.Keeps now
  | _ => True

/-- So do all timestamps that may still be dumped or loaded: those in the database, in Redis and in
the hands of a list call. -/
structure PolicyFleet.Kept {φ κ : Type} (format : CacheFormat φ) (s : PolicyFleet κ) : Prop where
  /-- Those in the database. -/
  table : s.store.table.Kept format
  entry : ∀ e ∈ s.caches.entry, format.KeepsAll e.policies
  /-- Those a list call is about to store. -/
  phase : ∀ m, ∀ r ∈ s.lists m, ∀ policies, r.phase = .setex policies → format.KeepsAll policies

section Kept

variable {φ : Type} {format : CacheFormat φ} {κ : Type} {settings : CacheSettings} {i : κ} {now : ℚ}
  {out : CacheOp → RedisOutcome} {table : Table}

theorem Table.Kept.listPolicies (h : table.Kept format) {policies : List PolicyRead}
    (hlist : listPolicies true table = .ok policies) : format.KeepsAll policies := by
  intro p hp
  obtain ⟨row, hrow, hread⟩ := ((mem_listPolicies hlist).1 hp).1
  rw [modelValidate_createdAt hread, modelValidate_updatedAt hread]
  exact h _ row hrow

theorem Table.Kept.insert (h : table.Kept format) {id : UUID} {row : Row}
    (hrow : format.Keeps row.createdAt ∧ format.Keeps row.updatedAt) :
    Table.Kept format (table.insert id row) := by
  intro id' row' hmem
  rcases Table.of_mem_lookup_insert hmem with ⟨-, rfl⟩ | ⟨-, hmem⟩
  · exact hrow
  · exact h id' row' hmem

/-- A write keeps the timestamps if the time of its commit survives. -/
theorem Table.Kept.store_step {store store' : PolicyStore} {e : WriteEvent}
    (h : store.table.Kept format) (hnow : ∀ n now, e = .commit n now → format.Keeps now)
    (hs : store.step e = some store') : store'.table.Kept format := by
  cases PolicyStore.step_effect hs with
  | reads => exact h
  | inserts => exact h.insert ⟨hnow _ _ rfl, hnow _ _ rfl⟩
  | updates hp hcur => exact h.insert ⟨(h _ _ hcur).1, hnow _ _ rfl⟩
  | deletes => exact fun id row hrow => h id row (Table.of_mem_lookup_erase hrow)

variable [DecidableEq κ] {s s' : PolicyFleet κ} {e : CacheEvent κ}

/-- What a list call stores or is about to store survives. -/
theorem ListCall.Effect.kept {c c' : Caches κ} {call call' : ListCall} (htable : table.Kept format)
    (hentry : ∀ e ∈ c.entry, format.KeepsAll e.policies)
    (hcall : ∀ policies, call = .setex policies → format.KeepsAll policies)
    (h : ListCall.Effect settings i now out table c call c' call') :
    (∀ e ∈ c'.entry, format.KeepsAll e.policies) ∧
      ∀ policies, call' = .setex policies → format.KeepsAll policies := by
  cases h with
  | @reads missed policies hlist =>
    refine ⟨hentry, fun policies' h' => ?_⟩
    cases missed with
    | false => cases h'
    | true =>
      cases h'
      exact htable.listPolicies hlist
  | stores policies =>
    refine ⟨?_, by simp⟩
    rintro _ ⟨⟩
    exact hcall policies rfl
  | stays => exact ⟨hentry, hcall⟩
  | _ => exact ⟨hentry, by simp⟩

theorem PolicyFleet.Kept.step (h : s.Kept format) (he : e.Kept format)
    (hs : s.step settings e = some s') : s'.Kept format := by
  cases e with
  | begin n call =>
    rw [PolicyFleet.step] at hs
    obtain ⟨store, hstore, rfl⟩ := Option.map_eq_some_iff.1 hs
    exact ⟨h.table.store_step (by simp) hstore, h.entry, h.phase⟩
  | abort n =>
    rw [PolicyFleet.step] at hs
    obtain ⟨store, hstore, rfl⟩ := Option.map_eq_some_iff.1 hs
    exact ⟨h.table.store_step (by simp) hstore, h.entry, h.phase⟩
  | commit n host now =>
    simp only [PolicyFleet.step, Option.ite_none_right_eq_some] at hs
    obtain ⟨store, hstore, rfl⟩ := Option.map_eq_some_iff.1 hs.2
    refine ⟨h.table.store_step ?_ hstore, h.entry, h.phase⟩
    rintro _ _ ⟨⟩
    exact he
  | invalidate n out =>
    obtain ⟨w, hw, rfl⟩ := Option.map_eq_some_iff.1 hs
    have hnew := Invalidation.step_nothingNew settings w.host out s.caches w.phase
    exact ⟨h.table, fun e he => h.entry e (hnew.entry e he), h.phase⟩
  | list m host =>
    simp only [PolicyFleet.step, Option.ite_none_right_eq_some, Option.some.injEq] at hs
    obtain ⟨hfree, rfl⟩ := hs
    refine ⟨h.table, h.entry, fun m' r hr policies hphase => ?_⟩
    rcases Transition.mem_update_some hr with ⟨-, rfl⟩ | hr
    · cases hphase
    · exact h.phase m' r hr policies hphase
  | proceed m now out =>
    obtain ⟨r, hr, rfl⟩ := Option.map_eq_some_iff.1 hs
    obtain ⟨hentry, hphase⟩ :=
      (ListCall.step_effect settings r.host now out s.store.table s.caches r.phase).kept h.table
        h.entry (h.phase m r hr)
    refine ⟨h.table, hentry, fun m' r' hr' policies hp => ?_⟩
    rcases Transition.mem_update_some hr' with ⟨-, rfl⟩ | hr'
    · exact hphase policies hp
    · exact h.phase m' r' hr' policies hp
  | receive host =>
    simp only [PolicyFleet.step, Option.ite_none_right_eq_some, Option.some.injEq] at hs
    obtain ⟨-, rfl⟩ := hs
    exact ⟨h.table, h.entry, h.phase⟩
  | lose host =>
    simp only [PolicyFleet.step, Option.ite_none_right_eq_some, Option.some.injEq] at hs
    obtain ⟨-, rfl⟩ := hs
    exact ⟨h.table, h.entry, h.phase⟩

end Kept

/-! ## One fleet looks like the other -/

section Encode

variable {φ : Type} (format : CacheFormat φ) {κ : Type}

/-- The caches with the list in Redis as text. Everything else is as it was, and this is what
relates the two fleets. -/
def Caches.encode (c : Caches κ) : TextCaches κ where
  entry := c.entry.map fun e => ⟨dumpPolicies format e.policies, e.expiresAt⟩
  snapshot := c.snapshot
  mailbox := c.mailbox

/-- The fleet with the list in Redis as text.  No call has failed to load it. -/
def PolicyFleet.encode (s : PolicyFleet κ) : TextFleet κ where
  store := s.store
  caches := s.caches.encode format
  lists m := (s.lists m).map fun r => (r.host, some r.phase)
  invalidations n := (s.invalidations n).map fun w => (w.host, w.phase)

variable {format} [DecidableEq κ] {settings : CacheSettings} {c : Caches κ} {i : κ} {now : ℚ}
  {out : CacheOp → RedisOutcome} {table : Table}

omit [DecidableEq κ] in
/-- A `GET` that is answered leads to the same phase. -/
theorem afterGet_encode (hformat : format.Exact)
    (hentry : ∀ e ∈ c.entry, format.KeepsAll e.policies) :
    afterGet format ((c.encode format).get now) =
      some ((c.get now).elim (.listPolicies true) .set) := by
  cases he : c.entry with
  | none => simp [Caches.encode, TextCaches.get, Caches.get, he, afterGet]
  | some e =>
    obtain ⟨hload, hempty⟩ := loadPolicies_dumpPolicies hformat e.policies (hentry e he)
    by_cases halive : now < e.expiresAt <;>
      simp [Caches.encode, TextCaches.get, Caches.get, he, afterGet, halive, Option.filter, hload,
        hempty]

/-- **A step of a list call does not depend on the encoding**, as long as the timestamps it dumps
survive. -/
theorem listStep_encode (hformat : format.Exact)
    (hentry : ∀ e ∈ c.entry, format.KeepsAll e.policies) (call : ListCall) :
    (c.encode format).listStep format settings i now out table call =
      ((call.step settings i now out table c).1.encode format,
        some (call.step settings i now out table c).2) := by
  cases call with
  | get =>
    rw [TextCaches.listStep, ListCall.step, afterGet_encode hformat hentry]
    split <;> rfl
  | getFresh =>
    simp only [TextCaches.listStep, ListCall.step, Caches.encode]
    cases getFresh settings.localPolicyCacheTtlSeconds now (c.snapshot i) <;> rfl
  | setex policies =>
    simp only [TextCaches.listStep, ListCall.step, Caches.setex, TextCaches.setex]
    split
    · split <;> rfl
    · rfl
  | listPolicies | set | returned | raised => rfl

omit [DecidableEq κ] in
theorem update_map {α β : Type} (f : ℕ → Option α) (g : α → β) (n : ℕ) (a : α) :
    (fun m => (Function.update f n (some a) m).map g) =
      Function.update (fun m => (f m).map g) n (some (g a)) := by
  funext m
  by_cases h : m = n <;> simp [h]

theorem invalidationStep_encode (w : Invalidation) :
    (c.encode format).invalidationStep settings i out w =
      ((w.step settings i out c).1.encode format, (w.step settings i out c).2) := by
  cases w with
  | clear | returned => rfl
  | delete =>
    simp only [TextCaches.invalidationStep, Invalidation.step]
    split <;> rfl
  | publish =>
    simp only [TextCaches.invalidationStep, Invalidation.step]
    split <;> rfl

variable {s : PolicyFleet κ} {es : List (CacheEvent κ)}

/-- **An event does not depend on the encoding**: the fleet with text does what the fleet with lists
does, and reads what it has written. -/
theorem step_encode (hformat : format.Exact) (h : s.Kept format) (e : CacheEvent κ) :
    TextFleet.step format settings (s.encode format) e =
      (s.step settings e).map (PolicyFleet.encode format) := by
  cases e with
  | begin n call =>
    simp only [TextFleet.step, PolicyFleet.step, Option.map_map]
    rfl
  | abort n =>
    simp only [TextFleet.step, PolicyFleet.step, Option.map_map]
    rfl
  | commit n host now =>
    simp only [TextFleet.step, PolicyFleet.step, PolicyFleet.encode, Option.map_eq_none_iff]
    split
    · simp only [Option.map_map, Function.comp_def, PolicyFleet.encode, update_map]
    · rfl
  | invalidate n out =>
    simp only [TextFleet.step, PolicyFleet.step, PolicyFleet.encode, Option.map_map]
    congr 1
    funext w
    simp only [Function.comp_def, TextFleet.invalidate, PolicyFleet.invalidate, PolicyFleet.encode,
      invalidationStep_encode, update_map]
  | list m host =>
    simp only [TextFleet.step, PolicyFleet.step, PolicyFleet.encode, Option.map_eq_none_iff]
    split
    · simp only [Option.map_some, PolicyFleet.encode, update_map]
    · rfl
  | proceed m now out =>
    simp only [TextFleet.step, PolicyFleet.step, PolicyFleet.encode, Option.map_map]
    congr 1
    funext r
    simp only [Function.comp_def, TextFleet.proceed, PolicyFleet.proceed, PolicyFleet.encode,
      listStep_encode hformat h.entry, update_map]
  | receive host | lose host =>
    rw [TextFleet.step, PolicyFleet.step]
    by_cases hmail : 0 < s.caches.mailbox host
    · have hmail' : 0 < (s.encode format).caches.mailbox host := hmail
      rw [if_pos hmail, if_pos hmail']
      rfl
    · have hmail' : ¬0 < (s.encode format).caches.mailbox host := hmail
      rw [if_neg hmail, if_neg hmail']
      rfl

/-- **That the cache holds text changes nothing.**  In every interleaving of writes, list calls and
messages, whatever fails, the fleet with the text does what the fleet with the list does, and no
call finds a text it cannot load. -/
theorem run_encode (hformat : format.Exact) (h : s.Kept format)
    (hes : ∀ e ∈ es, e.Kept format) :
    Transition.run (TextFleet.step format settings) (s.encode format) es =
      (Transition.run (PolicyFleet.step settings) s es).map (PolicyFleet.encode format) := by
  induction es generalizing s with
  | nil => rfl
  | cons e es ih =>
    rw [Transition.run, Transition.run, step_encode hformat h]
    cases hs : s.step settings e with
    | none => rfl
    | some s' =>
      have hs' := h.step (hes e List.mem_cons_self) hs
      simpa using ih hs' fun e' he' => hes e' (List.mem_cons_of_mem _ he')

/-- A miss stores the text, a write removes it while a call has it in hand, and the next call reads
the database and stores the text of what was written. -/
theorem run_encode_sample :
    let es : List (CacheEvent Unit) :=
      [.list 0 ()] ++ List.replicate 4 (.proceed 0 0 fun _ => .replied) ++
        [.list 1 (), .proceed 1 1 fun _ => .replied,
          .begin 0 (.update .sample (.only .rate (some 3) (by decide))), .commit 0 () 0] ++
        List.replicate 3 (.invalidate 0 fun _ => .replied) ++ [.proceed 1 1 fun _ => .replied] ++
        [.list 2 ()] ++ List.replicate 4 (.proceed 2 2 fun _ => .replied)
    (Transition.run (PolicyFleet.step ⟨30, 15, true⟩) (PolicyFleet.initial Unit .sample) es).map
        (fun s => s.caches.entry.map fun e => e.policies.map fun p => p.rate) = some (some [3]) ∧
    Transition.run (TextFleet.step .sample ⟨30, 15, true⟩)
        ((PolicyFleet.initial Unit .sample).encode .sample) es =
      (Transition.run (PolicyFleet.step ⟨30, 15, true⟩) (PolicyFleet.initial Unit .sample) es).map
        (PolicyFleet.encode .sample) := by
  have htable : Table.sample.Kept CacheFormat.sample :=
    Table.Kept.insert (fun _ _ h => by cases h) ⟨rfl, rfl⟩
  have hkept : (PolicyFleet.initial Unit .sample).Kept CacheFormat.sample := by
    refine ⟨htable, ?_, ?_⟩ <;> simp [PolicyFleet.initial, Caches.empty]
  refine ⟨by decide +kernel, run_encode CacheFormat.sample_exact hkept fun e he => ?_⟩
  simp only [List.mem_append, List.mem_cons, List.mem_replicate, List.not_mem_nil, or_false] at he
  rcases he with (((((rfl | ⟨-, rfl⟩) | rfl | rfl | rfl | rfl) | ⟨-, rfl⟩) | rfl) | rfl) |
    ⟨-, rfl⟩ <;> trivial

end Encode

end RateLimiter
