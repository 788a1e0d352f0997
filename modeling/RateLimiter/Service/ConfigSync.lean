import RateLimiter.Database.Validity
import RateLimiter.Policy.Json
import RateLimiter.Service.Upserts

/-!
# Syncing a policy from ConfigControl

`POST /internal/sync/config-control` fetches a configuration, checks it, upserts the policy in it
and builds its response.  The policy is checked before it is written.  The other fields of the body
are read only when the response is built, after the commit: a body that lacks one of them leads to
an error although the policy has been written.
-/

set_option autoImplicit false

namespace RateLimiter

/-- `ConfigControlSyncError`: what the sync itself turns down, which the endpoint answers with a
503. -/
inductive ConfigControlSyncError where
  /-- "ConfigControl integration is not configured." -/
  | notConfigured
  /-- "Unable to fetch config ... from ConfigControl: ..." -/
  | fetchFailed
  /-- "ConfigControl returned an invalid response body." -/
  | invalidBody
  /-- "ConfigControl returned a non-object policy payload." -/
  | nonObjectPolicy
  /-- "ConfigControl policy payload is invalid: ..." -/
  | invalidPolicy

/-- What the endpoint raises: the sync's own errors as a 503, and those of the upsert, of Python and
of pydantic as they are. -/
inductive SyncError where
  /-- `HTTPException` with status 503, for a `ConfigControlSyncError`. -/
  | serviceUnavailable (error : ConfigControlSyncError)
  /-- The upsert has raised. -/
  | policyService (error : PolicyServiceError)
  /-- `KeyError`. -/
  | keyError (key : String)
  /-- A field of `ConfigControlSyncResponse` is rejected. -/
  | response (field : String)

/-- `ConfigControlSyncResponse`: what the upsert has done, and the fields of the body that say where
the policy came from. -/
structure ConfigControlSyncResponse where
  configName : String
  environment : String
  target : String
  configVersion : ℤ
  action : SyncAction
  policy : PolicyRead

/-- The value, or what is raised without one. -/
def orRaise {α ε : Type} (error : ε) : Option α → Except ε α
  | none => .error error
  | some a => .ok a

/-- `config_payload[key]`. -/
def Dict.item (body : Dict) (key : String) : Except SyncError Json :=
  orRaise (.keyError key) (body.lookup key)

/-- The `return` of the endpoint: the items are looked up, then the response is validated. -/
def buildResponse (conv : Conversions) (body : Dict) (policy : PolicyRead) (action : SyncAction) :
    Except SyncError ConfigControlSyncResponse := do
  let name ← body.item "name"
  let environment ← body.item "environment"
  let target ← body.item "target"
  let version ← body.item "version"
  return {
    configName := ← orRaise (.response "config_name") name.str?
    environment := ← orRaise (.response "environment") environment.str?
    target := ← orRaise (.response "target") target.str?
    configVersion := ← orRaise (.response "config_version") (conv.int version)
    action := action
    policy := policy }

section

variable {κ : Type} [DecidableEq κ] (settings : CacheSettings) (conv : Conversions)
  (configured : Bool) (ctx : CallContext κ) (newId : UUID)

/-- What `sync_policy` makes of a response of ConfigControl before it writes: the body and the
policy in it.  `fetched` is the decoded body, `none` if it cannot be fetched or decoded. -/
def checkedPolicy (fetched : Option Json) :
    Except ConfigControlSyncError (Dict × PolicyBase) :=
  if configured then do
    let payload ← orRaise .fetchFailed fetched
    let body ← orRaise .invalidBody payload.dict?
    let rawPolicy ← orRaise .nonObjectPolicy ((body.lookup "value").bind Json.dict?)
    let policyPayload ← orRaise .invalidPolicy (policyCreate conv rawPolicy)
    return (body, policyPayload)
  else throw .notConfigured

/-- `sync_policy_from_config_control`: the body is checked, the upsert commits, and only then the
response is built from items that may be missing. -/
def syncPolicyFromConfigControl (fetched : Option Json) (s : Stores κ) :
    Except SyncError ConfigControlSyncResponse × Stores κ :=
  match checkedPolicy conv configured fetched with
  | .error error => (.error (.serviceUnavailable error), s)
  | .ok (body, payload) =>
    match PolicyService.upsertPolicyByName settings Row.fits ctx newId payload s with
    | (.error error, s) => (.error (.policyService error), s)
    | (.ok (policy, action), s) => (buildResponse conv body policy action, s)

end

/-! ## When the endpoint is all-or-nothing -/

/-- The items of the response are there and have their types. Nothing checks this before the upsert
has committed. -/
structure ResponseFields (conv : Conversions) (body : Dict) : Prop where
  name : ∃ v, body.lookup "name" = some (.string v)
  environment : ∃ v, body.lookup "environment" = some (.string v)
  target : ∃ v, body.lookup "target" = some (.string v)
  version : ∃ j n, body.lookup "version" = some j ∧ conv.int j = some n

/-- An upsert of the payload writes: the columns hold it, and a row of its name differs from it and
has a version to spare. -/
def UpsertWrites (table : Table) (payload : PolicyBase) : Prop :=
  payload.field.FitsColumns ∧ ∀ id, ∀ row ∈ table.lookup id, row.name = payload.name →
    row.columns ≠ payload.field ∧ fitsInteger (row.version + 1) = true

variable {conv : Conversions} {configured : Bool} {fetched : Option Json} {body : Dict}
  {payload : PolicyBase}

theorem Json.str?_eq_some {j : Json} {v : String} : j.str? = some v ↔ j = .string v := by
  cases j <;> simp [Json.str?]

theorem Json.dict?_eq_some {j : Json} {items : Dict} :
    j.dict? = some items ↔ j = .object items := by
  cases j <;> simp [Json.dict?]

theorem bind_ok_iff {α β ε : Type} {x : Except ε α} {k : α → Except ε β} {b : β} :
    (x >>= k) = .ok b ↔ ∃ a, x = .ok a ∧ k a = .ok b := by
  cases x <;> simp [bind, Except.bind]

theorem orRaise_eq_ok {α ε : Type} {error : ε} {value : Option α} {a : α} :
    orRaise error value = .ok a ↔ value = some a := by
  cases value <;> simp [orRaise]

theorem bind_error_iff {α β ε : Type} {x : Except ε α} {k : α → Except ε β} {error : ε} :
    (x >>= k) = .error error ↔ x = .error error ∨ ∃ a, x = .ok a ∧ k a = .error error := by
  cases x <;> simp [bind, Except.bind]

theorem orRaise_eq_error {α ε : Type} {error error' : ε} {value : Option α} :
    orRaise error value = .error error' ↔ value = none ∧ error = error' := by
  cases value <;> simp [orRaise]

theorem checkedPolicy_eq_ok_iff : checkedPolicy conv configured fetched = .ok (body, payload) ↔
    configured = true ∧ fetched = some (.object body) ∧
      ∃ raw, body.lookup "value" = some (.object raw) ∧ policyCreate conv raw = some payload := by
  rw [checkedPolicy]
  split
  · simp only [bind_ok_iff, orRaise_eq_ok, Json.dict?_eq_some, Option.bind_eq_some_iff]
    constructor
    · rintro ⟨_, hfetched, _, rfl, raw, ⟨_, hvalue, rfl⟩, _, hpolicy, ⟨⟩⟩
      exact ⟨‹_›, hfetched, raw, hvalue, hpolicy⟩
    · rintro ⟨-, hfetched, raw, hvalue, hpolicy⟩
      exact ⟨_, hfetched, body, rfl, raw, ⟨_, hvalue, rfl⟩, payload, hpolicy, rfl⟩
  · simp_all

/-- The response can be built exactly if its fields are there. -/
theorem buildResponse_isOk_iff (policy : PolicyRead) (action : SyncAction) :
    (∃ r, buildResponse conv body policy action = .ok r) ↔ ResponseFields conv body := by
  simp only [buildResponse, Dict.item, bind_ok_iff, orRaise_eq_ok, Json.str?_eq_some]
  constructor
  · rintro ⟨r, _, hname, _, henvironment, _, htarget, j, hversion, n, rfl, e, rfl, t, rfl, v, hv, -⟩
    exact ⟨⟨n, hname⟩, ⟨e, henvironment⟩, ⟨t, htarget⟩, ⟨j, v, hversion, hv⟩⟩
  · rintro ⟨⟨n, hname⟩, ⟨e, henvironment⟩, ⟨t, htarget⟩, ⟨j, v, hversion, hv⟩⟩
    exact ⟨_, _, hname, _, henvironment, _, htarget, j, hversion, n, rfl, e, rfl, t, rfl, v, hv,
      rfl⟩

section

variable {κ : Type} [DecidableEq κ] {settings : CacheSettings} {s : Stores κ} {c : Upsert κ}
  {run : Except PolicyServiceError (PolicyRead × SyncAction) × Stores κ}

/-- What an upsert raises it raises without having written. -/
theorem UpsertEffect.eq_of_error (h : UpsertEffect settings Row.fits s c run)
    {error : PolicyServiceError} (herror : run.1 = .error error) : run.2 = s := by
  cases h with
  | created | updated => cases herror
  | unchanged | rejected => rfl

/-- **When an upsert changes something**: the columns hold the payload, and a row of its name, if
there is one, differs from it and can be given another version. -/
theorem UpsertEffect.ne_iff (h : UpsertEffect settings Row.fits s c run)
    (hnames : s.table.UniqueNames) (hfresh : c.newId ∉ s.table) :
    run.2 ≠ s ↔ UpsertWrites s.table c.payload := by
  cases h with
  | @created p row hnone hcolumns hversion hfits hunique =>
    refine iff_of_true (fun heq => hfresh ?_) ⟨?_, fun id row' hrow' hname => ?_⟩
    · rw [← congrArg Stores.table heq]
      exact (AList.mem_insert _).2 (Or.inl rfl)
    · rw [← hcolumns]
      exact (of_decide_eq_true hfits).1
    · exact absurd hname (Table.findByName_eq_none_iff.1 hnone id row' hrow')
  | @unchanged p id row hfind hcolumns =>
    refine iff_of_false (fun hne => hne rfl) fun hwrites => ?_
    obtain ⟨hrow, hname⟩ := hnames.findByName_eq_some_iff.1 hfind
    exact (hwrites.2 id row hrow hname).1 hcolumns
  | @updated p id old row hfind hdiffers hcolumns hversion hfits hunique =>
    obtain ⟨hold, hname⟩ := hnames.findByName_eq_some_iff.1 hfind
    refine iff_of_true (fun heq => ?_) ⟨?_, fun id' row' hrow' hname' => ?_⟩
    · have hrow : row ∈ s.table.lookup id := by
        rw [← congrArg Stores.table heq]
        exact AList.lookup_insert _
      rw [Option.mem_unique hrow hold] at hversion
      omega
    · rw [← hcolumns]
      exact (of_decide_eq_true hfits).1
    · obtain rfl := hnames _ _ _ _ hold hrow' (hname.trans hname'.symm)
      rw [Option.mem_unique hrow' hold, ← hversion]
      exact ⟨hdiffers, (of_decide_eq_true hfits).2⟩
  | @rejected row hcolumns hversion hcreated hfits =>
    refine iff_of_false (fun hne => hne rfl) fun hwrites => ?_
    have hversion : fitsInteger row.version = true := by
      cases hfind : s.table.findByName c.payload.name with
      | none =>
        rw [hcreated hfind]
        rfl
      | some e =>
        obtain ⟨hold, hname⟩ := hnames.findByName_eq_some_iff.1 hfind
        rw [hversion _ _ hfind]
        exact (hwrites.2 e.1 e.2 hold hname).2
    exact of_decide_eq_false hfits ⟨hcolumns ▸ hwrites.1, hversion⟩

end

section

variable {κ : Type} [DecidableEq κ] (settings : CacheSettings) (conv : Conversions)
  (configured : Bool) (ctx : CallContext κ) {newId : UUID} (fetched : Option Json) {s : Stores κ}

/-- **When the sync endpoint is all-or-nothing.**  An error leaves the table and the caches as they
were exactly if the body, where it carries a policy that is going to be written, also carries the
fields of the response. -/
theorem sync_all_or_nothing_iff (hnames : s.table.UniqueNames) (hfresh : newId ∉ s.table) :
    ((∃ error, (syncPolicyFromConfigControl settings conv configured ctx newId fetched s).1 =
        .error error) →
      (syncPolicyFromConfigControl settings conv configured ctx newId fetched s).2 = s) ↔
    ∀ body raw payload, configured = true → fetched = some (.object body) →
      body.lookup "value" = some (.object raw) → policyCreate conv raw = some payload →
        UpsertWrites s.table payload → ResponseFields conv body := by
  rw [syncPolicyFromConfigControl]
  cases hchecked : checkedPolicy conv configured fetched with
  | error error =>
    refine iff_of_true (fun _ => rfl) fun body raw payload hconf hfetched hvalue hpolicy => ?_
    rw [checkedPolicy_eq_ok_iff.2 ⟨hconf, hfetched, raw, hvalue, hpolicy⟩] at hchecked
    cases hchecked
  | ok checked =>
    obtain ⟨body, payload⟩ := checked
    -- The body and its policy are known, so the condition is one implication.
    have hcond : (∀ body raw payload, configured = true → fetched = some (.object body) →
        body.lookup "value" = some (.object raw) → policyCreate conv raw = some payload →
          UpsertWrites s.table payload → ResponseFields conv body) ↔
        (UpsertWrites s.table payload → ResponseFields conv body) := by
      obtain ⟨hconf, rfl, raw, hvalue, hpolicy⟩ := checkedPolicy_eq_ok_iff.1 hchecked
      refine ⟨fun h => h body raw payload hconf rfl hvalue hpolicy, ?_⟩
      rintro h _ raw' payload' - ⟨⟩ hvalue' hpolicy'
      rw [hvalue] at hvalue'
      cases hvalue'
      rw [hpolicy] at hpolicy'
      cases hpolicy'
      exact h
    have heffect := Upsert.effect (c := ⟨ctx, newId, payload⟩) settings Row.fits hnames hfresh
    have hwrites := heffect.ne_iff hnames hfresh
    have hkept := @heffect.eq_of_error
    rw [hcond, ← hwrites]
    dsimp only at hkept ⊢
    generalize PolicyService.upsertPolicyByName settings Row.fits ctx newId payload s = run at *
    obtain ⟨error | ⟨policy, action⟩, s'⟩ := run
    · exact iff_of_true (fun _ => hkept rfl) fun hne => absurd (hkept rfl) hne
    · have hresponse : (∃ error, buildResponse conv body policy action = .error error) ↔
          ¬ResponseFields conv body := by
        rw [← buildResponse_isOk_iff policy action]
        cases buildResponse conv body policy action <;> simp
      show (_ → s' = s) ↔ (s' ≠ s → _)
      rw [hresponse]
      tauto

end

/-- A valid policy. -/
def Json.samplePolicy : Json :=
  .object [("name", .string "sample"), ("rate", .int 2), ("window_seconds", .int 60)]

/-- **A body without a name.**  The endpoint raises, and the policy has been created. -/
theorem sync_writes_then_raises :
    ∃ s', syncPolicyFromConfigControl ⟨30, 30, true⟩ .exact true ⟨(), 1, fun _ => .replied⟩ .sample
        (some (.object [("value", .samplePolicy)])) ⟨∅, Caches.empty Unit⟩ =
      (.error (.keyError "name"), s') ∧ s'.table ≠ ∅ := by
  refine ⟨_, rfl, fun h => ?_⟩
  have hmem : UUID.sample ∈ (∅ : Table) := by
    rw [← h]
    decide
  exact absurd hmem (AList.notMem_empty _)

/-- Another valid policy of that name. -/
def Json.fasterPolicy : Json :=
  .object [("name", .string "sample"), ("rate", .int 3), ("window_seconds", .int 60)]

/-- A complete body. -/
def Json.sampleConfig : Json :=
  .object [("name", .string "limits"), ("environment", .string "prod"),
    ("target", .string "gateway"), ("version", .int 7), ("value", .fasterPolicy)]

/-- The table has a row of that name with other columns.  With a complete body no error leaves
anything behind, and the row is written. -/
theorem sync_all_or_nothing_iff_sample :
    let out := syncPolicyFromConfigControl ⟨30, 30, true⟩ .exact true ⟨(), 1, fun _ => .replied⟩
      ⟨"00000000-0000-4000-8000-0000000000d1", by decide⟩ (some .sampleConfig)
      ⟨.sample, Caches.empty Unit⟩
    (out.2.table.lookup .sample).map Row.version = some 2 ∧
      ((∃ error, out.1 = .error error) → out.2 = ⟨.sample, Caches.empty Unit⟩) := by
  refine ⟨by decide +kernel, ?_⟩
  refine (sync_all_or_nothing_iff _ _ _ _ _ Table.sample_uniqueNames (by decide)).2 ?_
  rintro body raw payload - ⟨⟩ - - -
  exact ⟨⟨_, rfl⟩, ⟨_, rfl⟩, ⟨_, rfl⟩, _, _, rfl, rfl⟩

end RateLimiter
