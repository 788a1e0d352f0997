import RateLimiter.Lib.JsonText.RoundTrip
import RateLimiter.Policy.Json

/-!
# The policy list as text

What `list_active_policies_cached` stores in Redis, `json.dumps` of `model_dump(mode="json")` of
each policy, and what it makes of it when it finds it again, `PolicyRead.model_validate` of each
item of `json.loads`.  A dump also holds three computed fields, which validation ignores.

How a timestamp and the refill rate are written and how text becomes a timestamp or an id again is
left open (`CacheFormat`), and so is which other values pydantic would take for them.
-/

set_option autoImplicit false

namespace RateLimiter

open JsonText (Value FloatCodec wellFormedItems_iff wellFormedMembers_iff)

/-! ## Dumping -/

/-- `describe_policy_scope`. -/
def describePolicyScope (policy : PolicyBase) : String :=
  let label (name : String) (selector : Option String) : List String :=
    if selector.isSome then [name] else []
  let labels := label "tenant" (policy.field .tenantId) ++ label "api_key" (policy.field .apiKey) ++
    label "user" (policy.field .userId) ++ label "ip" (policy.field .ipAddress) ++
    label "route" (policy.field .route)
  if labels = [] then "global" else "+".intercalate labels

/-- The value of a `FailureMode` member. -/
def FailureMode.str : FailureMode → String
  | .failOpen => "fail_open"
  | .failClosed => "fail_closed"

/-- What the model leaves to pydantic and to floating point: how floats and timestamps are written,
and what validation makes of a value that has not the type already. -/
structure CacheFormat (φ : Type) where
  codec : FloatCodec φ
  /-- The number a float is. -/
  toRat : φ → Option ℚ
  /-- `round(rate / window_seconds, 6)`. -/
  refillRatePerSecond : ℤ → ℤ → φ
  /-- A `datetime` in JSON. -/
  isoformat : ℤ → String
  /-- Validation as an `int` or a `bool`. -/
  conversions : Conversions
  /-- Validation as a `UUID`. -/
  uuid : Json → Option UUID
  /-- Validation as a `datetime`. -/
  datetime : Json → Option ℤ

/-- A value of a field in JSON; an enumeration member is its value. -/
def Field.dumpBase {φ : Type} : (f : Field) → f.Base → Value φ
  | .name, s | .description, s | .route, s | .userId, s | .ipAddress, s | .tenantId, s
  | .apiKey, s => .string s
  | .rate, n | .windowSeconds, n | .burstCapacity, n | .priority, n => .int n
  | .algorithm, a => .string a.str
  | .active, b => .bool b
  | .failureMode, m => .string m.str

/-- A field in JSON. -/
def Field.dump {φ : Type} (f : Field) (v : Option f.Base) : Value φ := v.elim .null f.dumpBase

section

variable {φ : Type} (format : CacheFormat φ)

/-- The members `PolicyRead` adds to those of `PolicyBase`. -/
def PolicyRead.storedMembers (policy : PolicyRead) : List (String × Value φ) :=
  [("id", .string policy.id.str),
    ("version", .int policy.version),
    ("created_at", .string (format.isoformat policy.createdAt)),
    ("updated_at", .string (format.isoformat policy.updatedAt)),
    ("selector_kind", .string (describePolicyScope policy.toPolicyBase)),
    ("refill_rate_per_second",
      .float (format.refillRatePerSecond policy.rate policy.windowSeconds)),
    ("header_limit", .int policy.headerLimit)]

/-- `model_dump(mode="json")`: the members of `PolicyBase` in their order, then those that
`PolicyRead` adds. -/
def PolicyRead.modelDump (policy : PolicyRead) : Value φ :=
  .object (Field.all.map (fun f => (f.key, f.dump (policy.field f))) ++
    policy.storedMembers format)

/-- `json.dumps([policy.model_dump(mode="json") for policy in policies])`: the text that is stored
in Redis. -/
def dumpPolicies (policies : List PolicyRead) : String :=
  JsonText.dumps format.codec (.array (policies.map (PolicyRead.modelDump format)))

/-! ## Loading -/

mutual

/-- A value as validation sees it. -/
def Json.ofValue : Value φ → Json
  | .null => .null
  | .bool b => .bool b
  | .int n => .int n
  | .float x => .float (format.toRat x)
  | .string s => .string s
  | .array vs => .array (Json.ofValues vs)
  | .object kvs => .object (Json.ofMembers kvs)

/-- The items of an array. -/
def Json.ofValues : List (Value φ) → List Json
  | [] => []
  | v :: vs => Json.ofValue v :: Json.ofValues vs

/-- The members of an object. -/
def Json.ofMembers : List (String × Value φ) → Dict
  | [] => []
  | (k, v) :: kvs => (k, Json.ofValue v) :: Json.ofMembers kvs

end

/-- `for item in value`; `none` if the value cannot be iterated. -/
def Json.iterate : Json → Option (List Json)
  | .array items => some items
  | .object items => some (items.map fun p => .string p.1)
  | .string s => some (s.toList.map fun c => .string (String.singleton c))
  | .null | .bool _ | .int _ | .float _ => none

/-- `PolicyRead.model_validate(item)`; `none` if it raises, because a field is missing, ill-typed or
out of range. -/
def policyRead (item : Json) : Option PolicyRead := do
  let raw ← item.dict?
  let base ← policyCreate format.conversions raw
  let id ← (raw.lookup "id").bind format.uuid
  let version ← (raw.lookup "version").bind format.conversions.int
  let createdAt ← (raw.lookup "created_at").bind format.datetime
  let updatedAt ← (raw.lookup "updated_at").bind format.datetime
  return ⟨base, id, version, createdAt, updatedAt⟩

/-- `[PolicyRead.model_validate(item) for item in json.loads(payload)]`; `none` if it raises. -/
def loadPolicies (payload : String) : Option (List PolicyRead) := do
  let value ← JsonText.loads format.codec payload
  let items ← (Json.ofValue format value).iterate
  items.mapM (policyRead format)

end

/-! ## What is loaded is what was dumped -/

/-- Values of the right type are taken as they are, and so is the text of an id. -/
structure CacheFormat.Exact {φ : Type} (format : CacheFormat φ) : Prop where
  int : ∀ n, format.conversions.int (.int n) = some n
  bool : ∀ b, format.conversions.bool (.bool b) = some b
  uuid : ∀ id : UUID, format.uuid (.string id.str) = some id

/-- A timestamp is read back as it was written. This is asked of the format, since the model leaves
timestamps to it. -/
def CacheFormat.Keeps {φ : Type} (format : CacheFormat φ) (t : ℤ) : Prop :=
  format.datetime (.string (format.isoformat t)) = some t

theorem Field.key_injective : Function.Injective Field.key := by
  intro f g
  cases f <;> cases g <;> simp [Field.key]

/-- A value is found under its key if no two keys are equal. -/
theorem lookup_map_of_mem {α κ β : Type} [DecidableEq κ] {key : α → κ} (value : α → β) {l : List α}
    (hkey : Function.Injective key) {a : α} (ha : a ∈ l) :
    (l.map fun b => (key b, value b)).lookup (key a) = some (value a) := by
  induction l with
  | nil => cases ha
  | cons b l ih =>
    rw [List.map_cons, List.lookup_cons]
    by_cases hab : a = b
    · simp [hab]
    · have hne : (key a == key b) = false := by simp [hkey.eq_iff, hab]
      rw [hne]
      exact ih (List.mem_of_ne_of_mem hab ha)

section

variable {φ : Type} (format : CacheFormat φ)

theorem Json.ofValues_eq_map (vs : List (Value φ)) :
    Json.ofValues format vs = vs.map (Json.ofValue format) := by
  induction vs with
  | nil => rfl
  | cons v vs ih => rw [Json.ofValues, ih, List.map_cons]

theorem Json.ofMembers_eq_map (kvs : List (String × Value φ)) :
    Json.ofMembers format kvs = kvs.map fun p => (p.1, Json.ofValue format p.2) := by
  induction kvs with
  | nil => rfl
  | cons p kvs ih => rw [Json.ofMembers, ih, List.map_cons]

variable {format}

theorem Field.parse_dumpBase (h : format.Exact) (f : Field) (v : f.Base) :
    f.parse format.conversions (Json.ofValue format (f.dumpBase v)) = some v := by
  cases f with
  | algorithm => cases v <;> rfl
  | failureMode => cases v <;> rfl
  | rate | windowSeconds | burstCapacity | priority => exact h.int v
  | active => exact h.bool v
  | _ => rfl

theorem Field.dumpBase_ne_null (f : Field) (v : f.Base) :
    Json.ofValue format (f.dumpBase v) ≠ .null := by
  cases f <;> exact Json.noConfusion

/-- The members of a dump that are fields, as validation sees them. -/
def dumpedFields (format : CacheFormat φ) (policy : PolicyRead) : Dict :=
  Field.all.map fun f => (f.key, Json.ofValue format (f.dump (policy.field f)))

/-- The members of a dump as validation sees them. -/
theorem PolicyRead.ofValue_modelDump (format : CacheFormat φ) (policy : PolicyRead) :
    Json.ofValue format (policy.modelDump format) =
      .object (dumpedFields format policy ++
        Json.ofMembers format (policy.storedMembers format)) := by
  simp [PolicyRead.modelDump, dumpedFields, Json.ofValue, Json.ofMembers_eq_map]

/-- What the dump gives for a field. -/
theorem field_dumpedFields (h : format.Exact) (policy : PolicyRead) (f : Field) (rest : Dict) :
    Dict.field format.conversions (dumpedFields format policy ++ rest) f =
      some (policy.field f) := by
  have hlookup : (dumpedFields format policy).lookup f.key =
      some (Json.ofValue format (f.dump (policy.field f))) :=
    lookup_map_of_mem _ Field.key_injective f.mem_all
  rw [Dict.field, List.lookup_append, hlookup, Option.some_or]
  cases hv : policy.field f with
  | none => rfl
  | some v =>
    have hparse := Field.parse_dumpBase h f v
    have hnull : Json.ofValue format (f.dumpBase v) ≠ .null := Field.dumpBase_ne_null f v
    simp only [Field.dump, Option.elim_some]
    simp [hparse]

/-- Other keys are not found among the fields. -/
theorem lookup_dumpedFields {policy : PolicyRead} {k : String} (hk : k ∉ Field.all.map Field.key)
    (rest : Dict) : (dumpedFields format policy ++ rest).lookup k = rest.lookup k := by
  have hnone : (dumpedFields format policy).lookup k = none := by
    refine List.lookup_eq_none_iff.2 fun p hp => ?_
    obtain ⟨f, hf, rfl⟩ := List.mem_map.1 hp
    simpa using fun h => hk (List.mem_map.2 ⟨f, hf, h.symm⟩)
  rw [List.lookup_append, hnone, Option.none_or]

/-- A payload whose fields can be read is read. -/
theorem policyCreate_of_field {conv : Conversions} {raw : Dict} {b : PolicyBase}
    (h : ∀ f, Dict.field conv raw f = some (b.field f)) : policyCreate conv raw = some b := by
  have hfields : ∀ f, (Dict.field conv raw f).isSome = true := fun f => by simp [h f]
  have hvalid : PolicyBase.validate (fun f => (Dict.field conv raw f).get (hfields f)) = .ok b :=
    PolicyBase.validate_eq_ok.2 (funext fun f => by simp [h f])
  rw [policyCreate, dif_pos hfields, hvalid]
  rfl

/-- **A policy is loaded as it was dumped**, field by field, `None` and the two timestamps included.
-/
theorem policyRead_modelDump (h : format.Exact) {policy : PolicyRead}
    (hcreated : format.Keeps policy.createdAt) (hupdated : format.Keeps policy.updatedAt) :
    policyRead format (Json.ofValue format (policy.modelDump format)) = some policy := by
  have hbase : ∀ rest, policyCreate format.conversions (dumpedFields format policy ++ rest) =
      some policy.toPolicyBase :=
    fun rest => policyCreate_of_field fun f => field_dumpedFields h policy f rest
  have hlookup : ∀ {k} rest, k ∈ ["id", "version", "created_at", "updated_at"] →
      (dumpedFields format policy ++ rest).lookup k = rest.lookup k := by
    intro k rest hk
    refine lookup_dumpedFields ?_ rest
    revert k
    decide
  rw [CacheFormat.Keeps] at hcreated hupdated
  rw [PolicyRead.ofValue_modelDump]
  simp only [policyRead, Json.dict?, Option.bind_eq_bind, Option.bind_some, hbase]
  rw [hlookup (k := "id") _ (by simp), hlookup (k := "version") _ (by simp),
    hlookup (k := "created_at") _ (by simp), hlookup (k := "updated_at") _ (by simp)]
  simp [PolicyRead.storedMembers, Json.ofMembers, Json.ofValue, List.lookup_cons, h.uuid, h.int,
    hcreated, hupdated]

/-! ## The list -/

theorem Field.dump_wellFormed (f : Field) (v : Option f.Base) :
    (f.dump v : Value φ).WellFormed := by
  cases v with
  | none => trivial
  | some v => cases f <;> trivial

theorem PolicyRead.modelDump_wellFormed (policy : PolicyRead) :
    (policy.modelDump format).WellFormed := by
  refine ⟨?_, wellFormedMembers_iff.2 fun p hp => ?_⟩
  · have hkeys : (Field.all.map (fun f : Field => (f.key, f.dump (policy.field f))) ++
        policy.storedMembers format).map Prod.fst = Field.all.map Field.key ++
        ["id", "version", "created_at", "updated_at", "selector_kind", "refill_rate_per_second",
          "header_limit"] := by
      simp [PolicyRead.storedMembers]
    rw [hkeys]
    decide
  · rcases List.mem_append.1 hp with hp | hp
    · obtain ⟨f, -, rfl⟩ := List.mem_map.1 hp
      exact f.dump_wellFormed _
    · simp only [PolicyRead.storedMembers, List.mem_cons, List.not_mem_nil, or_false] at hp
      rcases hp with rfl | rfl | rfl | rfl | rfl | rfl | rfl <;> trivial

/-- **The cached text is the list.**  Whatever characters the policies hold, what is stored in Redis
is loaded as the list that was stored, and it is never the empty text, which would count as a
miss. -/
theorem loadPolicies_dumpPolicies (h : format.Exact) (policies : List PolicyRead)
    (hkeeps : ∀ p ∈ policies, format.Keeps p.createdAt ∧ format.Keeps p.updatedAt) :
    loadPolicies format (dumpPolicies format policies) = some policies ∧
      dumpPolicies format policies ≠ "" := by
  have hwf : (Value.array (policies.map (PolicyRead.modelDump format))).WellFormed := by
    refine wellFormedItems_iff.2 fun v hv => ?_
    obtain ⟨p, -, rfl⟩ := List.mem_map.1 hv
    exact p.modelDump_wellFormed
  have hitems : (policies.map fun p => Json.ofValue format (p.modelDump format)).mapM
      (policyRead format) = some policies := by
    induction policies with
    | nil => rfl
    | cons p ps ih =>
      have hp := hkeeps p List.mem_cons_self
      have hps := ih (fun q hq => hkeeps q (List.mem_cons_of_mem _ hq)) hwf.2
      rw [List.map_cons, List.mapM_cons, policyRead_modelDump h hp.1 hp.2, hps]
      rfl
  constructor
  · rw [loadPolicies, dumpPolicies, JsonText.loads_dumps format.codec hwf]
    simpa [Json.ofValue, Json.ofValues_eq_map, Json.iterate, Function.comp_def] using hitems
  · intro hempty
    exact JsonText.write_ne_nil format.codec _ (String.ofList_injective hempty)

end

/-- A format for the policies of concrete runs, whose refill rate is 0.033333 and whose timestamps
are zero. -/
def CacheFormat.sample : CacheFormat Unit where
  codec :=
    { write := fun _ => "0.033333".toList
      read := fun _ => ()
      isFloat := fun _ => Or.inr (by decide)
      read_write := fun _ => rfl }
  toRat _ := some (33333 / 1000000)
  refillRatePerSecond _ _ := ()
  isoformat _ := "1970-01-01T00:00:00Z"
  conversions := .exact
  uuid
    | .string s => if h : isCanonicalUuid s = true then some ⟨s, h⟩ else none
    | _ => none
  datetime
    | .string "1970-01-01T00:00:00Z" => some 0
    | _ => none

theorem CacheFormat.sample_exact : CacheFormat.sample.Exact where
  int _ := rfl
  bool _ := rfl
  uuid id := dif_pos id.canonical

theorem CacheFormat.sample_keeps : CacheFormat.sample.Keeps 0 := rfl

/-- A policy whose strings need escapes and surrogate pairs, with selectors that are set, empty and
null. -/
def PolicyRead.escaped : PolicyRead where
  field
    | .name => some "\"\\\t\u0001\u007f \u00e9 \u2028 😀"
    | .description => some "first line\nsecond line"
    | .algorithm => some .slidingWindowLog
    | .active => some false
    | .priority => some (-3)
    | .userId => some "𝄞"
    | .tenantId => some ""
    | .failureMode => some .failOpen
    | f => Payload.ofRequired "" 10000000000 86400 f
  fieldOk := by decide
  algorithmSpecifics := by decide
  id := ⟨"00000000-0000-4000-8000-0000000000c1", by decide⟩
  version := 12
  createdAt := 0
  updatedAt := 0

/-- Two policies, one of which has characters that are escaped, one beyond the first plane,
selectors that are set and members that are `null`. -/
theorem loadPolicies_dumpPolicies_sample :
    loadPolicies .sample (dumpPolicies .sample [.escaped, .sample .tokenBucket 1]) =
        some [.escaped, .sample .tokenBucket 1] ∧
      dumpPolicies .sample [.escaped, .sample .tokenBucket 1] ≠ "" :=
  loadPolicies_dumpPolicies CacheFormat.sample_exact _ fun p hp => by
    rcases List.mem_pair.1 hp with rfl | rfl <;>
      exact ⟨CacheFormat.sample_keeps, CacheFormat.sample_keeps⟩

example : dumpPolicies .sample [] = "[]" := by decide

end RateLimiter
