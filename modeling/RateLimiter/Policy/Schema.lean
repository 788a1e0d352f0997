import Mathlib.Data.Int.Order.Basic
import Mathlib.Data.Fintype.Basic

/-!
# Policies: the fourteen fields and what the schema accepts

A policy is a record of fourteen fields, written down three times in the source: as the pydantic
model `PolicyBase`, as the SQLAlchemy model `RateLimitPolicy` and as the dictionary
`_to_policy_payload` builds.  All three are a `Payload` here, a value or `None` for each `Field`.

* `PolicyBase` is a payload that carries the proof that the schema accepts it, so that a record
  which would not validate cannot be built; `PolicyBase.validate` is `PolicyCreate(**payload)`.
* `PolicyRead` adds what the database assigns: the id, the version and the two timestamps.
-/

set_option autoImplicit false

namespace RateLimiter

/-- `RateLimitAlgorithm`: by which rule the requests of a policy are counted. -/
inductive RateLimitAlgorithm where
  | fixedWindow
  | slidingWindowLog
  | tokenBucket
  deriving DecidableEq, Repr

/-- `str(algorithm)`: the value of the `StrEnum` member. -/
def RateLimitAlgorithm.str : RateLimitAlgorithm → String
  | .fixedWindow => "fixed_window"
  | .slidingWindowLog => "sliding_window_log"
  | .tokenBucket => "token_bucket"

/-- `FailureMode`: what becomes of the requests of a policy while Redis is away and there is no
local limiter. -/
inductive FailureMode where
  | failOpen
  | failClosed
  deriving DecidableEq, Repr

/-! ## Fields -/

/-- The fields of `PolicyBase`, in the order `_to_policy_payload` lists them. -/
inductive Field where
  | name
  | description
  | algorithm
  | rate
  | windowSeconds
  | burstCapacity
  | active
  | priority
  | route
  | userId
  | ipAddress
  | tenantId
  | apiKey
  | failureMode
  deriving DecidableEq, Repr

/-- The fields in the order they are validated. -/
def Field.all : List Field :=
  [.name, .description, .algorithm, .rate, .windowSeconds, .burstCapacity, .active, .priority,
    .route, .userId, .ipAddress, .tenantId, .apiKey, .failureMode]

theorem Field.mem_all (f : Field) : f ∈ Field.all := by
  cases f <;> decide

instance : Fintype Field where
  elems := ⟨Field.all, by decide⟩
  complete := Field.mem_all

/-- What a field holds when it does not hold `None`, as Python's types go: integers are unbounded.
-/
abbrev Field.Base : Field → Type
  | .name | .description | .route | .userId | .ipAddress | .tenantId | .apiKey => String
  | .rate | .windowSeconds | .burstCapacity | .priority => ℤ
  | .algorithm => RateLimitAlgorithm
  | .active => Bool
  | .failureMode => FailureMode

instance (f : Field) : DecidableEq f.Base := by
  cases f <;> exact inferInstance

/-- Fields whose annotation has no `| None`. -/
def Field.required : Field → Bool
  | .name | .algorithm | .rate | .windowSeconds | .active | .priority | .failureMode => true
  | .description | .burstCapacity | .route | .userId | .ipAddress | .tenantId | .apiKey => false

/-- The `Field(...)` constraint on a value that is present. -/
def Field.accepts : (f : Field) → f.Base → Bool
  | .name, s => 3 ≤ s.length && s.length ≤ 120
  | .description, s => s.length ≤ 1000
  | .rate, n | .windowSeconds, n | .burstCapacity, n => 0 < n
  | .route, s => s.length ≤ 255
  | .userId, s | .tenantId, s | .apiKey, s => s.length ≤ 128
  | .ipAddress, s => s.length ≤ 64
  | .algorithm, _ | .active, _ | .priority, _ | .failureMode, _ => true

/-- What validating one field decides: `None` is for fields that may hold it, and any other value
has to satisfy the constraint. -/
def Field.check (f : Field) : Option f.Base → Bool
  | none => !f.required
  | some v => f.accepts v

/-- Fields without a default. -/
def Field.mustBeGiven : Field → Bool
  | .name | .rate | .windowSeconds => true
  | _ => false

/-- The default of a field that has one. -/
def Field.default : (f : Field) → Option f.Base
  | .algorithm => some .tokenBucket
  | .active => some true
  | .priority => some 0
  | .failureMode => some .failClosed
  | _ => none

theorem Field.check_default {f : Field} (hf : f.mustBeGiven = false) :
    f.check f.default = true := by
  cases f <;> first | rfl | cases hf

/-- A record of the fourteen fields, `none` being `None`. -/
abbrev Payload := (f : Field) → Option f.Base

/-- `name`, `rate` and `window_seconds` as given, everything else left at its default. -/
def Payload.ofRequired (name : String) (rate windowSeconds : ℤ) : Payload
  | .name => some name
  | .rate => some rate
  | .windowSeconds => some windowSeconds
  | f => f.default

theorem Field.isSome_of_check {f : Field} {v : Option f.Base} (hf : f.required = true)
    (h : f.check v = true) : v.isSome = true := by
  cases v with
  | none => simp [Field.check, hf] at h
  | some v => rfl

/-- The value of a required field meets the field's constraint. -/
theorem Field.accepts_get {f : Field} {v : Option f.Base} (hf : f.required = true)
    (h : f.check v = true) : f.accepts (v.get (Field.isSome_of_check hf h)) = true := by
  cases v with
  | none => simp [Field.check, hf] at h
  | some v => exact h

/-! ## Validation -/

/-- `validate_algorithm_specifics`: a burst capacity needs the token bucket. -/
def AlgorithmSpecifics (p : Payload) : Prop :=
  p .algorithm ≠ some .tokenBucket → p .burstCapacity = none

instance (p : Payload) : Decidable (AlgorithmSpecifics p) :=
  inferInstanceAs (Decidable (_ → _))

/-- `PolicyBase`, and `PolicyCreate`, which adds nothing: a payload the schema accepts. -/
structure PolicyBase where
  field : Payload
  /-- Every field passes its own check. -/
  fieldOk : ∀ f : Field, f.check (field f) = true
  /-- The cross-field rule holds. -/
  algorithmSpecifics : AlgorithmSpecifics field

/-- Why a payload is rejected.  The model validator runs only when every field passed. -/
inductive ValidationError where
  | fields (rejected : List Field)
  | value (message : String)
  deriving DecidableEq, Repr

/-- What the schema accepts, as a predicate on payloads. -/
def Payload.Valid (p : Payload) : Prop :=
  (∀ f : Field, f.check (p f) = true) ∧ AlgorithmSpecifics p

instance (p : Payload) : Decidable p.Valid :=
  inferInstanceAs (Decidable (_ ∧ _))

/-- `PolicyCreate(**payload)`: each field is checked by itself, and the model validator runs only if
none of them failed. -/
def PolicyBase.validate (p : Payload) : Except ValidationError PolicyBase :=
  if hf : ∀ f : Field, f.check (p f) = true then
    if hs : AlgorithmSpecifics p then .ok ⟨p, hf, hs⟩
    else .error (.value "burst_capacity is only supported for token_bucket policies.")
  else .error (.fields (Field.all.filter fun f => !f.check (p f)))

theorem PolicyBase.validate_eq_ok {p : Payload} {b : PolicyBase} :
    PolicyBase.validate p = .ok b ↔ b.field = p := by
  constructor
  · intro h
    rw [validate] at h
    split at h
    · split at h
      · cases h; rfl
      · cases h
    · cases h
  · rintro rfl
    rw [validate, dif_pos b.fieldOk, dif_pos b.algorithmSpecifics]

/-- Validation succeeds exactly on the payloads the schema accepts. -/
theorem PolicyBase.validate_isOk_iff {p : Payload} :
    (∃ b, PolicyBase.validate p = .ok b) ↔ p.Valid := by
  constructor
  · rintro ⟨b, hb⟩
    rw [validate_eq_ok] at hb
    subst hb
    exact ⟨b.fieldOk, b.algorithmSpecifics⟩
  · rintro ⟨hf, hs⟩
    exact ⟨⟨p, hf, hs⟩, validate_eq_ok.2 rfl⟩

/-- Every field a rejected payload is blamed for fails its own check. -/
theorem PolicyBase.validate_error_fields {p : Payload} {fs : List Field}
    (h : PolicyBase.validate p = .error (.fields fs)) {f : Field} :
    f ∈ fs ↔ f.check (p f) = false := by
  rw [validate] at h
  split at h
  · split at h <;> cases h
  · cases h
    rw [List.mem_filter, Bool.not_eq_true']
    exact ⟨fun h => h.2, fun h => ⟨f.mem_all, h⟩⟩

/-- The defaults also pass the cross-field rule: a payload is as good as what is given. -/
theorem Payload.ofRequired_valid {name : String} {rate windowSeconds : ℤ} :
    (Payload.ofRequired name rate windowSeconds).Valid ↔
      (3 ≤ name.length ∧ name.length ≤ 120) ∧ 0 < rate ∧ 0 < windowSeconds := by
  constructor
  · intro h
    refine ⟨?_, ?_, ?_⟩
    · simpa [ofRequired, Field.check, Field.accepts] using h.1 .name
    · simpa [ofRequired, Field.check, Field.accepts] using h.1 .rate
    · simpa [ofRequired, Field.check, Field.accepts] using h.1 .windowSeconds
  · rintro ⟨hn, hr, hw⟩
    refine ⟨fun f => ?_, fun h => absurd rfl h⟩
    cases f <;> first
      | exact Field.check_default rfl
      | simp [ofRequired, Field.check, Field.accepts, hn, hr, hw]

/-! ## Typed access -/

namespace PolicyBase

variable (b : PolicyBase)

/-- `name`. -/
def name : String := (b.field .name).get (Field.isSome_of_check rfl (b.fieldOk .name))

/-- `algorithm`. -/
def algorithm : RateLimitAlgorithm :=
  (b.field .algorithm).get (Field.isSome_of_check rfl (b.fieldOk .algorithm))

/-- `rate`. -/
def rate : ℤ := (b.field .rate).get (Field.isSome_of_check rfl (b.fieldOk .rate))

/-- `window_seconds`. -/
def windowSeconds : ℤ :=
  (b.field .windowSeconds).get (Field.isSome_of_check rfl (b.fieldOk .windowSeconds))

/-- `burst_capacity`. -/
def burstCapacity : Option ℤ := b.field .burstCapacity

/-- `active`. -/
def active : Bool := (b.field .active).get (Field.isSome_of_check rfl (b.fieldOk .active))

/-- `priority`. -/
def priority : ℤ := (b.field .priority).get (Field.isSome_of_check rfl (b.fieldOk .priority))

/-- `failure_mode`. -/
def failureMode : FailureMode :=
  (b.field .failureMode).get (Field.isSome_of_check rfl (b.fieldOk .failureMode))

/-- `header_limit`: `burst_capacity or rate`, where a capacity of zero counts as none. -/
def headerLimit : ℤ := b.burstCapacity.elim b.rate fun n => if n = 0 then b.rate else n

theorem rate_pos : 0 < b.rate :=
  of_decide_eq_true (Field.accepts_get rfl (b.fieldOk .rate))

theorem windowSeconds_pos : 0 < b.windowSeconds :=
  of_decide_eq_true (Field.accepts_get rfl (b.fieldOk .windowSeconds))

theorem burstCapacity_pos {n : ℤ} (h : b.burstCapacity = some n) : 0 < n := by
  have hc := b.fieldOk .burstCapacity
  rw [show b.field .burstCapacity = some n from h] at hc
  simpa [Field.check, Field.accepts] using hc

theorem headerLimit_pos : 0 < b.headerLimit := by
  rw [headerLimit]
  cases hb : b.burstCapacity with
  | none => exact b.rate_pos
  | some n =>
    have hn := b.burstCapacity_pos hb
    simpa [hn.ne'] using hn

theorem burstCapacity_eq_none (h : b.algorithm ≠ .tokenBucket) : b.burstCapacity = none := by
  refine b.algorithmSpecifics fun he => h ?_
  exact Option.get_of_eq_some _ he

/-- Away from the token bucket the header limit is the rate. -/
theorem headerLimit_eq_rate (h : b.algorithm ≠ .tokenBucket) : b.headerLimit = b.rate := by
  rw [headerLimit, b.burstCapacity_eq_none h]
  rfl

end PolicyBase

/-! ## Identifiers and stored policies -/

/-- The canonical text of a UUID: 32 lower-case hexadecimal digits, hyphenated 8-4-4-4-12. -/
def isCanonicalUuid (s : String) : Bool :=
  s.toList.length == 36 &&
    s.toList.zipIdx.all fun c =>
      if c.2 ∈ [8, 13, 18, 23] then c.1 == '-' else "0123456789abcdef".toList.contains c.1

/-- A UUID, named by the text `str` gives it. -/
structure UUID where
  /-- `str(id)`. -/
  str : String
  /-- The text is canonical. -/
  canonical : isCanonicalUuid str = true
  deriving DecidableEq

/-- No character outside the hexadecimal digits and the hyphen occurs in a UUID. -/
theorem UUID.mem_str {u : UUID} {c : Char} (h : c ∈ u.str.toList) :
    c = '-' ∨ c ∈ "0123456789abcdef".toList := by
  have hu := u.canonical
  rw [isCanonicalUuid, Bool.and_eq_true, List.all_eq_true] at hu
  obtain ⟨i, hi⟩ := List.mem_iff_getElem?.1 h
  have hc := hu.2 (c, i) (List.mem_zipIdx_iff_getElem?.2 hi)
  split at hc
  · exact Or.inl (by simpa using hc)
  · exact Or.inr (by simpa using hc)

theorem UUID.colon_notMem (u : UUID) : ':' ∉ u.str.toList := by
  intro h
  rcases UUID.mem_str h with h | h
  · exact absurd h (by decide)
  · exact absurd h (by decide)

/-- `PolicyRead`: a stored policy as the service sees it.  Timestamps are in microseconds. -/
structure PolicyRead extends PolicyBase where
  id : UUID
  /-- Bumped by every update. -/
  version : ℤ
  /-- `created_at`. -/
  createdAt : ℤ
  /-- `updated_at`. -/
  updatedAt : ℤ

/-- The id of the policy in concrete runs. -/
def UUID.sample : UUID := ⟨"00000000-0000-4000-8000-000000000001", by decide⟩

/-- A policy of two requests a minute, for concrete runs. -/
def PolicyRead.sample (algorithm : RateLimitAlgorithm) (version : ℤ) : PolicyRead where
  field := Function.update (Payload.ofRequired "sample" 2 60) .algorithm (some algorithm)
  fieldOk := by cases algorithm <;> decide
  algorithmSpecifics := by cases algorithm <;> decide
  id := .sample
  version := version
  createdAt := 0
  updatedAt := 0

end RateLimiter
