import RateLimiter.Policy.Schema
import Mathlib.Algebra.Order.Ring.Rat

/-!
# Policies from JSON

`PolicyCreate.model_validate` on a decoded JSON object.  How pydantic turns a JSON value into an
`int` or a `bool` is its own business: it accepts some strings and some floats too, and which ones
is left open (`Conversions`).  Strings and enumeration members it takes as they are.
-/

set_option autoImplicit false

namespace RateLimiter

/-- A decoded JSON value.  A float that is no number has no value. -/
inductive Json where
  | null
  | bool (value : Bool)
  | int (value : ℤ)
  | float (value : Option ℚ)
  | string (value : String)
  | array (items : List Json)
  | object (items : List (String × Json))

/-- A `dict`. -/
abbrev Dict := List (String × Json)

/-- `isinstance(value, dict)`. -/
def Json.dict? : Json → Option Dict
  | .object items => some items
  | _ => none

/-- Validation as a `str`. -/
def Json.str? : Json → Option String
  | .string s => some s
  | _ => none

/-- Validation as an `int` or a `bool`, which in pydantic's lax mode takes texts and floats as well;
the model does not say which. -/
structure Conversions where
  int : Json → Option ℤ
  bool : Json → Option Bool

/-- The conversions of values that have the type already. They serve as a concrete instance;
pydantic's agree with them on such values. -/
def Conversions.exact : Conversions where
  int
    | .int n => some n
    | _ => none
  bool
    | .bool b => some b
    | _ => none

/-- Validation as a `RateLimitAlgorithm`. -/
def RateLimitAlgorithm.ofStr? (s : String) : Option RateLimitAlgorithm :=
  [.fixedWindow, .slidingWindowLog, .tokenBucket].find? fun a => a.str == s

/-- Validation as a `FailureMode`. -/
def FailureMode.ofStr? : String → Option FailureMode
  | "fail_open" => some .failOpen
  | "fail_closed" => some .failClosed
  | _ => none

/-- The key of a field. -/
def Field.key : Field → String
  | .name => "name"
  | .description => "description"
  | .algorithm => "algorithm"
  | .rate => "rate"
  | .windowSeconds => "window_seconds"
  | .burstCapacity => "burst_capacity"
  | .active => "active"
  | .priority => "priority"
  | .route => "route"
  | .userId => "user_id"
  | .ipAddress => "ip_address"
  | .tenantId => "tenant_id"
  | .apiKey => "api_key"
  | .failureMode => "failure_mode"

/-- Validation as a value of the field's type; whether the value is in range is checked after that.
-/
def Field.parse (conv : Conversions) : (f : Field) → Json → Option f.Base
  | .name, j | .description, j | .route, j | .userId, j | .ipAddress, j | .tenantId, j
  | .apiKey, j => j.str?
  | .rate, j | .windowSeconds, j | .burstCapacity, j | .priority, j => conv.int j
  | .active, j => conv.bool j
  | .algorithm, j => j.str?.bind RateLimitAlgorithm.ofStr?
  | .failureMode, j => j.str?.bind FailureMode.ofStr?

/-- What a dictionary gives for a field: its default if the key is missing, `None` for `null`. -/
def Dict.field (conv : Conversions) (raw : Dict) (f : Field) : Option (Option f.Base) :=
  match raw.lookup f.key with
  | none => if f.mustBeGiven then none else some f.default
  | some .null => some none
  | some j => (f.parse conv j).map some

/-- `PolicyCreate.model_validate`; `none` if it raises. A member that is absent takes its default,
and members of other names are ignored. -/
def policyCreate (conv : Conversions) (raw : Dict) : Option PolicyBase :=
  if h : ∀ f : Field, (Dict.field conv raw f).isSome = true then
    (PolicyBase.validate fun f => (Dict.field conv raw f).get (h f)).toOption
  else none

end RateLimiter
