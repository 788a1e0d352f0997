import RateLimiter.Database.Table

/-!
# What the columns hold

The schema bounds the strings as the columns do, but not the integers: `rate`, `window_seconds`,
`burst_capacity`, `priority` and `version` are `Integer` columns of 32 bits.  Text columns hold
every character but NUL.
-/

set_option autoImplicit false

namespace RateLimiter

/-- An `Integer` column holds the number: it is a signed one of 32 bits. -/
def fitsInteger (n : ℤ) : Bool := -2147483648 ≤ n && n ≤ 2147483647

/-- A text column holds the string, unless it has a null character, which the database rejects. -/
def fitsText (s : String) : Bool := !s.toList.contains (Char.ofNat 0)

/-- The column of a field holds the value. -/
def Field.fitsColumn : (f : Field) → f.Base → Bool
  | .rate, n | .windowSeconds, n | .burstCapacity, n | .priority, n => fitsInteger n
  | .name, s | .description, s | .route, s | .userId, s | .ipAddress, s | .tenantId, s
  | .apiKey, s => fitsText s
  | .algorithm, _ | .active, _ | .failureMode, _ => true

/-- The columns of `rate_limit_policies` hold all the values: the integers are in range, and no text
has a null character. -/
def Payload.FitsColumns (p : Payload) : Prop := ∀ f : Field, (p f).all f.fitsColumn = true

instance (p : Payload) : Decidable p.FitsColumns :=
  inferInstanceAs (Decidable (∀ f : Field, (p f).all f.fitsColumn = true))

/-- The columns hold the row, its version included, which grows with every update. -/
def Row.FitsColumns (row : Row) : Prop :=
  row.columns.FitsColumns ∧ fitsInteger row.version = true

instance (row : Row) : Decidable row.FitsColumns := inferInstanceAs (Decidable (_ ∧ _))

/-- What the columns of `rate_limit_policies` hold, as a test. A commit of anything else is rejected
by the database. -/
def Row.fits (row : Row) : Bool := decide row.FitsColumns

end RateLimiter
