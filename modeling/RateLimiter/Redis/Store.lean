import Mathlib.Algebra.Order.Field.Rat
import Mathlib.Data.List.Sort
import Mathlib.Data.Prod.Lex
import Mathlib.Data.String.Basic
import Mathlib.Logic.Function.Basic
import Mathlib.Tactic.NormNum

/-!
# Redis, as far as the scripts use it

Redis runs one script at a time.  A script sees the clock, reads and writes keys, and may be cut
off by an error half way, in which case what it wrote before stays written: that is `Script`.
Numbers are exact, an `ℤ` where the code has an integer and a `ℚ` where Lua has a double.

Keys expire.  `eval` deletes every key whose deadline has been reached and then runs the script on
what is left; with `Expiry.ignored` it models a Redis on which `PEXPIRE` has no effect, the one
the expiring Redis is compared with.
-/

set_option autoImplicit false

namespace RateLimiter

/-! ## Time -/

/-- What `TIME` returns: whole seconds and the microseconds of the second.  Redis reads it off a
signed 64-bit count of microseconds. -/
structure RedisTime where
  /-- `now[1]`. -/
  seconds : ℕ
  /-- `now[2]`. -/
  micros : ℕ
  /-- The second component stays below one second. -/
  micros_lt : micros < 1000000
  /-- The whole is a signed 64-bit number of microseconds. -/
  range : seconds * 1000000 + micros < 2 ^ 63

/-- `now[1] * 1000 + math.floor(now[2] / 1000)`. -/
def RedisTime.ms (t : RedisTime) : ℕ := t.seconds * 1000 + t.micros / 1000

/-- A whole second. -/
def RedisTime.atSecond (second : ℕ) (h : second * 1000000 + 0 < 2 ^ 63 := by decide) : RedisTime :=
  ⟨second, 0, by decide, h⟩

theorem RedisTime.ms_lt (t : RedisTime) : t.ms < 10 ^ 16 := by
  refine Nat.lt_of_mul_lt_mul_right (a := 1000) ?_
  calc t.ms * 1000 ≤ t.seconds * 1000000 + t.micros := by unfold RedisTime.ms; omega
    _ < 2 ^ 63 := t.range
    _ < 10 ^ 16 * 1000 := by norm_num

/-! ## Keys and values -/

/-- The data types the scripts store: a counter as Redis increments it, a sorted set, and the two
fields of a bucket's hash. -/
inductive Value where
  /-- The string `INCR` counts in. -/
  | counter (n : ℤ)
  /-- A sorted set: scores and members, in Redis's order. -/
  | zset (members : List (ℤ ×ₗ String))
  /-- The hash of the token bucket, with its two fields. -/
  | hash (tokens : ℚ) (lastRefillMs : ℤ)
  deriving DecidableEq

/-- A key's value and its expiry, if `PEXPIRE` has set one. -/
structure Entry where
  value : Value
  /-- The deadline in milliseconds. -/
  expireAt : Option ℤ
  deriving DecidableEq

/-- The keys of the database. A key that is absent and one that was deleted are the same. -/
abbrev Keyspace := String → Option Entry

/-- Redis with no keys. -/
def Keyspace.empty : Keyspace := fun _ => none

/-- What a command can fail with; the client raises a `RedisError` for each. -/
inductive RedisError where
  /-- The key holds a value of another type. -/
  | wrongType
  /-- `PEXPIRE` with a deadline outside the signed 64-bit range. -/
  | invalidExpireTime
  /-- `PEXPIRE` with a text that is not an integer, such as `1e+17`. -/
  | notAnInteger
  deriving DecidableEq, Repr

/-- Whether deadlines are acted upon. A Redis that ignores them is what an expiring one is compared
with. -/
inductive Expiry where
  | enforced
  | ignored
  deriving DecidableEq, Repr

/-! ## Scripts -/

/-- The body of a script: an effect on the keyspace that may fail half way. -/
def Script (α : Type) := Expiry → RedisTime → Keyspace → Except RedisError α × Keyspace

namespace Script

/-- Run a script body on a keyspace. What it has written before an error stays, as a Lua script is
not rolled back. -/
def run {α : Type} (m : Script α) (x : Expiry) (t : RedisTime) (ks : Keyspace) :
    Except RedisError α × Keyspace := m x t ks

instance : Monad Script where
  pure a := fun _ _ ks => (.ok a, ks)
  bind m f := fun x t ks =>
    match m x t ks with
    | (.ok a, ks') => f a x t ks'
    | (.error e, ks') => (.error e, ks')

variable {α β : Type} {x : Expiry} {t : RedisTime} {ks ks' : Keyspace}

@[simp] theorem run_pure (a : α) : (pure a : Script α).run x t ks = (.ok a, ks) := rfl

theorem run_bind_ok {m : Script α} {f : α → Script β} {a : α} (h : m.run x t ks = (.ok a, ks')) :
    (m >>= f).run x t ks = (f a).run x t ks' := by
  show (match m.run x t ks with
    | (.ok a, ks') => (f a).run x t ks'
    | (.error e, ks') => (.error e, ks')) = _
  rw [h]

theorem run_bind_error {m : Script α} {f : α → Script β} {e : RedisError}
    (h : m.run x t ks = (.error e, ks')) : (m >>= f).run x t ks = (.error e, ks') := by
  show (match m.run x t ks with
    | (.ok a, ks') => (f a).run x t ks'
    | (.error e, ks') => (.error e, ks')) = _
  rw [h]

end Script

/-! ## Numbers in commands

A command takes texts, so Redis writes every Lua number that a script passes as a text first.  Small
integers come out in digits.  A large one comes out with an exponent, and a command that wants an
integer does not read it.  Where that begins depends on the release. -/

/-- A release of Redis, as far as a script notices: up to which integer it writes the numbers that
are passed to a command in digits. -/
class RedisRelease where
  /-- The largest integer that is written in digits. -/
  digitsUpTo : ℤ
  /-- Seventeen digits are written by every release. -/
  le_digitsUpTo : 10 ^ 17 - 1 ≤ digitsUpTo
  /-- No release takes a number beyond `2 ^ 62` for an integer. -/
  digitsUpTo_le : digitsUpTo ≤ 2 ^ 62

/-- Up to Redis 7.0 every number is written with the format `%.17g`, which puts an exponent from
`10 ^ 17` on. -/
abbrev RedisRelease.upTo70 : RedisRelease where
  digitsUpTo := 10 ^ 17 - 1
  le_digitsUpTo := le_rfl
  digitsUpTo_le := by norm_num

/-- Later releases write an integer as such up to `2 ^ 62`.  `docker-compose.yml` asks for the
newest Redis 7, so this is the release wherever none is named. -/
instance redis7 : RedisRelease where
  digitsUpTo := 2 ^ 62
  le_digitsUpTo := by norm_num
  digitsUpTo_le := le_rfl

/-! ## Commands -/

/-- The largest deadline Redis accepts. -/
def maxDeadline : ℤ := 2 ^ 63 - 1

/-- `PEXPIRE` accepts `ms` at `nowMs`: the text that Redis makes of the number is an integer, and
the deadline is in the signed 64-bit range. -/
def LegalExpiry [RedisRelease] (nowMs ms : ℤ) : Prop :=
  ms ≤ RedisRelease.digitsUpTo ∧ nowMs + ms ≤ maxDeadline

instance [RedisRelease] (nowMs ms : ℤ) : Decidable (LegalExpiry nowMs ms) :=
  inferInstanceAs (Decidable (_ ∧ _))

example : @LegalExpiry redis7 0 (10 ^ 17) ∧ ¬@LegalExpiry .upTo70 0 (10 ^ 17) := by decide

/-- `TIME`, in milliseconds. -/
def time : Script ℤ := fun _ t ks => (.ok t.ms, ks)

/-- Store `value` under `key`, keeping the key's expiry. -/
def setValue (key : String) (value : Value) (ks : Keyspace) : Keyspace :=
  Function.update ks key (some ⟨value, (ks key).bind Entry.expireAt⟩)

/-- `INCR`: a missing key counts as zero, the deadline stays, and a value of another type is an
error. -/
def incr (key : String) : Script ℤ := fun _ _ ks =>
  match (ks key).map Entry.value with
  | none => (.ok 1, setValue key (.counter 1) ks)
  | some (.counter n) => (.ok (n + 1), setValue key (.counter (n + 1)) ks)
  | some _ => (.error .wrongType, ks)

/-- `PEXPIRE` with the Lua number `ms`.  The text is parsed before the deadline is computed, so of
the two errors the one about the text comes first. -/
def pexpire [RedisRelease] (key : String) (ms : ℤ) : Script Unit := fun x t ks =>
  match x with
  | .ignored => (.ok (), ks)
  | .enforced =>
    if LegalExpiry t.ms ms then
      (.ok (),
        Function.update ks key ((ks key).map fun e => { e with expireAt := some (t.ms + ms) }))
    else if ms ≤ RedisRelease.digitsUpTo then (.error .invalidExpireTime, ks)
    else (.error .notAnInteger, ks)

/-- The sorted set under `key`, empty when there is no such key. -/
def zmembers (key : String) : Script (List (ℤ ×ₗ String)) := fun _ _ ks =>
  match (ks key).map Entry.value with
  | none => (.ok [], ks)
  | some (.zset ms) => (.ok ms, ks)
  | some _ => (.error .wrongType, ks)

/-- Write a sorted set back.  Redis deletes a sorted set that becomes empty, with its expiry. -/
def zstore (key : String) (ms : List (ℤ ×ₗ String)) : Script Unit := fun _ _ ks =>
  if ms = [] then (.ok (), Function.update ks key none)
  else (.ok (), setValue key (.zset ms) ks)

/-- `ZREMRANGEBYSCORE`: the members whose score is between the two bounds are gone, and an empty set
is no key. -/
def zremrangebyscore (key : String) (lo hi : ℤ) : Script Unit := do
  let ms ← zmembers key
  zstore key (ms.filter fun m => !(lo ≤ (ofLex m).1 && (ofLex m).1 ≤ hi))

/-- `ZCARD`. -/
def zcard (key : String) : Script ℤ := do
  let ms ← zmembers key
  return ms.length

/-- `ZADD`: a member that is present gets the new score. -/
def zadd (key : String) (score : ℤ) (member : String) : Script Unit := do
  let ms ← zmembers key
  zstore key
    ((ms.filter fun m => (ofLex m).2 ≠ member).orderedInsert (· ≤ ·) (toLex (score, member)))

/-- `ZRANGE key 0 0 WITHSCORES`: the score of the first member. -/
def zfirst (key : String) : Script (Option ℤ) := do
  let ms ← zmembers key
  return ms.head?.map fun m => (ofLex m).1

/-- `HMGET key tokens last_refill_ms`: both fields, or neither if there is no hash under the key. -/
def hmget (key : String) : Script (Option ℚ × Option ℤ) := fun _ _ ks =>
  match (ks key).map Entry.value with
  | none => (.ok (none, none), ks)
  | some (.hash tokens last) => (.ok (some tokens, some last), ks)
  | some _ => (.error .wrongType, ks)

/-- `HMSET key tokens .. last_refill_ms ..`: both fields are overwritten, and the key's deadline
stays. -/
def hmset (key : String) (tokens : ℚ) (lastRefillMs : ℤ) : Script Unit := fun _ _ ks =>
  match (ks key).map Entry.value with
  | none | some (.hash _ _) => (.ok (), setValue key (.hash tokens lastRefillMs) ks)
  | some _ => (.error .wrongType, ks)

/-! ## Expiry and evaluation -/

/-- Is the key still there at `now`? -/
def Entry.alive (now : ℤ) (e : Entry) : Bool := e.expireAt.all fun d => now < d

/-- Delete every key whose deadline has been reached, which is what a script sees however late Redis
deletes it. -/
def purge (x : Expiry) (now : ℤ) (ks : Keyspace) : Keyspace :=
  match x with
  | .ignored => ks
  | .enforced => fun k => (ks k).filter (Entry.alive now)

/-- `EVAL` at time `t`: the keys that have expired by then are gone, and the script runs with that
time throughout. -/
def eval {α : Type} (x : Expiry) (t : RedisTime) (script : Script α) (ks : Keyspace) :
    Except RedisError α × Keyspace :=
  script.run x t (purge x t.ms ks)

end RateLimiter
