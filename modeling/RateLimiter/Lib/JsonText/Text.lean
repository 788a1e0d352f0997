import Mathlib.Data.List.Basic
import Mathlib.Data.Nat.Basic
import Std.Data.String.ToNat
import Std.Data.String.ToInt

/-!
# JSON texts

`dumps` and `loads` of Python's `json` module, with the defaults they have: `dumps` writes only
ASCII, separates with `", "` and `": "` and keeps the order of a `dict`; `loads` takes any
whitespace between tokens, the last value of a key that is repeated, and the three constants that
are not JSON.

How a float is written and read is a `FloatCodec`; integers and strings are done here.  A string is
a sequence of Unicode scalar values: an escaped surrogate without its partner, of which Python makes
a string that no encoding can store, is not accepted.
-/

set_option autoImplicit false

namespace JsonText

/-- A JSON value; its floats are of some type `φ` with a codec, and its objects are lists of members
in the order they are written. -/
inductive Value (φ : Type) where
  | null
  | bool (value : Bool)
  | int (value : ℤ)
  | float (value : φ)
  | string (value : String)
  | array (items : List (Value φ))
  | object (items : List (String × Value φ))

/-! ## Numbers -/

/-- `-?` at the beginning of a text. -/
def sign : List Char → List Char
  | '-' :: _ => ['-']
  | _ => []

/-- `(0|[1-9]\d*)`, or nothing. -/
def whole : List Char → List Char
  | '0' :: _ => ['0']
  | c :: cs => if c.isDigit then c :: cs.takeWhile Char.isDigit else []
  | [] => []

/-- `(\.\d+)?`. -/
def fraction : List Char → List Char
  | '.' :: cs => if cs.takeWhile Char.isDigit = [] then [] else '.' :: cs.takeWhile Char.isDigit
  | _ => []

/-- `[-+]?`. -/
def exponentSign : List Char → List Char
  | '-' :: _ => ['-']
  | '+' :: _ => ['+']
  | _ => []

/-- `([eE][-+]?\d+)?`. -/
def exponent : List Char → List Char
  | c :: cs =>
    let ds := (cs.drop (exponentSign cs).length).takeWhile Char.isDigit
    if (c = 'e' ∨ c = 'E') ∧ ds ≠ [] then c :: (exponentSign cs ++ ds) else []
  | [] => []

/-- The number at the beginning of a text, and whether it is a float. -/
def number (cs : List Char) : Option (List Char × Bool) :=
  let s := sign cs
  let w := whole (cs.drop s.length)
  let f := fraction ((cs.drop s.length).drop w.length)
  let e := exponent (((cs.drop s.length).drop w.length).drop f.length)
  if w = [] then none else some (s ++ w ++ f ++ e, !(f.isEmpty && e.isEmpty))

/-- `int(text)` of a number that is not a float. -/
def intValue : List Char → ℤ
  | '-' :: ds => -(Nat.ofDigitChars 10 ds 0 : ℕ)
  | ds => (Nat.ofDigitChars 10 ds 0 : ℕ)

/-- The texts of the floats that are no numbers. -/
def nonNumbers : List (List Char) := ["NaN".toList, "Infinity".toList, "-Infinity".toList]

/-- How floats are written and read: what is written is read as a float, and as the same one. -/
structure FloatCodec (φ : Type) where
  /-- The text of a float. -/
  write : φ → List Char
  /-- `float(text)`. -/
  read : List Char → φ
  /-- The text of a float is one of a float. -/
  isFloat : ∀ x, write x ∈ nonNumbers ∨ number (write x) = some (write x, true)
  read_write : ∀ x, read (write x) = x

/-! ## Strings -/

/-- A code unit as four hexadecimal digits. -/
def hex4 (n : ℕ) : List Char :=
  [Nat.digitChar (n / 4096), Nat.digitChar (n / 256 % 16), Nat.digitChar (n / 16 % 16),
    Nat.digitChar (n % 16)]

/-- The characters that have an escape of two characters. -/
def shortEscapes : List (Char × Char) :=
  [('"', '"'), ('\\', '\\'), ('b', Char.ofNat 8), ('f', Char.ofNat 12), ('n', '\n'), ('r', '\r'),
    ('t', '\t')]

/-- `\uXXXX`. -/
def escapeUnit (n : ℕ) : List Char := '\\' :: 'u' :: hex4 n

/-- A character of a string as it is written: itself if it is printable ASCII, else an escape, or
two for a character beyond the first plane. -/
def escapeChar (c : Char) : List Char :=
  match shortEscapes.find? fun p => p.2 == c with
  | some (e, _) => ['\\', e]
  | none =>
    if ' ' ≤ c ∧ c ≤ '~' then [c]
    else if c.toNat < 0x10000 then escapeUnit c.toNat
    else
      escapeUnit (0xd800 + (c.toNat - 0x10000) / 1024) ++
        escapeUnit (0xdc00 + (c.toNat - 0x10000) % 1024)

/-- A string as it is written: its characters one by one, escaped where they have to be, between
quotation marks. -/
def quote (s : String) : List Char := '"' :: (s.toList.flatMap escapeChar ++ ['"'])

/-- The value of a hexadecimal digit. -/
def hexDigit (c : Char) : Option ℕ :=
  if c.isDigit then some (c.toNat - 48)
  else if 'a' ≤ c ∧ c ≤ 'f' then some (c.toNat - 87)
  else if 'A' ≤ c ∧ c ≤ 'F' then some (c.toNat - 55)
  else none

/-- The code unit after `\u`. -/
def readUnit : List Char → Option (ℕ × List Char)
  | a :: b :: c :: d :: cs => do
    let a ← hexDigit a
    let b ← hexDigit b
    let c ← hexDigit c
    let d ← hexDigit d
    return (a * 4096 + b * 256 + c * 16 + d, cs)
  | _ => none

/-- A code unit of a surrogate pair. -/
def isHigh (n : ℕ) : Bool := 0xd800 ≤ n && n < 0xdc00

/-- The other one. -/
def isLow (n : ℕ) : Bool := 0xdc00 ≤ n && n < 0xe000

/-- The second half of a surrogate pair, which has to follow; the pair is one character. -/
def readLow (high : ℕ) : List Char → Option (Char × List Char)
  | '\\' :: 'u' :: cs => do
    let (low, cs) ← readUnit cs
    if isLow low then
      some (Char.ofNat (0x10000 + (high - 0xd800) * 1024 + (low - 0xdc00)), cs)
    else none
  | _ => none

/-- What follows a backslash: one character, or four digits and, for the first half of a pair, the
second one. -/
def readEscape : List Char → Option (Char × List Char)
  | 'u' :: cs => do
    let (n, cs) ← readUnit cs
    if isHigh n then readLow n cs
    else if isLow n then none
    else some (Char.ofNat n, cs)
  | '/' :: cs => some ('/', cs)
  | e :: cs => (shortEscapes.lookup e).map fun c => (c, cs)
  | [] => none

/-- One character of a string.  Control characters have to be escaped. -/
def readChar : List Char → Option (Char × List Char)
  | '\\' :: cs => readEscape cs
  | c :: cs => if c.toNat < 0x20 then none else some (c, cs)
  | [] => none

/-- A string after its opening quote.  The fuel is at least the length of the text. -/
def readString : ℕ → List Char → Option (List Char × List Char)
  | 0, _ => none
  | n + 1, cs =>
    match cs with
    | '"' :: cs => some ([], cs)
    | _ => do
      let (c, cs) ← readChar cs
      let (s, cs) ← readString n cs
      return (c :: s, cs)

/-! ## Values -/

section

variable {φ : Type} (codec : FloatCodec φ)

mutual

/-- A value as `dumps` writes it, with its default separators and all characters that are not ASCII
escaped. -/
def write : Value φ → List Char
  | .null => "null".toList
  | .bool true => "true".toList
  | .bool false => "false".toList
  | .int n => n.repr.toList
  | .float x => codec.write x
  | .string s => quote s
  | .array [] => ['[', ']']
  | .array (v :: vs) => '[' :: (write v ++ writeItems vs)
  | .object [] => ['{', '}']
  | .object ((k, v) :: kvs) => '{' :: (quote k ++ ':' :: ' ' :: (write v ++ writeMembers kvs))

/-- The items of an array after the first. -/
def writeItems : List (Value φ) → List Char
  | [] => [']']
  | v :: vs => ',' :: ' ' :: (write v ++ writeItems vs)

/-- The members of an object after the first. -/
def writeMembers : List (String × Value φ) → List Char
  | [] => ['}']
  | (k, v) :: kvs => ',' :: ' ' :: (quote k ++ ':' :: ' ' :: (write v ++ writeMembers kvs))

end

/-- `json.dumps(value)`. -/
def dumps (v : Value φ) : String := String.ofList (write codec v)

/-- Skip whitespace. -/
def skip (cs : List Char) : List Char := cs.dropWhile fun c => c ∈ [' ', '\t', '\n', '\r']

/-- The constants. -/
def constants : List (List Char × Value φ) :=
  [("null".toList, .null), ("true".toList, .bool true), ("false".toList, .bool false)] ++
    nonNumbers.map fun t => (t, .float (codec.read t))

/-- A constant or a number; a number with a fraction or an exponent is a float. -/
def readAtom (cs : List Char) : Option (Value φ × List Char) :=
  match (constants codec).find? fun p => p.1.isPrefixOf cs with
  | some (t, v) => some (v, cs.drop t.length)
  | none => (number cs).map fun p =>
    (if p.2 then .float (codec.read p.1) else .int (intValue p.1), cs.drop p.1.length)

/-- `d[k] = v`: a key that is there keeps its place and gets the new value, and a new one goes to
the end. -/
def setItem (d : List (String × Value φ)) (k : String) (v : Value φ) : List (String × Value φ) :=
  if k ∈ d.map Prod.fst then d.map fun p => if p.1 = k then (k, v) else p else d ++ [(k, v)]

/-- `dict(pairs)`. -/
def dictOf (pairs : List (String × Value φ)) : List (String × Value φ) :=
  pairs.foldl (fun d p => setItem d p.1 p.2) []

mutual

/-- A value at the beginning of a text, and the rest.  The fuel is at least the text's length. -/
def read : ℕ → List Char → Option (Value φ × List Char)
  | 0, _ => none
  | n + 1, cs =>
    match cs with
    | '"' :: cs => (readString n cs).map fun p => (.string (String.ofList p.1), p.2)
    | '[' :: cs =>
      match skip cs with
      | ']' :: cs => some (.array [], cs)
      | cs => do
        let (v, cs) ← read n cs
        let (vs, cs) ← readItems n cs
        return (.array (v :: vs), cs)
    | '{' :: cs =>
      match skip cs with
      | '}' :: cs => some (.object [], cs)
      | cs => do
        let (kv, cs) ← readMember n cs
        let (kvs, cs) ← readMembers n cs
        return (.object (dictOf (kv :: kvs)), cs)
    | cs => readAtom codec cs

/-- What follows an item of an array. -/
def readItems : ℕ → List Char → Option (List (Value φ) × List Char)
  | 0, _ => none
  | n + 1, cs =>
    match skip cs with
    | ']' :: cs => some ([], cs)
    | ',' :: cs => do
      let (v, cs) ← read n (skip cs)
      let (vs, cs) ← readItems n cs
      return (v :: vs, cs)
    | _ => none

/-- A member of an object. -/
def readMember : ℕ → List Char → Option ((String × Value φ) × List Char)
  | 0, _ => none
  | n + 1, cs =>
    match cs with
    | '"' :: cs => do
      let (k, cs) ← readString n cs
      match skip cs with
      | ':' :: cs => do
        let (v, cs) ← read n (skip cs)
        return ((String.ofList k, v), cs)
      | _ => none
    | _ => none

/-- What follows a member of an object. -/
def readMembers : ℕ → List Char → Option (List (String × Value φ) × List Char)
  | 0, _ => none
  | n + 1, cs =>
    match skip cs with
    | '}' :: cs => some ([], cs)
    | ',' :: cs => do
      let (kv, cs) ← readMember n (skip cs)
      let (kvs, cs) ← readMembers n cs
      return (kv :: kvs, cs)
    | _ => none

end

/-- `json.loads(text)`; `none` if it raises, also when something follows the value. -/
def loads (text : String) : Option (Value φ) :=
  let cs := skip text.toList
  (read codec cs.length cs).bind fun p => if skip p.2 = [] then some p.1 else none

mutual

/-- No object in the value has a key twice. Only such values come back from their text, since
`loads` keeps the last of two members. -/
def Value.WellFormed : Value φ → Prop
  | .array vs => WellFormedItems vs
  | .object kvs => (kvs.map Prod.fst).Nodup ∧ WellFormedMembers kvs
  | .null | .bool _ | .int _ | .float _ | .string _ => True

/-- The items of an array. -/
def WellFormedItems : List (Value φ) → Prop
  | [] => True
  | v :: vs => v.WellFormed ∧ WellFormedItems vs

/-- The members of an object. -/
def WellFormedMembers : List (String × Value φ) → Prop
  | [] => True
  | (_, v) :: kvs => v.WellFormed ∧ WellFormedMembers kvs

end

end

end JsonText
