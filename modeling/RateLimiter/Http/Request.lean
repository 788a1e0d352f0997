import RateLimiter.Limiter.Decision
import RateLimiter.Policy.Keys

/-!
# Requests and their identities

What a handler sees of a request: headers, the peer and the path parameter.
`build_request_identity` makes an identity of them, and `_require_token` compares a header with a
token.  A header is latin-1 text, and `compare_digest` refuses text that is not ASCII with a
`TypeError`.
-/

set_option autoImplicit false

namespace RateLimiter

/-- A request, as far as the limiter looks at it: its headers and the address of the peer. -/
structure HttpRequest where
  /-- The headers.  Their names are in lower case, as the server passes them on. -/
  headers : List (String × String)
  /-- `request.client.host`. -/
  client : Option String := none

/-- `request.headers.get(name)`. -/
def HttpRequest.header (request : HttpRequest) (name : String) : Option String :=
  request.headers.lookup name.toLower

/-! ## Identities -/

/-- What `str.strip` removes. -/
def isPythonSpace (c : Char) : Bool :=
  let n := c.toNat
  (9 ≤ n && n ≤ 13) || (28 ≤ n && n ≤ 32) || n == 0x85 || n == 0xA0 || n == 0x1680 ||
    (0x2000 ≤ n && n ≤ 0x200A) || n == 0x2028 || n == 0x2029 || n == 0x202F || n == 0x205F ||
    n == 0x3000

/-- `str.strip`: white space goes at both ends, and what is white space is what Python takes for it.
-/
def strip (s : String) : String :=
  String.ofList (((s.toList.dropWhile isPythonSpace).reverse.dropWhile isPythonSpace).reverse)

/-- `s.split(",")[0]`. -/
def firstItem (s : String) : String := String.ofList (s.toList.takeWhile (· != ','))

/-- `value or default` with a default that may be `None`. -/
def orElse? (value default : Option String) : Option String :=
  if value.getD "" = "" then default else value

/-- `extract_client_ip`: the first item of `X-Forwarded-For` if the header is there and not empty,
else the address of the peer. -/
def extractClientIp (request : HttpRequest) : Option String :=
  match orElse? (request.header "X-Forwarded-For") none with
  | some forwardedFor => some (strip (firstItem forwardedFor))
  | none => orElse? request.client none

/-- `build_request_identity`; `route` is the template of the route, `userId` the path parameter. -/
def buildRequestIdentity (route : String) (userId : Option String) (request : HttpRequest) :
    RequestIdentity where
  route := route
  userId := orElse? userId (request.header "X-User-Id")
  ipAddress := extractClientIp request
  tenantId := request.header "X-Tenant-Id"
  apiKey := request.header "X-Api-Key"

/-- **Proxies do not change who the client is.**  Each appends the address of its peer to the
header, and the address that counts is the first. -/
theorem firstItem_append (forwardedFor peers : String) :
    firstItem (forwardedFor ++ "," ++ peers) = firstItem forwardedFor := by
  have h : ∀ cs : List Char,
      (cs ++ ',' :: peers.toList).takeWhile (· != ',') = cs.takeWhile (· != ',') := by
    intro cs
    induction cs with
    | nil => simp
    | cons c cs ih => simp only [List.cons_append, List.takeWhile_cons, ih]
  simp [firstItem, h forwardedFor.toList]

/-! ## Tokens -/

/-- `str.isascii`. -/
def isAscii (s : String) : Bool := s.toList.all fun c => c.toNat < 128

/-- `compare_digest` on two strings; `none` is its `TypeError`. -/
def compareDigest (a b : String) : Option Bool :=
  if isAscii a && isAscii b then some (a == b) else none

/-- What a call without the right token comes to: an answer that says so, or an exception that
nobody expects. -/
inductive Refusal where
  /-- `HTTPException` with status 401. -/
  | unauthorized (detail : String)
  /-- A `TypeError`. -/
  | typeError
  deriving DecidableEq, Repr

/-- `_require_token`: the comparison takes the same time wherever two tokens differ, and raises if
one of them is not ASCII. -/
def requireToken (provided : Option String) (expected detail : String) : Except Refusal Unit :=
  match provided with
  | none => .error (.unauthorized detail)
  | some provided =>
    match compareDigest provided expected with
    | none => .error .typeError
    | some true => .ok ()
    | some false => .error (.unauthorized detail)

/-- `require_admin_token`: the token for everything that reads or changes policies. -/
def requireAdminToken (adminToken : String) (request : HttpRequest) : Except Refusal Unit :=
  requireToken (request.header "X-Admin-Token") adminToken "Missing or invalid admin token."

/-- `require_service_token`: the token of the services that ask for decisions. -/
def requireServiceToken (serviceToken : String) (request : HttpRequest) : Except Refusal Unit :=
  requireToken (request.header "X-Service-Token") serviceToken
    "Missing or invalid service token."

/-- **Only the token itself is let in**, and only if it is ASCII. -/
theorem requireToken_eq_ok_iff {provided : Option String} {expected detail : String} :
    requireToken provided expected detail = .ok () ↔
      provided = some expected ∧ isAscii expected = true := by
  cases provided with
  | none => simp [requireToken]
  | some provided =>
    rw [requireToken, compareDigest, Option.some_inj]
    by_cases h : provided = expected
    · subst h
      cases isAscii provided <;> simp
    · have hne : (provided == expected) = false := beq_eq_false_iff_ne.2 h
      cases isAscii provided <;> cases isAscii expected <;> simp [h, hne]

end RateLimiter
