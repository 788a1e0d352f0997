import RateLimiter.Http.Request
import RateLimiter.Service.ConfigSync
import RateLimiter.Service.Evaluate

/-!
# The HTTP interface

One instance handles a request from the routing on: the token is checked, the body and the
parameters are validated, the endpoint runs, and what it raises becomes a status.  An exception that
nobody handles is a 500.

A request changes the database, the caches, Redis and the local limiter of its instance
(`World`).  What the environment contributes, the clocks and the random draws and how the Redis
operations end, is an `Exchange`.
-/

set_option autoImplicit false

namespace RateLimiter

/-! ## Parts of a request and of a response -/

/-- A body as it arrives. Text that is no JSON is told apart from no body, since it is refused
before anything else is looked at. -/
inductive HttpBody where
  /-- None. -/
  | absent
  /-- Text that is no JSON. -/
  | malformed
  /-- JSON. -/
  | json (value : Json)

/-- The route a request is for, with its path and query parameters as text; they are validated only
after the token has been checked. -/
inductive Endpoint where
  | createPolicy
  | listPolicies (activeOnly : Option String)
  | getPolicy (policyId : String)
  | updatePolicy (policyId : String)
  | deletePolicy (policyId : String)
  | demoPublic
  | demoProtected
  | demoUser (userId : String)
  | authSession
  | paymentsAuthorize
  | searchQuery
  | evaluateRateLimit
  | syncConfigControl

/-- `RateLimitEvaluationResponse`: what an evaluation tells a service that asks for a decision and
enforces it itself. -/
structure RateLimitEvaluationResponse where
  allowed : Bool
  applied : Bool
  degraded : Bool := false
  localFallback : Bool := false
  retryAfterSeconds : ℤ := 0
  headers : List (String × String) := []
  policy : Option PolicyRead := none

/-- What `build_demo_payload` and `build_service_payload` return: the endpoint's own message, and
under which policy the request was let through. -/
structure GuardedPayload where
  /-- `service` and `operation`, of a service. -/
  service : Option (String × String)
  message : String
  instanceName : String
  route : String
  policy : Option PolicyRead
  decision : Option (List (String × String))

/-- The body of a response, by the endpoint or the handler of exceptions that has made it. -/
inductive ResponseBody where
  | empty
  /-- `{"detail": ...}`. -/
  | detail (text : String)
  /-- The list of errors of a 422. -/
  | errors
  | policy (policy : PolicyRead)
  /-- `PolicyListResponse`. -/
  | policies (items : List PolicyRead) (count : ℕ)
  | evaluation (response : RateLimitEvaluationResponse)
  | sync (response : ConfigControlSyncResponse)
  /-- The detail of a 503 is the text of the error. -/
  | syncError (error : ConfigControlSyncError)
  | guarded (payload : GuardedPayload)

/-- A response. Only those headers are modelled that the service itself sets. -/
structure HttpResponse where
  status : ℕ
  body : ResponseBody
  headers : List (String × String) := []

namespace HttpResponse

/-- `HTTPException`. -/
def exception (status : ℕ) (detail : String) (headers : List (String × String)) : HttpResponse :=
  ⟨status, .detail detail, headers⟩

/-- An exception nobody handles. -/
def internalServerError : HttpResponse := ⟨500, .detail "Internal Server Error", []⟩

/-- `RequestValidationError`. -/
def unprocessable : HttpResponse := ⟨422, .errors, []⟩

/-- "Policy not found." -/
def policyNotFound : HttpResponse := exception 404 "Policy not found." []

/-- What a refused token comes to: a 401, or a 500 if a token that is not ASCII makes
`compare_digest` raise. -/
def refused : Refusal → HttpResponse
  | .unauthorized detail => exception 401 detail []
  | .typeError => internalServerError

end HttpResponse

/-- `RateLimitDecision.headers`: the four headers by which a client learns of its quota; negative
numbers are sent as zero. -/
def RateLimitDecision.headers (decision : RateLimitDecision) : List (String × String) :=
  [("X-RateLimit-Limit", toString decision.limit),
    ("X-RateLimit-Remaining", toString (max 0 decision.remaining)),
    ("X-RateLimit-Reset", toString decision.resetAtEpochSeconds),
    ("Retry-After", toString (max 0 decision.retryAfterSeconds))]

/-! ## Bodies -/

/-- What a body gives for a field of `PolicyUpdate`: nothing if the key is missing. -/
def Dict.updateField (conv : Conversions) (raw : Dict) (f : Field) :
    Option { v : Option (Option f.Base) // ∀ x, v = some (some x) → f.accepts x = true } :=
  match raw.lookup f.key with
  | none => some ⟨none, by simp⟩
  | some .null => some ⟨some none, by simp⟩
  | some j => (f.parse conv j).bind fun x =>
    if h : f.accepts x = true then some ⟨some (some x), by rintro y ⟨⟩; exact h⟩ else none

/-- `PolicyUpdate.model_validate`; `none` if it raises. -/
def policyUpdate (conv : Conversions) (raw : Dict) : Option PolicyUpdate :=
  if h : ∀ f : Field, (raw.updateField conv f).isSome = true then
    some ⟨fun f => ((raw.updateField conv f).get (h f)).1,
      fun f => ((raw.updateField conv f).get (h f)).2⟩
  else none

/-- An optional text of at most `maxLength` characters. -/
def Dict.optionalText (raw : Dict) (key : String) (maxLength : ℕ) : Option (Option String) :=
  match raw.lookup key with
  | none | some .null => some none
  | some j => j.str?.bind fun s => if s.length ≤ maxLength then some (some s) else none

/-- `RateLimitEvaluationRequest.model_validate`, as a `RequestIdentity`. -/
def rateLimitEvaluationRequest (raw : Dict) : Option RequestIdentity := do
  let route ← (raw.lookup "route").bind Json.str?
  guard (1 ≤ route.length ∧ route.length ≤ 255)
  let userId ← raw.optionalText "user_id" 128
  let ipAddress ← raw.optionalText "ip_address" 64
  let tenantId ← raw.optionalText "tenant_id" 128
  let apiKey ← raw.optionalText "api_key" 128
  return ⟨route, userId, ipAddress, tenantId, apiKey⟩

/-- A field of type `str | None`. -/
def Dict.isOptionalText (raw : Dict) (key : String) : Bool :=
  match raw.lookup key with
  | none | some .null | some (.string _) => true
  | _ => false

/-- `ConfigControlSyncRequest.model_validate` succeeds. -/
def isConfigControlSyncRequest (raw : Dict) : Bool :=
  raw.isOptionalText "config_name" && raw.isOptionalText "environment" &&
    raw.isOptionalText "target"

/-! ## The state and what else decides -/

/-- What the interface needs to know of the settings and of pydantic. -/
structure ApiSettings where
  cache : CacheSettings
  limiter : Settings
  adminToken : String
  serviceToken : String
  appInstanceName : String
  configured : Bool
  /-- How JSON becomes a number or a truth value. -/
  conv : Conversions
  /-- How a path parameter becomes a UUID. -/
  uuid : String → Option UUID
  /-- How a query parameter becomes a truth value. -/
  queryBool : String → Option Bool

/-- The settings of concrete runs. -/
def ApiSettings.sample : ApiSettings where
  cache := ⟨30, 30, true⟩
  limiter := ⟨0, false, 60⟩
  adminToken := "secret"
  serviceToken := "secret"
  appInstanceName := "api"
  configured := false
  conv := .exact
  uuid s := if h : isCanonicalUuid s = true then some ⟨s, h⟩ else none
  queryBool s := if s = "true" then some true else if s = "false" then some false else none

/-- Everything requests work on: the database, the policy caches, Redis and the local limiters of
all instances. -/
structure World (κ : Type) where
  /-- The database and the policy caches. -/
  stores : Stores κ
  /-- The keys in Redis. -/
  redis : Keyspace
  /-- The local limiter of each instance. -/
  limiter : κ → LocalFallbackLimiter

/-- A request, and what else decides what becomes of it: the instance it comes to, the clocks, the
random draws and how Redis behaves. -/
structure Exchange (κ : Type) where
  host : κ
  endpoint : Endpoint
  request : HttpRequest
  body : HttpBody
  /-- The database's `now()` at the commit. -/
  now : ℤ
  /-- What `uuid4` draws. -/
  newId : UUID
  /-- How the Redis operations go. -/
  env : Environment
  fetched : Option Json

/-- Where and when the calls of `PolicyService` run. -/
def Exchange.context {κ : Type} (x : Exchange κ) : CallContext κ := ⟨x.host, x.now, x.env.cacheOp⟩

/-- A handler, or a part of one: it answers, and leaves the world changed. -/
abbrev Handler (κ : Type) := World κ → HttpResponse × World κ

/-! ## What precedes an endpoint -/

section

variable {κ : Type}

/-- A dependency that checks a token. If it raises, the endpoint does not run and nothing is
changed. -/
def authorized (check : Except Refusal Unit) (handler : Handler κ) : Handler κ := fun w =>
  match check with
  | .ok () => handler w
  | .error refusal => (.refused refusal, w)

/-- A parameter, or a body, that is validated. What does not validate is a 422, and the endpoint
does not run. -/
def validated {α : Type} (value : Option α) (handler : α → Handler κ) : Handler κ := fun w =>
  match value with
  | some a => handler a w
  | none => (.unprocessable, w)

/-- The body is decoded before anything else happens: text that is no JSON is a 422, whatever the
token is. -/
def decoded (body : HttpBody) (handler : Option Json → Handler κ) : Handler κ := fun w =>
  match body with
  | .absent => handler none w
  | .malformed => (.unprocessable, w)
  | .json value => handler (some value) w

end

namespace World

variable {κ : Type} [DecidableEq κ] (cfg : ApiSettings) (x : Exchange κ)

/-! ## Policies -/

/-- The endpoints that answer with a policy and catch `PolicyNotFoundError`. -/
def policyResponse : Except PolicyServiceError PolicyRead → HttpResponse
  | .ok policy => ⟨200, .policy policy, []⟩
  | .error .notFound => .policyNotFound
  | .error (.validation _) | .error .rejected => .internalServerError

/-- `create_policy` of `admin.py`: a 201 with the policy, or a 500 if the database rejects it. -/
def createPolicy (payload : PolicyBase) : Handler κ := fun w =>
  let out := PolicyService.createPolicy cfg.cache Row.fits x.context x.newId payload w.stores
  match out.1 with
  | .ok policy => (⟨201, .policy policy, []⟩, { w with stores := out.2 })
  | .error _ => (.internalServerError, { w with stores := out.2 })

/-- `list_policies` of `admin.py`, from the database and not from the caches. -/
def listPolicies (activeOnly : Bool) : Handler κ := fun w =>
  match RateLimiter.listPolicies activeOnly w.stores.table with
  | .ok items => (⟨200, .policies items items.length, []⟩, w)
  | .error _ => (.internalServerError, w)

/-- `get_policy`. -/
def getPolicy (policyId : UUID) : Handler κ := fun w =>
  (policyResponse (PolicyService.read w.stores policyId), w)

/-- `update_policy`. -/
def updatePolicy (policyId : UUID) (payload : PolicyUpdate) : Handler κ := fun w =>
  let out := PolicyService.updatePolicy cfg.cache Row.fits x.context policyId payload w.stores
  (policyResponse out.1, { w with stores := out.2 })

/-- `delete_policy`. -/
def deletePolicy (policyId : UUID) : Handler κ := fun w =>
  let out := PolicyService.deletePolicy cfg.cache Row.fits x.context policyId w.stores
  match out.1 with
  | .ok () => (⟨204, .empty, []⟩, { w with stores := out.2 })
  | .error .notFound => (.policyNotFound, { w with stores := out.2 })
  | .error _ => (.internalServerError, { w with stores := out.2 })

/-! ## Decisions -/

/-- `RateLimiterService.evaluate` on the instance of the request, with the Redis all instances share
and the instance's own local limiter. -/
def evaluate (identity : RequestIdentity) (w : World κ) :
    Except EvaluateError (Option RateLimitDecision × Option PolicyRead) × World κ :=
  let out := RateLimiterService.evaluate cfg.cache cfg.limiter x.host x.env w.stores.table identity
    w.stores.caches ⟨w.redis, w.limiter x.host⟩
  (out.1,
    { stores := ⟨w.stores.table, out.2.1⟩
      redis := out.2.2.redis
      limiter := Function.update w.limiter x.host out.2.2.limiter })

/-- The detail of a 429: whether the quota is used up, or Redis is away and the policy fails closed.
-/
def denialDetail (decision : RateLimitDecision) : String :=
  if decision.degraded && !decision.localFallback then
    "Rate limiter unavailable in fail-closed mode."
  else "Rate limit exceeded."

/-- An endpoint behind `enforce_rate_limit`, which does nothing but answer. It is reached if the
decision allows the request or no policy applies. -/
def guarded (route : String) (userId : Option String) (service : Option (String × String))
    (message : String) : Handler κ := fun w =>
  let payload (decision : Option RateLimitDecision) (policy : Option PolicyRead) : ResponseBody :=
    .guarded ⟨service, message, cfg.appInstanceName, route, policy,
      decision.map RateLimitDecision.headers⟩
  match w.evaluate cfg x (buildRequestIdentity route userId x.request) with
  | (.error _, w) => (.internalServerError, w)
  | (.ok (none, _), w) => (⟨200, payload none none, []⟩, w)
  | (.ok (some decision, policy), w) =>
    if decision.allowed then (⟨200, payload decision policy, decision.headers⟩, w)
    else (.exception 429 (denialDetail decision) decision.headers, w)

/-- The endpoints of `demo.py`: the request is matched by its route, and by the user in its path if
there is one. -/
def demo (route : String) (userId : Option String) (message : String) : Handler κ :=
  guarded cfg x route userId none message

/-- The endpoints of `services.py`, which say in their answer which service and which operation it
was. -/
def service (route service operation : String) : Handler κ :=
  guarded cfg x route none (some (service, operation))
    (service ++ " handled " ++ operation ++ ". " ++
      "This route demonstrates how the limiter can protect platform services.")

/-- `evaluate_rate_limit`: the decision itself is the response, and a request that is turned down
gets a 200 too. -/
def evaluateRateLimit (identity : RequestIdentity) : Handler κ := fun w =>
  match w.evaluate cfg x identity with
  | (.error _, w) => (.internalServerError, w)
  | (.ok (none, _), w) => (⟨200, .evaluation { allowed := true, applied := false }, []⟩, w)
  | (.ok (some decision, policy), w) =>
    (⟨200, .evaluation
      { allowed := decision.allowed
        applied := policy.isSome
        degraded := decision.degraded
        localFallback := decision.localFallback
        retryAfterSeconds := decision.retryAfterSeconds
        headers := decision.headers
        policy := policy }, []⟩, w)

/-- `sync_policy_from_config_control`: only a `ConfigControlSyncError` becomes a 503; what else is
raised, nobody handles. -/
def syncConfigControl : Handler κ := fun w =>
  let out := syncPolicyFromConfigControl cfg.cache cfg.conv cfg.configured x.context x.newId
    x.fetched w.stores
  match out.1 with
  | .ok response => (⟨200, .sync response, []⟩, { w with stores := out.2 })
  | .error (.serviceUnavailable error) => (⟨503, .syncError error, []⟩, { w with stores := out.2 })
  | .error _ => (.internalServerError, { w with stores := out.2 })

/-! ## The router -/

/-- The `dict` in a body. -/
def dictBody (body : Option Json) : Option Dict := body.bind Json.dict?

/-- The request at its endpoint. What is checked first differs: a body is decoded before the token
is looked at, and validated after it. -/
def handle : Handler κ :=
  let admin := authorized (κ := κ) (requireAdminToken cfg.adminToken x.request)
  let internal := authorized (κ := κ) (requireServiceToken cfg.serviceToken x.request)
  match x.endpoint with
  | .createPolicy => decoded x.body fun body =>
    admin (validated ((dictBody body).bind (policyCreate cfg.conv)) (createPolicy cfg x))
  | .listPolicies activeOnly =>
    admin (validated (activeOnly.elim (some true) cfg.queryBool) listPolicies)
  | .getPolicy policyId => admin (validated (cfg.uuid policyId) getPolicy)
  | .updatePolicy policyId => decoded x.body fun body =>
    admin (validated (cfg.uuid policyId) fun policyId =>
      validated ((dictBody body).bind (policyUpdate cfg.conv)) (updatePolicy cfg x policyId))
  | .deletePolicy policyId => admin (validated (cfg.uuid policyId) (deletePolicy cfg x))
  | .demoPublic => demo cfg x "/demo/public" none
    ("Public endpoint reached. " ++
      "If Redis is unavailable and the policy is fail-open, requests continue.")
  | .demoProtected => demo cfg x "/demo/protected" none
    ("Protected endpoint reached. " ++
      "In fail-closed mode the limiter blocks when Redis is unavailable.")
  | .demoUser userId => demo cfg x "/demo/user/\x7buser_id\x7d" (some userId)
    ("User-scoped endpoint reached for " ++ userId ++ ". " ++
      "User-specific or composite policies take priority.")
  | .authSession => service cfg x "/services/auth/session" "auth" "create-session"
  | .paymentsAuthorize =>
    service cfg x "/services/payments/authorize" "payments" "authorize-charge"
  | .searchQuery => service cfg x "/services/search/query" "search" "query-index"
  | .evaluateRateLimit => decoded x.body fun body =>
    internal (validated ((dictBody body).bind rateLimitEvaluationRequest)
      (evaluateRateLimit cfg x))
  | .syncConfigControl => decoded x.body fun body =>
    internal (validated ((dictBody body).filter isConfigControlSyncRequest) fun _ =>
      syncConfigControl cfg x)

/-- `ObservabilityMiddleware.dispatch`: a response that is not an exception gets one more header. -/
def dispatch : Handler κ := fun w =>
  let out := handle cfg x w
  (if out.1.status = 500 then out.1
    else { out.1 with headers := out.1.headers ++ [("X-Instance-Name", cfg.appInstanceName)] },
    out.2)

end World

end RateLimiter
