import RateLimiter.Http.Authority
import RateLimiter.Service.Alone

/-!
# Responses to decisions

A request for a guarded endpoint and an evaluation are one call of `evaluate` each, and nothing else
is.  The response is the one that belongs to what has become of the call: its status, its headers
and its body say whether the request is let through, under which policy, how much of the quota is
left and when to come back (`Responds`, `World.responds_of_decision`).
-/

set_option autoImplicit false

namespace RateLimiter

/-- The policy under which a response lets its request through, if it was let through under one. -/
def HttpResponse.admittedBy (response : HttpResponse) : Option PolicyRead :=
  match response.body with
  | .guarded payload => payload.policy
  | .evaluation result => if result.allowed then result.policy else none
  | _ => none

/-- A response that says what is wrong lets nothing through. -/
theorem HttpResponse.IsError.admittedBy {response : HttpResponse} (h : response.IsError) :
    response.admittedBy = none := by
  rcases h.body with ⟨text, hbody⟩ | hbody | ⟨error, hbody⟩ <;>
    simp [HttpResponse.admittedBy, hbody]

/-! ## What a request asks to be decided -/

/-- How a request asks for a decision: by coming to an endpoint that is guarded, or by name. -/
inductive DecisionCall where
  /-- `enforce_rate_limit` stands before an endpoint that answers `message`, for a service or
  not. -/
  | guarded (route : String) (userId : Option String) (service : Option (String × String))
      (message : String)
  /-- The decision itself is asked for. -/
  | evaluation (identity : RequestIdentity)

namespace DecisionCall

/-- Whose request is decided: for an endpoint what `build_request_identity` makes of the request,
for an evaluation what its body says. -/
def identity (request : HttpRequest) : DecisionCall → RequestIdentity
  | guarded route userId _ _ => buildRequestIdentity route userId request
  | evaluation identity => identity

/-- What serves the request once it has been found that it asks for a decision. -/
def handler {κ : Type} [DecidableEq κ] (cfg : ApiSettings) (x : Exchange κ) :
    DecisionCall → Handler κ
  | guarded route userId service message => World.guarded cfg x route userId service message
  | evaluation identity => World.evaluateRateLimit cfg x identity

end DecisionCall

/-- The decision a request asks for.  An evaluation asks for one if it has the right token and a
valid body; a guarded endpoint always does. -/
def Exchange.decision? {κ : Type} (cfg : ApiSettings) (x : Exchange κ) : Option DecisionCall :=
  let service (route service operation : String) : DecisionCall :=
    .guarded route none (some (service, operation))
      (service ++ " handled " ++ operation ++ ". " ++
        "This route demonstrates how the limiter can protect platform services.")
  match x.endpoint with
  | .demoPublic => some (.guarded "/demo/public" none none
    ("Public endpoint reached. " ++
      "If Redis is unavailable and the policy is fail-open, requests continue."))
  | .demoProtected => some (.guarded "/demo/protected" none none
    ("Protected endpoint reached. " ++
      "In fail-closed mode the limiter blocks when Redis is unavailable."))
  | .demoUser userId => some (.guarded "/demo/user/\x7buser_id\x7d" (some userId) none
    ("User-scoped endpoint reached for " ++ userId ++ ". " ++
      "User-specific or composite policies take priority."))
  | .authSession => some (service "/services/auth/session" "auth" "create-session")
  | .paymentsAuthorize =>
    some (service "/services/payments/authorize" "payments" "authorize-charge")
  | .searchQuery => some (service "/services/search/query" "search" "query-index")
  | .evaluateRateLimit =>
    ((requireServiceToken cfg.serviceToken x.request).toOption.bind fun _ =>
      x.body.dict?.bind rateLimitEvaluationRequest).map .evaluation
  | _ => none

/-! ## What the response is -/

/-- The header the middleware adds. -/
def ApiSettings.instanceHeader (cfg : ApiSettings) : String × String :=
  ("X-Instance-Name", cfg.appInstanceName)

/-- **The response to a request, by what becomes of its call.** The decision's headers go with every
response of a guarded endpoint that was decided and with the body of an evaluation, and a request
that no policy applies to is let through without them. -/
inductive Responds {κ : Type} (cfg : ApiSettings) (x : Exchange κ) :
    HttpResponse → Option (CallResult κ) → Prop where
  /-- The decision allows the request, and the endpoint answers. -/
  | letThrough {route message : String} {userId : Option String}
      {service : Option (String × String)} {policy : PolicyRead} {decision : RateLimitDecision}
      {source : Source κ} (hcall : x.decision? cfg = some (.guarded route userId service message))
      (hallowed : decision.allowed = true) :
      Responds cfg x
        ⟨200, .guarded ⟨service, message, cfg.appInstanceName, route, some policy,
          some decision.headers⟩, decision.headers ++ [cfg.instanceHeader]⟩
        (some (.answered ⟨policy, decision, source⟩))
  /-- It does not, and the endpoint is not reached. -/
  | turnedDown {route message : String} {userId : Option String}
      {service : Option (String × String)} {policy : PolicyRead} {decision : RateLimitDecision}
      {source : Source κ} (hcall : x.decision? cfg = some (.guarded route userId service message))
      (hallowed : decision.allowed = false) :
      Responds cfg x
        ⟨429, .detail (World.denialDetail decision), decision.headers ++ [cfg.instanceHeader]⟩
        (some (.answered ⟨policy, decision, source⟩))
  /-- No policy applies, and the endpoint answers. -/
  | unlimited {route message : String} {userId : Option String}
      {service : Option (String × String)}
      (hcall : x.decision? cfg = some (.guarded route userId service message)) :
      Responds cfg x
        ⟨200, .guarded ⟨service, message, cfg.appInstanceName, route, none, none⟩,
          [cfg.instanceHeader]⟩
        (some (.unlimited (buildRequestIdentity route userId x.request)))
  /-- The body of an evaluation is the decision, whether it allows the request or not. -/
  | evaluated {identity : RequestIdentity} {policy : PolicyRead} {decision : RateLimitDecision}
      {source : Source κ} (hcall : x.decision? cfg = some (.evaluation identity)) :
      Responds cfg x
        ⟨200, .evaluation ⟨decision.allowed, true, decision.degraded, decision.localFallback,
          decision.retryAfterSeconds, decision.headers, some policy⟩, [cfg.instanceHeader]⟩
        (some (.answered ⟨policy, decision, source⟩))
  /-- It says that no policy applies. -/
  | notApplied {identity : RequestIdentity}
      (hcall : x.decision? cfg = some (.evaluation identity)) :
      Responds cfg x
        ⟨200, .evaluation { allowed := true, applied := false }, [cfg.instanceHeader]⟩
        (some (.unlimited identity))
  /-- The table cannot be read. -/
  | raised {call : DecisionCall} (hcall : x.decision? cfg = some call) :
      Responds cfg x .internalServerError (some .raised)
  /-- The request asks for no decision, and it is not let through anywhere. -/
  | notAsked {response : HttpResponse} (hcall : x.decision? cfg = none)
      (hresponse : response.admittedBy = none) : Responds cfg x response none

/-- **A response lets through exactly what the answer allows**, under the policy of the answer. -/
theorem Responds.admittedBy {κ : Type} {cfg : ApiSettings} {x : Exchange κ}
    {response : HttpResponse} {result : Option (CallResult κ)}
    (h : Responds cfg x response result) :
    response.admittedBy = (result.bind CallResult.answer?).bind fun a =>
      if a.decision.allowed then some a.policy else none := by
  cases h with
  | letThrough hcall hallowed =>
    simp [HttpResponse.admittedBy, CallResult.answer?, hallowed]
  | turnedDown hcall hallowed =>
    simp [HttpResponse.admittedBy, CallResult.answer?, hallowed]
  | evaluated | unlimited | notApplied | raised => rfl
  | notAsked hcall hresponse => exact hresponse

/-- Only a request that asks for a decision has a call. -/
theorem Responds.exists_call {κ : Type} {cfg : ApiSettings} {x : Exchange κ}
    {response : HttpResponse} {result : CallResult κ} (h : Responds cfg x response (some result)) :
    ∃ call, x.decision? cfg = some call := by
  cases h with
  | letThrough hcall | turnedDown hcall | unlimited hcall => exact ⟨_, hcall⟩
  | evaluated hcall | notApplied hcall | raised hcall => exact ⟨_, hcall⟩

namespace World

variable {κ α : Type} [DecidableEq κ] {cfg : ApiSettings} {x : Exchange κ} {w : World κ}

omit [DecidableEq κ] in
/-- What comes of a body that is checked and handled: the handler gets what is in it, or the request
is refused before it has done anything. -/
theorem decoded_authorized_validated (check : Except Refusal Unit) (body : HttpBody)
    (parse : Dict → Option α) (handler : α → Handler κ) (w : World κ) :
    let out := decoded body
      (fun body => authorized check (validated ((dictBody body).bind parse) handler)) w
    match check.toOption.bind fun _ => body.dict?.bind parse with
    | some a => out = handler a w
    | none => ∃ response : HttpResponse, response.IsError ∧ out = (response, w) := by
  intro out
  have hrefused : ∀ refusal, (HttpResponse.refused refusal).IsError :=
    HttpResponse.isError_refused
  cases body with
  | malformed =>
    have hnone : (check.toOption.bind fun _ => HttpBody.malformed.dict?.bind parse) = none := by
      cases check <;> rfl
    rw [hnone]
    exact ⟨_, HttpResponse.isError_unprocessable, rfl⟩
  | absent =>
    cases check with
    | error refusal => exact ⟨_, hrefused refusal, rfl⟩
    | ok => exact ⟨_, HttpResponse.isError_unprocessable, rfl⟩
  | json value =>
    cases check with
    | error refusal => exact ⟨_, hrefused refusal, rfl⟩
    | ok =>
      show match value.dict?.bind parse with
        | some a => out = handler a w
        | none => ∃ response : HttpResponse, response.IsError ∧ out = (response, w)
      have hout : out = validated (value.dict?.bind parse) handler w := rfl
      rw [hout]
      cases value.dict?.bind parse with
      | none => exact ⟨_, HttpResponse.isError_unprocessable, rfl⟩
      | some a => rfl

/-- **A request that asks for a decision is served by it**: what the endpoint checks before has
passed by then. -/
theorem handle_of_decision {call : DecisionCall} (h : x.decision? cfg = some call) (w : World κ) :
    handle cfg x w = call.handler cfg x w := by
  have hparsed := decoded_authorized_validated (requireServiceToken cfg.serviceToken x.request)
    x.body rateLimitEvaluationRequest (evaluateRateLimit cfg x) w
  unfold Exchange.decision? at h
  unfold handle
  cases hendpoint : x.endpoint with
  | evaluateRateLimit =>
    rw [hendpoint] at h
    obtain ⟨identity, hidentity, rfl⟩ := Option.map_eq_some_iff.1 h
    rw [hidentity] at hparsed
    exact hparsed
  | createPolicy | listPolicies | getPolicy | updatePolicy | deletePolicy | syncConfigControl =>
    rw [hendpoint] at h
    cases h
  | _ =>
    rw [hendpoint] at h
    cases h
    rfl

/-- What comes of a request, unless it is a decision: it writes at most, and its response lets
nothing through. -/
theorem Handled.writes {call : Option PolicyCall} {out : HttpResponse × World κ}
    (h : Handled cfg x w call out) (hdecision : ¬x.endpoint.isDecision = true) :
    out.1.admittedBy = none ∧ ∃ write : Option WriteCall,
      (∀ call ∈ write, ∀ id ∈ call.newId?, id = x.newId) ∧
      out.2 = write.elim w fun write =>
        { w with stores := write.applyTo cfg.cache x.context w.stores } := by
  have hworld := h.world
  cases h with
  | guards _ _ _ _ h => exact absurd h hdecision
  | evaluates _ h => exact absurd h hdecision
  | refused herror =>
    exact ⟨herror.admittedBy, none, by simp, rfl⟩
  | gets id =>
    refine ⟨?_, none, by simp, rfl⟩
    simp only [getPolicy, policyResponse]
    split <;> rfl
  | lists activeOnly =>
    refine ⟨?_, _, ?_, hworld.resolve_left (by rintro ⟨⟨⟩, -⟩)⟩
    · rw [listPolicies]
      split <;> rfl
    · simp [PolicyCall.write?]
  | creates payload =>
    refine ⟨?_, _, ?_, hworld.resolve_left (by rintro ⟨⟨⟩, -⟩)⟩
    · rw [createPolicy]
      split <;> rfl
    · simp [PolicyCall.write?, WriteCall.newId?]
  | updates id payload =>
    refine ⟨?_, _, ?_, hworld.resolve_left (by rintro ⟨⟨⟩, -⟩)⟩
    · simp only [updatePolicy, policyResponse]
      split <;> rfl
    · simp [PolicyCall.write?, WriteCall.newId?]
  | deletes id =>
    refine ⟨?_, _, ?_, hworld.resolve_left (by rintro ⟨⟨⟩, -⟩)⟩
    · rw [deletePolicy]
      split <;> rfl
    · simp [PolicyCall.write?, WriteCall.newId?]
  | syncs hchecked =>
    refine ⟨?_, _, ?_, hworld.resolve_left (by rintro ⟨⟨⟩, -⟩)⟩
    · rw [World.syncConfigControl]
      split <;> rfl
    · simp [PolicyCall.write?, WriteCall.newId?]

/-- **A request that asks for none writes at most, and its response lets nothing through.** -/
theorem handle_of_no_decision (h : x.decision? cfg = none) (w : World κ) :
    (handle cfg x w).1.admittedBy = none ∧ ∃ write : Option WriteCall,
      (∀ call ∈ write, ∀ id ∈ call.newId?, id = x.newId) ∧
      (handle cfg x w).2 = write.elim w fun write =>
        { w with stores := write.applyTo cfg.cache x.context w.stores } := by
  by_cases hdecision : x.endpoint.isDecision = true
  · -- Only an evaluation can be refused before it asks.
    have hparsed := decoded_authorized_validated (requireServiceToken cfg.serviceToken x.request)
      x.body rateLimitEvaluationRequest (evaluateRateLimit cfg x) w
    unfold Exchange.decision? at h
    unfold handle
    cases hendpoint : x.endpoint with
    | evaluateRateLimit =>
      rw [hendpoint] at h
      rw [Option.map_eq_none_iff.1 h] at hparsed
      obtain ⟨response, herror, hout⟩ := hparsed
      dsimp only at hout ⊢
      rw [hout]
      exact ⟨herror.admittedBy, none, by simp, rfl⟩
    | createPolicy | listPolicies | getPolicy | updatePolicy | deletePolicy | syncConfigControl =>
      rw [hendpoint] at hdecision
      cases hdecision
    | _ =>
      rw [hendpoint] at h
      cases h
  · exact (handle_handled cfg x w).writes hdecision

/-- **The response tells what has become of the call**: by its status and headers at a guarded
endpoint, by its body at the evaluation. -/
theorem responds_of_decision {call : DecisionCall} (hcall : x.decision? cfg = some call)
    {table : Table} {attempts : List Attempt} {ks : Keyspace} {result : CallResult κ}
    (h : Answered (call.identity x.request) table attempts ks
      (w.evaluate cfg x (call.identity x.request)).1 result) :
    Responds cfg x (dispatch cfg x w).1 (some result) := by
  rw [dispatch, handle_of_decision hcall w]
  cases call with
  | guarded route userId service message =>
    rw [DecisionCall.handler, guarded]
    rcases hout : w.evaluate cfg x (buildRequestIdentity route userId x.request) with ⟨result, w'⟩
    rw [DecisionCall.identity, hout] at h
    cases h with
    | @decided decision policy source =>
      cases hallowed : decision.allowed with
      | true =>
        simpa [hallowed, ApiSettings.instanceHeader] using Responds.letThrough hcall hallowed
      | false =>
        simpa [hallowed, HttpResponse.exception, ApiSettings.instanceHeader] using
          Responds.turnedDown hcall hallowed
    | unlimited => exact .unlimited hcall
    | raised => exact .raised hcall
  | evaluation identity =>
    rw [DecisionCall.handler, evaluateRateLimit]
    rcases hout : w.evaluate cfg x identity with ⟨result, w'⟩
    rw [DecisionCall.identity, hout] at h
    cases h with
    | decided => exact .evaluated hcall
    | unlimited => exact .notApplied hcall
    | raised => exact .raised hcall

/-- What a request for a decision leaves is what its call leaves. -/
theorem dispatch_world_of_decision {call : DecisionCall} (h : x.decision? cfg = some call)
    (w : World κ) :
    (dispatch cfg x w).2 = (w.evaluate cfg x (call.identity x.request)).2 := by
  rw [dispatch, handle_of_decision h w]
  cases call with
  | guarded route userId service message => exact guarded_world _ _ _ _
  | evaluation identity => exact evaluateRateLimit_world identity

end World

end RateLimiter
