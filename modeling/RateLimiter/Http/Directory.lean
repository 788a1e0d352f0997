import RateLimiter.Http.Authority
import RateLimiter.Service.Directory

/-!
# The interface as a directory

Every response to a request about policies is the one a directory gives (`World.run_directory`):
from the outside there are no rows, no commits and no caches.  A policy that is written is what the
next request reads, on every instance, whatever Redis does.
-/

set_option autoImplicit false

namespace RateLimiter

/-- The status of a response that carries a policy: a creation has its own. -/
def PolicyCall.status : PolicyCall → ℕ
  | .write (.create _ _) => 201
  | _ => 200

/-- How the answer to a call is sent. A sync responds with what its upsert has done and with the
fields that ConfigControl has sent along. When one of them is missing or has another type the upsert
stands, but the response to it is a 500. -/
def PolicyAnswer.SentAs {κ : Type} (cfg : ApiSettings) (x : Exchange κ) (response : HttpResponse)
    (call : PolicyCall) : PolicyAnswer → Prop
  | .policy p => response.status = call.status ∧ response.body = .policy p
  | .policies items => response.status = 200 ∧ response.body = .policies items items.length
  | .deleted => response.status = 204 ∧ response.body = .empty
  | .notFound => response.status = 404 ∧ response.body = .detail "Policy not found."
  | .failed => response.status = 500
  | .synced p action => ∃ body : Dict, x.fetched = some (.object body) ∧
      (ResponseFields cfg.conv body → response.status = 200 ∧ ∃ sync,
        buildResponse cfg.conv body p action = .ok sync ∧ response.body = .sync sync ∧
        sync.policy = p ∧ sync.action = action) ∧
      (¬ResponseFields cfg.conv body → response.status = 500)

/-- **What a directory makes of a request.**  A request that makes no call leaves it alone; from the
endpoints of `admin.py` it gets an error. -/
def Directory.Handles {κ : Type} (cfg : ApiSettings) (d : Directory) (x : Exchange κ)
    (response : HttpResponse) (d' : Directory) : Prop :=
  match x.call? cfg with
  | some call => ∃ answer : PolicyAnswer, d.Serves x.now call answer d' ∧
      answer.SentAs cfg x response call
  | none => d' = d ∧ (x.endpoint.isAdmin = true → 400 ≤ response.status)

/-- One request after the other, each handled by the directory that the one before it has left. -/
inductive Directory.HandlesAll {κ : Type} (cfg : ApiSettings) :
    Directory → List (Exchange κ × HttpResponse) → Directory → Prop where
  | nil (d : Directory) : HandlesAll cfg d [] d
  | cons {d d' d'' : Directory} {x : Exchange κ} {response : HttpResponse}
      {rest : List (Exchange κ × HttpResponse)} (h : d.Handles cfg x response d')
      (hrest : HandlesAll cfg d' rest d'') : HandlesAll cfg d ((x, response) :: rest) d''

namespace World

variable {κ : Type} [DecidableEq κ] {cfg : ApiSettings} {x : Exchange κ} {w : World κ}
  {d : Directory} {call : Option PolicyCall} {out : HttpResponse × World κ}

omit [DecidableEq κ] in
theorem sentAs_policyResponse {call : PolicyCall} (hcall : call.status = 200)
    (result : Except PolicyServiceError PolicyRead) :
    (PolicyAnswer.of .policy result).SentAs cfg x (policyResponse result) call := by
  cases result with
  | ok p => exact ⟨hcall.symm, rfl⟩
  | error error =>
    cases error with
    | notFound => exact ⟨rfl, rfl⟩
    | validation error => exact rfl
    | rejected => exact rfl

/-- Whether a request is served, of what it comes to. -/
def ServedBy (cfg : ApiSettings) (d : Directory) (x : Exchange κ) (call : Option PolicyCall)
    (out : HttpResponse × World κ) : Prop :=
  ∃ d' : Directory, d'.Shows out.2.stores.table ∧
    match call with
    | some call => ∃ answer : PolicyAnswer, d.Serves x.now call answer d' ∧
        answer.SentAs cfg x out.1 call
    | none => d' = d ∧ (x.endpoint.isAdmin = true → 400 ≤ out.1.status)

/-- The response names the policy and the action. -/
theorem buildResponse_policy {conv : Conversions} {body : Dict} {policy : PolicyRead}
    {action : SyncAction} {sync : ConfigControlSyncResponse}
    (h : buildResponse conv body policy action = .ok sync) :
    sync.policy = policy ∧ sync.action = action := by
  simp only [buildResponse, bind_ok_iff] at h
  obtain ⟨_, -, _, -, _, -, _, -, _, -, _, -, _, -, _, -, ⟨⟩⟩ := h
  exact ⟨rfl, rfl⟩

/-- What keeps the response from being built is never unavailable. -/
theorem buildResponse_ne_serviceUnavailable {conv : Conversions} {body : Dict} {policy : PolicyRead}
    {action : SyncAction} (error : ConfigControlSyncError) :
    buildResponse conv body policy action ≠ .error (.serviceUnavailable error) := by
  intro h
  simp only [buildResponse, Dict.item, bind_error_iff, orRaise_eq_error] at h
  rcases h with ⟨-, ⟨⟩⟩ | ⟨_, -, (⟨-, ⟨⟩⟩ | ⟨_, -, (⟨-, ⟨⟩⟩ | ⟨_, -, (⟨-, ⟨⟩⟩ | ⟨_, -, (⟨-, ⟨⟩⟩ |
    ⟨_, -, (⟨-, ⟨⟩⟩ | ⟨_, -, (⟨-, ⟨⟩⟩ | ⟨_, -, (⟨-, ⟨⟩⟩ | ⟨_, -, ⟨⟩⟩)⟩)⟩)⟩)⟩)⟩)⟩)⟩

theorem syncConfigControl_response {body : Dict} {payload : PolicyBase}
    (h : checkedPolicy cfg.conv cfg.configured x.fetched = .ok (body, payload)) :
    (syncConfigControl cfg x w).1 =
      match (PolicyService.upsertPolicyByName cfg.cache Row.fits x.context x.newId payload
        w.stores).1 with
      | .error _ => .internalServerError
      | .ok (policy, action) =>
        match buildResponse cfg.conv body policy action with
        | .ok sync => ⟨200, .sync sync, []⟩
        | .error (.serviceUnavailable error) => ⟨503, .syncError error, []⟩
        | .error _ => .internalServerError := by
  simp only [syncConfigControl, syncPolicyFromConfigControl, h]
  rcases PolicyService.upsertPolicyByName cfg.cache Row.fits x.context x.newId payload w.stores with
    ⟨_ | ⟨policy, action⟩, s⟩
  · rfl
  · dsimp only
    cases buildResponse cfg.conv body policy action with
    | ok sync => rfl
    | error error => cases error <;> rfl

omit [DecidableEq κ] in
/-- A sync whose upsert is accepted responds with it if the response can be built. -/
theorem sentAs_synced {body : Dict} (hbody : x.fetched = some (.object body)) (policy : PolicyRead)
    (action : SyncAction) {response : HttpResponse}
    (h : response = match buildResponse cfg.conv body policy action with
      | .ok sync => ⟨200, .sync sync, []⟩
      | .error (.serviceUnavailable error) => ⟨503, .syncError error, []⟩
      | .error _ => .internalServerError) {call : PolicyCall} :
    (PolicyAnswer.synced policy action).SentAs cfg x response call := by
  refine ⟨body, hbody, ?_⟩
  rw [← buildResponse_isOk_iff policy action, h]
  cases hbuild : buildResponse cfg.conv body policy action with
  | error error =>
    refine ⟨by rintro ⟨_, ⟨⟩⟩, fun _ => ?_⟩
    cases error with
    | serviceUnavailable error => exact absurd hbuild (buildResponse_ne_serviceUnavailable _)
    | _ => rfl
  | ok sync =>
    exact ⟨fun _ => ⟨rfl, sync, rfl, rfl, buildResponse_policy hbuild⟩,
      fun h => absurd ⟨sync, rfl⟩ h⟩

theorem servedBy_createPolicy (hd : d.Shows w.stores.table) (payload : PolicyBase) :
    ServedBy cfg d x (some (.write (.create x.newId payload))) (createPolicy cfg x payload w) := by
  obtain ⟨d', hserves, hd'⟩ := PolicyService.createPolicy_serves cfg.cache x.context hd x.newId
    payload
  refine ⟨d', ?_, _, hserves, ?_⟩
  · rw [createPolicy]
    split <;> exact hd'
  · rw [createPolicy]
    cases hout : (PolicyService.createPolicy cfg.cache Row.fits x.context x.newId payload
      w.stores).1 with
    | ok p => exact ⟨rfl, rfl⟩
    | error error =>
      rw [hout] at hserves
      cases error with
      | notFound =>
        -- A call that has no target finds it.
        cases hserves with
        | missing htarget => cases htarget
      | validation error => exact rfl
      | rejected => exact rfl

theorem servedBy_deletePolicy (hd : d.Shows w.stores.table) (id : UUID) :
    ServedBy cfg d x (some (.write (.delete id))) (deletePolicy cfg x id w) := by
  obtain ⟨d', hserves, hd'⟩ := PolicyService.deletePolicy_serves cfg.cache x.context hd id
  refine ⟨d', ?_, _, hserves, ?_⟩
  · rw [deletePolicy]
    split <;> exact hd'
  · rw [deletePolicy]
    cases hout : (PolicyService.deletePolicy cfg.cache Row.fits x.context id w.stores).1 with
    | ok => exact ⟨rfl, rfl⟩
    | error error =>
      cases error with
      | notFound => exact ⟨rfl, rfl⟩
      | validation error => exact rfl
      | rejected => exact rfl

theorem servedBy_syncConfigControl (hd : d.Shows w.stores.table) {body : Dict}
    {payload : PolicyBase}
    (hchecked : checkedPolicy cfg.conv cfg.configured x.fetched = .ok (body, payload)) :
    ServedBy cfg d x (some (.write (.upsert x.newId payload))) (syncConfigControl cfg x w) := by
  obtain ⟨d', hserves, hd'⟩ := PolicyService.upsertPolicyByName_serves cfg.cache x.context hd
    x.newId payload
  refine ⟨d', ?_, _, hserves, ?_⟩
  · rw [syncConfigControl_stores hchecked]
    exact hd'
  · have hresponse := syncConfigControl_response (w := w) hchecked
    cases hout : (PolicyService.upsertPolicyByName cfg.cache Row.fits x.context x.newId payload
      w.stores).1 with
    | error error =>
      rw [hout] at hserves hresponse
      rw [hresponse]
      cases error with
      | notFound =>
        cases hserves with
        | missing htarget => cases htarget
      | validation error => exact rfl
      | rejected => exact rfl
    | ok synced =>
      rw [hout] at hresponse
      exact sentAs_synced (checkedPolicy_eq_ok_iff.1 hchecked).2.1 synced.1 synced.2 hresponse

/-- **What a request comes to is what the directory in the table makes of it.** -/
theorem Handled.served (h : Handled cfg x w call out) (hd : d.Shows w.stores.table) :
    ServedBy cfg d x call out := by
  cases h with
  | refused h => exact ⟨d, hd, rfl, fun _ => h.status⟩
  | creates payload => exact servedBy_createPolicy hd payload
  | lists activeOnly =>
    obtain ⟨items, hlist, hitems⟩ := hd.lists activeOnly
    rw [listPolicies, hlist]
    exact ⟨d, hd, _, .listed hitems, rfl, rfl⟩
  | gets id =>
    exact ⟨d, hd, _, PolicyService.read_serves hd x.now id, sentAs_policyResponse rfl _⟩
  | updates id payload =>
    obtain ⟨d', hserves, hd'⟩ := PolicyService.updatePolicy_serves cfg.cache x.context hd id payload
    exact ⟨d', hd', _, hserves, sentAs_policyResponse rfl _⟩
  | deletes id => exact servedBy_deletePolicy hd id
  | syncs hchecked => exact servedBy_syncConfigControl hd hchecked
  | guards route userId service message hdecision =>
    refine ⟨d, ?_, rfl, fun h => ?_⟩
    · rw [guarded_world]
      exact hd
    · rw [Endpoint.isAdmin_of_isDecision hdecision] at h
      cases h
  | evaluates identity hdecision =>
    refine ⟨d, ?_, rfl, fun h => ?_⟩
    · rw [evaluateRateLimit_world]
      exact hd
    · rw [Endpoint.isAdmin_of_isDecision hdecision] at h
      cases h

/-- The middleware changes neither the status nor the body. -/
theorem handles_dispatch (cfg : ApiSettings) (x : Exchange κ) (hd : d.Shows w.stores.table) :
    ∃ d', d.Handles cfg x (dispatch cfg x w).1 d' ∧ d'.Shows (dispatch cfg x w).2.stores.table := by
  obtain ⟨d', hd', hserved⟩ := (handle_handled cfg x w).served hd
  refine ⟨d', ?_, hd'⟩
  have hsame : (dispatch cfg x w).1.status = (handle cfg x w).1.status ∧
      (dispatch cfg x w).1.body = (handle cfg x w).1.body := by
    simp only [dispatch]
    split <;> exact ⟨rfl, rfl⟩
  rw [Directory.Handles]
  cases hcall : x.call? cfg with
  | none =>
    rw [hcall] at hserved
    exact ⟨hserved.1, hsame.1 ▸ hserved.2⟩
  | some call =>
    rw [hcall] at hserved
    obtain ⟨answer, hserves, hsent⟩ := hserved
    refine ⟨answer, hserves, ?_⟩
    cases answer <;> simpa only [PolicyAnswer.SentAs, hsame] using hsent

/-- **The interface is a directory of policies.**  Whatever requests come in one after the other, to
whatever instances, while Redis and the caches do what they like, the responses are those a
directory gives that starts as the table reads, and what is left in the table reads as the directory
that is left. -/
theorem run_directory (cfg : ApiSettings) (w : World κ) (hvalid : w.stores.table.Valid)
    (hnames : w.stores.table.UniqueNames) (xs : List (Exchange κ)) :
    ∃ d d' : Directory, d.Shows w.stores.table ∧
      d.HandlesAll cfg (xs.zip (run cfg w xs).1) d' ∧
      d'.Shows (run cfg w xs).2.stores.table := by
  have hrun : ∀ (w : World κ) (d : Directory), d.Shows w.stores.table →
      ∃ d', d.HandlesAll cfg (xs.zip (run cfg w xs).1) d' ∧
        d'.Shows (run cfg w xs).2.stores.table := by
    induction xs with
    | nil => exact fun w d hd => ⟨d, .nil d, hd⟩
    | cons x xs ih =>
      intro w d hd
      obtain ⟨d', hhandles, hd'⟩ := handles_dispatch cfg x hd
      obtain ⟨d'', hrest, hd''⟩ := ih _ d' hd'
      exact ⟨d'', .cons hhandles hrest, hd''⟩
  obtain ⟨d, hd⟩ := Directory.Shows.exists_of_valid hvalid hnames
  obtain ⟨d', hhandles, hd'⟩ := hrun w d hd
  exact ⟨d, d', hd, hhandles, hd'⟩

/-- The settings of the requests below. -/
def configured : ApiSettings := { ApiSettings.sample with configured := true }

/-- A request with both tokens, while Redis is down; ConfigControl answers `fetched`. -/
def sampleRequest (endpoint : Endpoint) (body : HttpBody) (fetched : Option Json) : Exchange Unit :=
  ⟨(), endpoint, ⟨[("x-admin-token", "secret"), ("x-service-token", "secret")], none⟩, body,
    1, .sample, .outage, fetched⟩

/-- A sync whose response cannot be built, and which has changed the policy; the same with all the
fields of the response; the policy is deleted, and then asked for. -/
def sampleRequests : List (Exchange Unit) :=
  [sampleRequest .syncConfigControl (.json (.object []))
      (some (.object [("value", .fasterPolicy)])),
    sampleRequest .syncConfigControl (.json (.object [])) (some .sampleConfig),
    sampleRequest (.deletePolicy UUID.sample.str) .absent none,
    sampleRequest (.getPolicy UUID.sample.str) .absent none]

theorem run_directory_sample :
    let w : World Unit := ⟨⟨.sample, Caches.empty Unit⟩, .empty, fun _ => .empty⟩
    ∃ d d' : Directory, d.Shows .sample ∧
      d.HandlesAll configured (sampleRequests.zip (run configured w sampleRequests).1) d' ∧
      (run configured w sampleRequests).1.map HttpResponse.status = [500, 200, 204, 404] ∧
      d.find .sample ≠ none ∧ d'.find .sample = none := by
  intro w
  obtain ⟨d, d', hd, hhandles, hd'⟩ := run_directory configured w Table.sample_valid
    Table.sample_uniqueNames sampleRequests
  refine ⟨d, d', hd, hhandles, by decide +kernel, ?_, ?_⟩
  · rw [Ne, ← hd.lookup_eq_none_iff]
    decide +kernel
  · rw [← hd'.lookup_eq_none_iff]
    decide +kernel

end World

end RateLimiter
