import RateLimiter.Http.Api

/-!
# Who changes the table

Of all requests only those with the right token and a valid body write policies
(`Exchange.write?`), and what a write makes of the table depends on nothing but the table
(`WriteCall.apply`).  So the table after any number of requests is what their authorised writes make
of it in their order (`World.run_table`): reading, deciding, being refused or failing leaves it
alone, and neither caches nor Redis have a say.
-/

set_option autoImplicit false

namespace RateLimiter

/-! ## Requests -/

/-- The `dict` in the body. -/
def HttpBody.dict? : HttpBody → Option Dict
  | .json value => value.dict?
  | .absent | .malformed => none

/-- The write a request makes, if it has the right token and everything in it is valid. -/
def Exchange.write? {κ : Type} (cfg : ApiSettings) (x : Exchange κ) : Option WriteCall :=
  let admin := (requireAdminToken cfg.adminToken x.request).toOption
  match x.endpoint with
  | .createPolicy => admin.bind fun _ =>
    (x.body.dict?.bind (policyCreate cfg.conv)).bind fun payload =>
      some (.create x.newId payload)
  | .updatePolicy policyId => admin.bind fun _ => (cfg.uuid policyId).bind fun id =>
    (x.body.dict?.bind (policyUpdate cfg.conv)).bind fun payload => some (.update id payload)
  | .deletePolicy policyId => admin.bind fun _ =>
    (cfg.uuid policyId).bind fun id => some (.delete id)
  | .syncConfigControl => (requireServiceToken cfg.serviceToken x.request).toOption.bind fun _ =>
    (x.body.dict?.filter isConfigControlSyncRequest).bind fun _ =>
      (checkedPolicy cfg.conv cfg.configured x.fetched).toOption.map fun checked =>
        .upsert x.newId checked.2
  | _ => none

/-- The call a request makes of `PolicyService`, if it has the right token and everything in it is
valid. -/
def Exchange.call? {κ : Type} (cfg : ApiSettings) (x : Exchange κ) : Option PolicyCall :=
  let admin := (requireAdminToken cfg.adminToken x.request).toOption
  match x.endpoint with
  | .listPolicies activeOnly => admin.bind fun _ =>
    (activeOnly.elim (some true) cfg.queryBool).map .list
  | .getPolicy policyId => admin.bind fun _ => (cfg.uuid policyId).map .get
  | _ => (x.write? cfg).map .write

/-- The write in a call; lists and reads have none, and change nothing. -/
def PolicyCall.write? : PolicyCall → Option WriteCall
  | .write call => some call
  | .list _ | .get _ => none

theorem Exchange.write?_eq {κ : Type} (cfg : ApiSettings) (x : Exchange κ) :
    x.write? cfg = (x.call? cfg).bind PolicyCall.write? := by
  have hmap : ∀ write : Option WriteCall, (write.map PolicyCall.write).bind PolicyCall.write? =
      write := by
    intro write
    cases write <;> rfl
  unfold Exchange.call?
  split
  · simp [Exchange.write?, *, Option.bind_assoc, Option.bind_map, PolicyCall.write?]
  · simp [Exchange.write?, *, Option.bind_assoc, Option.bind_map, PolicyCall.write?]
  · exact (hmap _).symm

/-- The endpoints of `admin.py`, which all ask for the admin token. -/
def Endpoint.isAdmin : Endpoint → Bool
  | .createPolicy | .listPolicies _ | .getPolicy _ | .updatePolicy _ | .deletePolicy _ => true
  | _ => false

/-- The endpoints that ask for a decision: those behind `enforce_rate_limit`, and the evaluation. -/
def Endpoint.isDecision : Endpoint → Bool
  | .demoPublic | .demoProtected | .demoUser _ | .authSession | .paymentsAuthorize | .searchQuery
  | .evaluateRateLimit => true
  | _ => false

theorem Endpoint.isAdmin_of_isDecision {endpoint : Endpoint} (h : endpoint.isDecision = true) :
    endpoint.isAdmin = false := by
  cases endpoint with
  | createPolicy | listPolicies | getPolicy | updatePolicy | deletePolicy => cases h
  | _ => rfl

/-- The response says what is wrong, and carries nothing else: neither a policy nor a decision. -/
structure HttpResponse.IsError (response : HttpResponse) : Prop where
  status : 400 ≤ response.status
  body : (∃ text, response.body = .detail text) ∨ response.body = .errors ∨
    ∃ error, response.body = .syncError error

theorem HttpResponse.isError_refused (refusal : Refusal) :
    (HttpResponse.refused refusal).IsError := by
  cases refusal <;> exact ⟨by simp [refused, exception, internalServerError], Or.inl ⟨_, rfl⟩⟩

theorem HttpResponse.isError_unprocessable : HttpResponse.unprocessable.IsError :=
  ⟨by simp [unprocessable], Or.inr (Or.inl rfl)⟩

namespace World

variable {κ α : Type} [DecidableEq κ] (cfg : ApiSettings) (x : Exchange κ) (w : World κ)

/-! ## What comes of a request -/

/-- **All a request can come to.**  It is refused before it has done anything, it makes its call, or
it makes none because it is a decision. -/
inductive Handled : Option PolicyCall → HttpResponse × World κ → Prop where
  | refused {response : HttpResponse} (h : response.IsError) : Handled none (response, w)
  | creates (payload : PolicyBase) :
      Handled (some (.write (.create x.newId payload))) (createPolicy cfg x payload w)
  | lists (activeOnly : Bool) : Handled (some (.list activeOnly)) (listPolicies activeOnly w)
  | gets (id : UUID) : Handled (some (.get id)) (getPolicy id w)
  | updates (id : UUID) (payload : PolicyUpdate) :
      Handled (some (.write (.update id payload))) (updatePolicy cfg x id payload w)
  | deletes (id : UUID) : Handled (some (.write (.delete id))) (deletePolicy cfg x id w)
  | syncs {body : Dict} {payload : PolicyBase}
      (h : checkedPolicy cfg.conv cfg.configured x.fetched = .ok (body, payload)) :
      Handled (some (.write (.upsert x.newId payload))) (syncConfigControl cfg x w)
  | guards (route : String) (userId : Option String) (service : Option (String × String))
      (message : String) (h : x.endpoint.isDecision = true) :
      Handled none (guarded cfg x route userId service message w)
  | evaluates (identity : RequestIdentity) (h : x.endpoint.isDecision = true) :
      Handled none (evaluateRateLimit cfg x identity w)

variable {cfg x w} {handler : α → Handler κ} {call : α → Option PolicyCall}

theorem Handled.authorized {handler : Handler κ} {call : Option PolicyCall}
    (h : Handled cfg x w call (handler w)) (check : Except Refusal Unit) :
    Handled cfg x w (check.toOption.bind fun _ => call) (authorized check handler w) := by
  cases check with
  | error refusal => exact .refused (HttpResponse.isError_refused refusal)
  | ok => exact h

theorem Handled.validated (h : ∀ a, Handled cfg x w (call a) (handler a w)) (value : Option α) :
    Handled cfg x w (value.bind call) (validated value handler w) := by
  cases value with
  | none => exact .refused HttpResponse.isError_unprocessable
  | some a => exact h a

/-- A body that is no JSON has no `dict` either. -/
theorem Handled.decoded {handler : Option Json → Handler κ} (call : Option Dict → Option PolicyCall)
    (h : ∀ body, Handled cfg x w (call (dictBody body)) (handler body w)) (hnone : call none = none)
    (body : HttpBody) : Handled cfg x w (call body.dict?) (decoded body handler w) := by
  cases body with
  | absent => exact h none
  | malformed =>
    rw [HttpBody.dict?, hnone]
    exact .refused HttpResponse.isError_unprocessable
  | json value => exact h (some value)

theorem Handled.syncConfigControl : Handled cfg x w
    ((checkedPolicy cfg.conv cfg.configured x.fetched).toOption.map fun checked =>
      .write (.upsert x.newId checked.2)) (syncConfigControl cfg x w) := by
  cases hchecked : checkedPolicy cfg.conv cfg.configured x.fetched with
  | ok checked => exact .syncs hchecked
  | error error =>
    have h : World.syncConfigControl cfg x w = (⟨503, .syncError error, []⟩, w) := by
      simp [World.syncConfigControl, syncPolicyFromConfigControl, hchecked]
    rw [h]
    exact .refused ⟨by simp, Or.inr (Or.inr ⟨error, rfl⟩)⟩

/-- **Every request comes to one of these**, whatever its token, its body and its path are and
whatever Redis does. -/
theorem handle_handled (cfg : ApiSettings) (x : Exchange κ) (w : World κ) :
    Handled cfg x w (x.call? cfg) (handle cfg x w) := by
  unfold handle Exchange.call?
  cases hendpoint : x.endpoint with
  | createPolicy =>
    simp only [Exchange.write?, hendpoint, Option.map_bind, Function.comp_def, Option.map_some]
    refine Handled.decoded (fun raw => (requireAdminToken cfg.adminToken x.request).toOption.bind
      fun _ => (raw.bind (policyCreate cfg.conv)).bind fun payload =>
        some (.write (.create x.newId payload))) (fun body => ?_) (by simp) x.body
    exact (Handled.validated (fun payload => .creates payload) _).authorized _
  | updatePolicy policyId =>
    simp only [Exchange.write?, hendpoint, Option.map_bind, Function.comp_def, Option.map_some]
    refine Handled.decoded (fun raw => (requireAdminToken cfg.adminToken x.request).toOption.bind
      fun _ => (cfg.uuid policyId).bind fun id => (raw.bind (policyUpdate cfg.conv)).bind
        fun payload => some (.write (.update id payload))) (fun body => ?_) (by simp) x.body
    refine (Handled.validated (fun id => ?_) _).authorized _
    exact Handled.validated (fun payload => .updates id payload) _
  | deletePolicy policyId =>
    simp only [Exchange.write?, hendpoint, Option.map_bind, Function.comp_def, Option.map_some]
    exact (Handled.validated (fun id => .deletes id) _).authorized _
  | syncConfigControl =>
    simp only [Exchange.write?, hendpoint, Option.map_bind, Function.comp_def, Option.map_map]
    refine Handled.decoded (x := x) (fun raw => (requireServiceToken cfg.serviceToken
      x.request).toOption.bind fun _ => (raw.filter isConfigControlSyncRequest).bind fun _ =>
        (checkedPolicy cfg.conv cfg.configured x.fetched).toOption.map fun checked =>
          PolicyCall.write (.upsert x.newId checked.2)) (fun body => ?_) (by simp) x.body
    exact (Handled.validated (fun _ => Handled.syncConfigControl) _).authorized _
  | listPolicies activeOnly =>
    simp only [Option.map_eq_bind]
    exact (Handled.validated (fun activeOnly => .lists activeOnly) _).authorized _
  | getPolicy policyId =>
    simp only [Option.map_eq_bind]
    exact (Handled.validated (fun id => .gets id) _).authorized _
  | evaluateRateLimit =>
    simp only [Exchange.write?, hendpoint, Option.map_none]
    have h : ∀ identity, Handled cfg x w none (evaluateRateLimit cfg x identity w) :=
      fun identity => .evaluates identity (by rw [hendpoint]; rfl)
    refine Handled.decoded (fun _ => none) (fun body => ?_) rfl x.body
    simpa using (Handled.validated h ((dictBody body).bind rateLimitEvaluationRequest)).authorized
      (requireServiceToken cfg.serviceToken x.request)
  | _ =>
    simp only [Exchange.write?, hendpoint, Option.map_none]
    exact .guards _ _ _ _ (by rw [hendpoint]; rfl)

/-- A sync leaves what its upsert leaves. -/
theorem syncConfigControl_stores {body : Dict} {payload : PolicyBase}
    (h : checkedPolicy cfg.conv cfg.configured x.fetched = .ok (body, payload)) :
    (syncConfigControl cfg x w).2.stores = (PolicyService.upsertPolicyByName cfg.cache Row.fits
      x.context x.newId payload w.stores).2 := by
  have hsync : (syncPolicyFromConfigControl cfg.cache cfg.conv cfg.configured x.context x.newId
      x.fetched w.stores).2 = (PolicyService.upsertPolicyByName cfg.cache Row.fits x.context x.newId
        payload w.stores).2 := by
    simp only [syncPolicyFromConfigControl, h]
    split <;> rename_i heq <;> rw [heq]
  rw [syncConfigControl, ← hsync]
  split <;> rfl

variable {call : Option PolicyCall} {out : HttpResponse × World κ}

theorem guarded_world (route : String) (userId : Option String)
    (service : Option (String × String)) (message : String) :
    (guarded cfg x route userId service message w).2 =
      (w.evaluate cfg x (buildRequestIdentity route userId x.request)).2 := by
  rw [guarded]
  split <;> rename_i heq <;> rw [heq]
  split <;> rfl

theorem evaluateRateLimit_world (identity : RequestIdentity) :
    (evaluateRateLimit cfg x identity w).2 = (w.evaluate cfg x identity).2 := by
  rw [evaluateRateLimit]
  split <;> rename_i heq <;> rw [heq]

/-- **What a request changes**: what its decision changes, or else what its write does. -/
theorem Handled.world (h : Handled cfg x w call out) :
    (call = none ∧ ∃ identity, out.2 = (w.evaluate cfg x identity).2) ∨
      out.2 = (call.bind PolicyCall.write?).elim w fun write =>
        { w with stores := write.applyTo cfg.cache x.context w.stores } := by
  cases h with
  | refused => exact Or.inr rfl
  | creates payload =>
    right
    rw [createPolicy, PolicyService.createPolicy_stores]
    split <;> rfl
  | lists activeOnly =>
    right
    rw [listPolicies]
    split <;> rfl
  | gets id => exact Or.inr rfl
  | updates id payload =>
    right
    rw [updatePolicy, PolicyService.updatePolicy_stores]
    rfl
  | deletes id =>
    right
    rw [deletePolicy, PolicyService.deletePolicy_stores]
    split <;> rfl
  | @syncs body payload hchecked =>
    right
    have hworld : (World.syncConfigControl cfg x w).2 =
        { w with stores := (World.syncConfigControl cfg x w).2.stores } := by
      rw [World.syncConfigControl]
      split <;> rfl
    rw [hworld, syncConfigControl_stores hchecked, PolicyService.upsertPolicyByName_stores]
    rfl
  | guards route userId service message =>
    exact Or.inl ⟨rfl, _, guarded_world _ _ _ _⟩
  | evaluates identity => exact Or.inl ⟨rfl, _, evaluateRateLimit_world identity⟩

/-- **A request changes the table by its write, if it makes one**; a decision changes no row. -/
theorem Handled.table (h : Handled cfg x w call out) : out.2.stores.table =
    ((call.bind PolicyCall.write?).map fun write => write.apply x.now w.stores.table).getD
      w.stores.table := by
  rcases h.world with ⟨rfl, identity, hw⟩ | hw
  · rw [hw]
    rfl
  · rw [hw]
    cases call.bind PolicyCall.write? with
    | none => rfl
    | some write => exact WriteCall.applyTo_table _ _ _ _

/-! ## Runs -/

/-- What the writes make of the table, in their order, each at the database's time of its commit. -/
def applyWrites (table : Table) (writes : List (ℤ × WriteCall)) : Table :=
  writes.foldl (fun table write => write.2.apply write.1 table) table

variable (cfg)

/-- The requests one after the other, each on the world the one before it has left, and the
responses. -/
def run : World κ → List (Exchange κ) → List HttpResponse × World κ
  | w, [] => ([], w)
  | w, x :: xs =>
    let out := dispatch cfg x w
    let rest := run out.2 xs
    (out.1 :: rest.1, rest.2)

/-- **The table is what the authorised writes make of it.**  After any requests, to any instances
and with Redis failing in any way, it is the fold of the writes that had the admin token or, for a
sync, the service token, and a valid body.  Reads, decisions, requests that were refused or invalid,
and the caches have no part in it. -/
theorem run_table (w : World κ) (xs : List (Exchange κ)) :
    (run cfg w xs).2.stores.table =
      applyWrites w.stores.table
        (xs.filterMap fun x => (x.write? cfg).map fun call => (x.now, call)) := by
  induction xs generalizing w with
  | nil => rfl
  | cons x xs ih =>
    have htable : (dispatch cfg x w).2.stores.table = _ := (handle_handled cfg x w).table
    rw [run, ih, htable, ← Exchange.write?_eq]
    cases hwrite : x.write? cfg with
    | none => simp [hwrite]
    | some call => simp [hwrite, applyWrites]

end World

end RateLimiter
