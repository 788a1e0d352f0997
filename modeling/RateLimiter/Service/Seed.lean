import RateLimiter.Service.Directory

/-!
# The demo policies

`seed_demo_policies` lists all policies, compares names, and calls `create_policy` for the demo
policies that are missing.  It can be run again and again: it overwrites nothing, and once it has
succeeded another run finds all names and does nothing (`seed_demo_policies`).  A run that fails has
created some of the missing policies; the next one creates the others.
-/

set_option autoImplicit false

namespace RateLimiter

/-! ## The script -/

/-- The fields that the demo policies set. -/
def demoPayload (name description : String) (algorithm : RateLimitAlgorithm) (rate : ℤ)
    (burstCapacity : Option ℤ) (route : String) (userId : Option String)
    (failureMode : FailureMode) : Payload
  | .name => some name
  | .description => some description
  | .algorithm => some algorithm
  | .rate => some rate
  | .windowSeconds => some 60
  | .burstCapacity => burstCapacity
  | .route => some route
  | .userId => userId
  | .failureMode => some failureMode
  | f => f.default

/-- `demo-public-route`. -/
def demoPublicRoute : PolicyBase where
  field := demoPayload "demo-public-route" "Fail-open public route policy for demos." .tokenBucket
    30 (some 60) "/demo/public" none .failOpen
  fieldOk := by decide
  algorithmSpecifics := by decide

/-- `demo-protected-route`. -/
def demoProtectedRoute : PolicyBase where
  field := demoPayload "demo-protected-route" "Fail-closed protected route policy." .tokenBucket
    10 (some 15) "/demo/protected" none .failClosed
  fieldOk := by decide
  algorithmSpecifics := by decide

/-- `vip-user-route`. -/
def vipUserRoute : PolicyBase where
  field := demoPayload "vip-user-route" "User-specific override for the demo user route."
    .slidingWindowLog 20 none "/demo/user/\x7buser_id\x7d" (some "vip-user") .failClosed
  fieldOk := by decide
  algorithmSpecifics := by decide

/-- `platform-auth-service`. -/
def platformAuthService : PolicyBase where
  field := demoPayload "platform-auth-service" "Platform auth service login throttling policy."
    .tokenBucket 25 (some 25) "/services/auth/session" none .failClosed
  fieldOk := by decide
  algorithmSpecifics := by decide

/-- `platform-payments-service`. -/
def platformPaymentsService : PolicyBase where
  field := demoPayload "platform-payments-service"
    "Platform payments service authorization policy." .slidingWindowLog 12 none
    "/services/payments/authorize" none .failClosed
  fieldOk := by decide
  algorithmSpecifics := by decide

/-- `platform-search-service`. -/
def platformSearchService : PolicyBase where
  field := demoPayload "platform-search-service" "Platform search service query throttling policy."
    .fixedWindow 40 none "/services/search/query" none .failClosed
  fieldOk := by decide
  algorithmSpecifics := by decide

/-- `seed_policies`: the demo policies in the order of the script. -/
def seedPolicies : List PolicyBase :=
  [demoPublicRoute, demoProtectedRoute, vipUserRoute, platformAuthService, platformPaymentsService,
    platformSearchService]

/-- A `create_policy` call. -/
structure Creation (κ : Type) extends CallContext κ where
  /-- What `uuid4` draws. -/
  newId : UUID
  payload : PolicyBase

variable {κ : Type}

/-- The loop over `seed_policies`: a name that exists is skipped, and the others are created one
after the other. -/
def createMissing [DecidableEq κ] (settings : CacheSettings) (existing : List String) :
    List (Creation κ) → Stores κ → Except PolicyServiceError Unit × Stores κ
  | [], s => (.ok (), s)
  | c :: cs, s =>
    if c.payload.name ∈ existing then createMissing settings existing cs s
    else
      match PolicyService.createPolicy settings Row.fits c.toCallContext c.newId c.payload s with
      | (.error error, s) => (.error error, s)
      | (.ok _, s) => createMissing settings existing cs s

/-- The calls of a run, given what the call for a payload meets. -/
def seedCreations (context : PolicyBase → CallContext κ) (newId : PolicyBase → UUID) :
    List (Creation κ) :=
  seedPolicies.map fun payload => { context payload with newId := newId payload, payload }

/-- `main` of `seed_demo_policies`: the names are listed once, before anything is created. -/
def seedDemoPolicies [DecidableEq κ] (settings : CacheSettings)
    (context : PolicyBase → CallContext κ) (newId : PolicyBase → UUID) (s : Stores κ) :
    Except PolicyServiceError Unit × Stores κ :=
  match listPolicies false s.table with
  | .error error => (.error (.validation error), s)
  | .ok policies =>
    createMissing settings (policies.map fun policy => policy.name)
      (seedCreations context newId) s

/-! ## What it makes of the directory -/

namespace Directory

variable {d d' : Directory} {c : Creation κ} {cs : List (Creation κ)}

/-- Some policy has the name. -/
def Has (d : Directory) (name : String) : Prop := ∃ id, ∃ p ∈ d.find id, p.name = name

theorem set_find_of_free {p : PolicyRead} (h : d.CanHold p) (hfree : d.find p.id = none)
    {id : UUID} {q : PolicyRead} : q ∈ (d.set p h).find id ↔ q ∈ d.find id ∨ id = p.id ∧ q = p := by
  rcases eq_or_ne id p.id with rfl | hne
  · simp [set, hfree, eq_comm]
  · simp [set, hne]

theorem has_set_iff {p : PolicyRead} (h : d.CanHold p) (hfree : d.find p.id = none)
    {name : String} : (d.set p h).Has name ↔ d.Has name ∨ p.name = name := by
  simp only [Has, set_find_of_free h hfree]
  constructor
  · rintro ⟨id, q, hq | ⟨rfl, rfl⟩, hname⟩
    · exact Or.inl ⟨id, q, hq, hname⟩
    · exact Or.inr hname
  · rintro (⟨id, q, hq, hname⟩ | hname)
    · exact ⟨id, q, Or.inl hq, hname⟩
    · exact ⟨p.id, p, Or.inr ⟨rfl, rfl⟩, hname⟩

/-- **All that creating missing policies does**: everything is kept, and what is new is the policy
of a call whose name was missing. -/
structure Seeded (d : Directory) (cs : List (Creation κ)) (d' : Directory) : Prop where
  kept : ∀ id, ∀ p ∈ d.find id, p ∈ d'.find id
  added : ∀ id, ∀ p ∈ d'.find id, p ∈ d.find id ∨
    ∃ c ∈ cs, ¬d.Has c.payload.name ∧ p = .new c.newId c.payload c.now

theorem Seeded.refl (d : Directory) (cs : List (Creation κ)) : d.Seeded cs d :=
  ⟨fun _ _ hp => hp, fun _ _ hp => Or.inl hp⟩

/-- A name that is there is skipped. -/
theorem Seeded.skip (h : d.Seeded cs d') : d.Seeded (c :: cs) d' where
  kept := h.kept
  added id p hp := by
    refine (h.added id p hp).imp_right ?_
    rintro ⟨c', hc', hnew⟩
    exact ⟨c', List.mem_cons_of_mem c hc', hnew⟩

/-- The policy of a missing name is created. -/
theorem Seeded.create (hnone : ¬d.Has c.payload.name) (hfree : d.find c.newId = none)
    (hc : d.CanHold (.new c.newId c.payload c.now)) (h : (d.set _ hc).Seeded cs d') :
    d.Seeded (c :: cs) d' where
  kept id p hp := h.kept id p ((set_find_of_free hc hfree).2 (Or.inl hp))
  added id p hp := by
    rcases h.added id p hp with hp | ⟨c', hc', hmissing, rfl⟩
    · rcases (set_find_of_free hc hfree).1 hp with hp | ⟨-, rfl⟩
      · exact Or.inl hp
      · exact Or.inr ⟨c, List.mem_cons_self, hnone, rfl⟩
    · refine Or.inr ⟨c', List.mem_cons_of_mem c hc', fun hhas => hmissing ?_, rfl⟩
      exact (has_set_iff hc hfree).2 (Or.inl hhas)

theorem Seeded.has (h : d.Seeded cs d') {name : String} (hhas : d.Has name) : d'.Has name := by
  obtain ⟨id, p, hp, hname⟩ := hhas
  exact ⟨id, p, h.kept id p hp, hname⟩

/-- `uuid4` repeats no id and draws none of the directory's. -/
structure Unused (d : Directory) (cs : List (Creation κ)) : Prop where
  free : ∀ c ∈ cs, d.find c.newId = none
  nodup : (cs.map Creation.newId).Nodup

theorem Unused.tail (h : d.Unused (c :: cs)) : d.Unused cs :=
  ⟨fun c' hc' => h.free c' (List.mem_cons_of_mem c hc'), (List.nodup_cons.1 h.nodup).2⟩

theorem Unused.set (h : d.Unused (c :: cs)) (hc : d.CanHold (.new c.newId c.payload c.now)) :
    (d.set _ hc).Unused cs := by
  refine ⟨fun c' hc' => ?_, h.tail.nodup⟩
  have hne : c'.newId ≠ c.newId := fun heq =>
    (List.nodup_cons.1 h.nodup).1 (heq ▸ List.mem_map_of_mem hc')
  exact (Function.update_of_ne hne _ _).trans (h.tail.free c' hc')

/-- A policy of a missing name can be created. -/
theorem canHold_of_not_has {id : UUID} {payload : PolicyBase} (hnone : ¬d.Has payload.name)
    (hfits : payload.field.FitsColumns) (now : ℤ) : d.CanHold (.new id payload now) where
  nameFree id' _ q hq hname := hnone ⟨id', q, hq, hname⟩
  fits := hfits
  fitsVersion := (by decide : fitsInteger 1 = true)

/-- The names of the list of all policies. -/
theorem Lists.mem_names_iff {items : List PolicyRead} (h : d.Lists false items) {name : String} :
    (name ∈ items.map fun policy => policy.name) ↔ d.Has name := by
  rw [List.mem_map]
  constructor
  · rintro ⟨p, hp, hname⟩
    exact ⟨p.id, p, ((h.mem p).1 hp).1, hname⟩
  · rintro ⟨id, p, hp, hname⟩
    obtain rfl := d.id_eq id p hp
    exact ⟨p, (h.mem p).2 ⟨hp, nofun⟩, hname⟩

end Directory

/-! ## What a run of the script does -/

section Script

variable [DecidableEq κ] {settings : CacheSettings} {existing : List String} {s : Stores κ}
  {d : Directory}

/-- One call of the loop: the policy is created, or the call raises and nothing has changed. -/
theorem createPolicy_cases (settings : CacheSettings) (h : d.Shows s.table) (c : Creation κ) :
    let out := PolicyService.createPolicy settings Row.fits c.toCallContext c.newId c.payload s
    (∃ p, out.1 = .ok p ∧ d.find c.newId = none ∧
      ∃ hc : d.CanHold (.new c.newId c.payload c.now), (d.set _ hc).Shows out.2.table) ∨
    ∃ error, out.1 = .error error ∧ d.Shows out.2.table ∧
      ¬(d.find c.newId = none ∧ d.CanHold (.new c.newId c.payload c.now)) := by
  obtain ⟨d', hserves, hshows⟩ :=
    PolicyService.createPolicy_serves settings c.toCallContext h c.newId c.payload
  generalize hout : (PolicyService.createPolicy settings Row.fits c.toCallContext c.newId
    c.payload s).1 = result at hserves
  cases result with
  | ok p =>
    cases hserves with
    | created hfree hc => exact Or.inl ⟨_, hout, hfree, hc, hshows⟩
  | error error =>
    generalize hanswer : PolicyAnswer.of PolicyAnswer.policy (.error error) = answer at hserves
    cases hserves with
    | created => cases error <;> cases hanswer
    | notCreated hc => exact Or.inr ⟨error, hout, hshows, hc⟩
    | missing htarget => cases htarget

/-- What the loop knows of the names it is about. -/
def Knows (existing : List String) (d : Directory) (cs : List (Creation κ)) : Prop :=
  ∀ c ∈ cs, c.payload.name ∈ existing ↔ d.Has c.payload.name

omit [DecidableEq κ] in
/-- It need not learn of a name that it creates. -/
theorem Knows.set {c : Creation κ} {cs : List (Creation κ)} (h : Knows existing d (c :: cs))
    (hname : c.payload.name ∉ cs.map fun c => c.payload.name) (hfree : d.find c.newId = none)
    (hc : d.CanHold (.new c.newId c.payload c.now)) : Knows existing (d.set _ hc) cs := by
  intro c' hc'
  have hne : c.payload.name ≠ c'.payload.name := fun heq =>
    hname (heq ▸ List.mem_map_of_mem hc')
  rw [Directory.has_set_iff hc hfree, h c' (List.mem_cons_of_mem c hc')]
  exact (or_iff_left hne).symm

/-- **The loop creates what is missing**, and raises only if an id is taken or the columns do not
hold a payload. -/
theorem createMissing_seeds {cs : List (Creation κ)} (h : d.Shows s.table)
    (hnames : (cs.map fun c => c.payload.name).Nodup) (hknows : Knows existing d cs) :
    let out := createMissing settings existing cs s
    ∃ d', d'.Shows out.2.table ∧ d.Seeded cs d' ∧
      (out.1 = .ok () → ∀ c ∈ cs, d'.Has c.payload.name) ∧
      ((∀ c ∈ cs, c.payload.field.FitsColumns) → d.Unused cs → out.1 = .ok ()) := by
  induction cs generalizing s d with
  | nil => exact ⟨d, h, .refl d [], fun _ c hc => (List.not_mem_nil hc).elim, fun _ _ => rfl⟩
  | cons c cs ih =>
    rw [List.map_cons, List.nodup_cons] at hnames
    rw [createMissing]
    by_cases hmem : c.payload.name ∈ existing
    · rw [if_pos hmem]
      obtain ⟨d', hshows, hseeded, hall, hok⟩ :=
        ih h hnames.2 fun c' hc' => hknows c' (List.mem_cons_of_mem c hc')
      refine ⟨d', hshows, hseeded.skip, fun hdone => List.forall_mem_cons.2 ⟨?_, hall hdone⟩,
        fun hfits hunused => hok (List.forall_mem_cons.1 hfits).2 hunused.tail⟩
      exact hseeded.has ((hknows c List.mem_cons_self).1 hmem)
    · rw [if_neg hmem]
      have hnone : ¬d.Has c.payload.name := fun hhas =>
        hmem ((hknows c List.mem_cons_self).2 hhas)
      have hcases := createPolicy_cases settings h c
      generalize PolicyService.createPolicy settings Row.fits c.toCallContext c.newId c.payload s =
        run at hcases ⊢
      obtain ⟨result, s'⟩ := run
      dsimp only at hcases ⊢
      obtain ⟨p, rfl, hfree, hc, hshows⟩ | ⟨error, rfl, hshows, hfails⟩ := hcases
      · obtain ⟨d', hshows', hseeded, hall, hok⟩ :=
          ih hshows hnames.2 (hknows.set hnames.1 hfree hc)
        refine ⟨d', hshows', hseeded.create hnone hfree hc, fun hdone =>
          List.forall_mem_cons.2 ⟨?_, hall hdone⟩, fun hfits hunused =>
          hok (List.forall_mem_cons.1 hfits).2 (hunused.set hc)⟩
        exact hseeded.has ((Directory.has_set_iff hc hfree).2 (Or.inr rfl))
      · refine ⟨d, hshows, .refl d (c :: cs), (by rintro ⟨⟩), fun hfits hunused => ?_⟩
        exact absurd ⟨hunused.free c List.mem_cons_self, Directory.canHold_of_not_has hnone
          (List.forall_mem_cons.1 hfits).1 c.now⟩ hfails

theorem createMissing_of_forall_mem {cs : List (Creation κ)}
    (h : ∀ c ∈ cs, c.payload.name ∈ existing) :
    createMissing settings existing cs s = (.ok (), s) := by
  induction cs with
  | nil => rfl
  | cons c cs ih =>
    rw [List.forall_mem_cons] at h
    rw [createMissing, if_pos h.1, ih h.2]

theorem seedPolicies_nodup : (seedPolicies.map fun payload => payload.name).Nodup := by
  decide +kernel

theorem seedPolicies_fitsColumns : ∀ payload ∈ seedPolicies, payload.field.FitsColumns := by
  decide +kernel

omit [DecidableEq κ] in
theorem names_seedCreations (context : PolicyBase → CallContext κ) (newId : PolicyBase → UUID) :
    ((seedCreations context newId).map fun c => c.payload.name) =
      seedPolicies.map fun payload => payload.name := by
  rw [seedCreations, List.map_map]
  rfl

omit [DecidableEq κ] in
theorem forall_mem_seedCreations {context : PolicyBase → CallContext κ}
    {newId : PolicyBase → UUID} {P : PolicyBase → Prop} :
    (∀ c ∈ seedCreations context newId, P c.payload) ↔ ∀ payload ∈ seedPolicies, P payload := by
  rw [seedCreations, List.forall_mem_map]

/-- **Seeding can be repeated.**  The script keeps every policy as it is and adds only demo policies
whose names were missing.  If it succeeds, which it does when `uuid4` draws unused ids, all demo
policies are there, and whoever runs it again changes nothing. -/
theorem seed_demo_policies (settings : CacheSettings) (h : d.Shows s.table)
    (context : PolicyBase → CallContext κ) (newId : PolicyBase → UUID) :
    let out := seedDemoPolicies settings context newId s
    ∃ d', d'.Shows out.2.table ∧ d.Seeded (seedCreations context newId) d' ∧
      (d.Unused (seedCreations context newId) → out.1 = .ok ()) ∧
      (out.1 = .ok () → (∀ payload ∈ seedPolicies, d'.Has payload.name) ∧
        ∀ context' newId', seedDemoPolicies settings context' newId' out.2 = (.ok (), out.2)) := by
  obtain ⟨items, hitems, hlists⟩ := h.lists false
  have hnames : ((seedCreations context newId).map fun c => c.payload.name).Nodup := by
    rw [names_seedCreations]
    exact seedPolicies_nodup
  obtain ⟨d', hshows, hseeded, hall, hok⟩ := createMissing_seeds h hnames
    fun c _ => hlists.mem_names_iff
  have hrun : seedDemoPolicies settings context newId s =
      createMissing settings (items.map fun policy => policy.name) (seedCreations context newId)
        s := by
    rw [seedDemoPolicies, hitems]
  rw [← hrun] at hshows hall hok
  refine ⟨d', hshows, hseeded, hok (forall_mem_seedCreations.2 seedPolicies_fitsColumns),
    fun hdone => ?_⟩
  have hhas := forall_mem_seedCreations (P := fun payload => d'.Has payload.name).1 (hall hdone)
  refine ⟨hhas, fun context' newId' => ?_⟩
  obtain ⟨items', hitems', hlists'⟩ := hshows.lists false
  rw [seedDemoPolicies, hitems']
  exact createMissing_of_forall_mem (forall_mem_seedCreations.2 fun payload hpayload =>
    hlists'.mem_names_iff.2 (hhas payload hpayload))

end Script

/-- The rates of the demo policies tell them apart. -/
def seedSampleId (payload : PolicyBase) : UUID :=
  let str := "00000000-0000-4000-8000-0000000000" ++ payload.rate.repr
  if h : isCanonicalUuid str = true then ⟨str, h⟩ else .sample

/-- Redis is away, and the table has another policy. -/
theorem seed_demo_policies_sample :
    let s : Stores Unit := ⟨.sample, Caches.empty Unit⟩
    let context : PolicyBase → CallContext Unit := fun _ => ⟨(), 1, fun _ => .failed⟩
    ∃ d' : Directory, (∀ payload ∈ seedPolicies, d'.Has payload.name) ∧
      d'.Shows (seedDemoPolicies ⟨30, 30, true⟩ context seedSampleId s).2.table := by
  intro s context
  obtain ⟨d, h⟩ := Directory.Shows.exists_of_valid Table.sample_valid Table.sample_uniqueNames
  obtain ⟨d', hshows, -, hok, hdone⟩ :=
    seed_demo_policies (s := s) ⟨30, 30, true⟩ h context seedSampleId
  have hfree : ∀ c ∈ seedCreations context seedSampleId, Table.sample.lookup c.newId = none := by
    decide +kernel
  have hnodup : ((seedCreations context seedSampleId).map Creation.newId).Nodup := by
    decide +kernel
  have hunused : d.Unused (seedCreations context seedSampleId) :=
    ⟨fun c hc => h.lookup_eq_none_iff.1 (hfree c hc), hnodup⟩
  exact ⟨d', (hdone (hok hunused)).1, hshows⟩

end RateLimiter
