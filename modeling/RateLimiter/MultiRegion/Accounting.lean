import RateLimiter.MultiRegion.Oversubscription

/-!
# The accounts of a simulation run

A run decides every request once, in the order of the queue, and the counters it keeps on the way
are counts of these decisions: `Accounts` says which, at every turn.  A region never believes more
to be accepted than is, so nothing is blocked too early, and what is accepted after the limit is
reached is counted twice: as stale and as oversubscription.
-/

set_option autoImplicit false

namespace RateLimiter.MultiRegion

open EventLoop

/-- The event a decision is about. -/
def RegionalDecision.request (d : RegionalDecision) : Event :=
  ⟨d.timeMs, d.kind.priority, d.kind, d.region⟩

/-- The invariant: what the counters count, in terms of the decisions so far, the requests that are
left and the replications under way. -/
structure Accounts (limit : ℤ) (requests : List Event) (c : Config Simulation Event) : Prop where
  /-- The requests decided and the requests to come are the requests sent, in order. -/
  order : c.state.decisions.map RegionalDecision.request ++
    c.queue.filter (fun e => e.kind = .request) = push [] requests
  /-- A region counts what it accepts. -/
  accepted : ∀ r, (c.state.regions r).localAccepted =
    c.state.decisions.countP fun d => d.region = r ∧ d.accepted
  /-- It allows what it accepts. -/
  allowed : ∀ r, (c.state.regions r).allowedRequests = (c.state.regions r).localAccepted
  /-- It allows or blocks what it decides. -/
  decided : ∀ r, (c.state.regions r).allowedRequests + (c.state.regions r).blockedRequests =
    c.state.decisions.countP fun d => d.region = r
  /-- It has observed no more than the other region has accepted. -/
  observed : ∀ r, 0 ≤ (c.state.regions r).remoteObserved ∧
    (c.state.regions r).remoteObserved ≤ (c.state.regions r.other).localAccepted
  /-- On its own it keeps to the limit. -/
  atMost : ∀ r, (c.state.regions r).localAccepted ≤ limit
  /-- A decision goes by what is known, and no more is known than is. -/
  known : ∀ d ∈ c.state.decisions,
    d.knownGlobalBeforeDecision ≤ d.actualGlobalBeforeDecision ∧
      (d.accepted = true ↔ d.knownGlobalBeforeDecision < limit)
  /-- The stale acceptances are those past the limit. -/
  stale : c.state.staleAllowed = max 0 (c.state.actualGlobal - limit)
  /-- Below the limit everything is accepted. -/
  enough : min limit c.state.decisions.length ≤ c.state.actualGlobal

section Turns

variable {limit lag : ℤ} {requests : List Event} {s : Simulation} {e : Event} {rest : List Event}
  {r : RegionName}

/-! ## What a turn does to one region -/

theorem replicate_regions (s : Simulation) (source r : RegionName) :
    (s.replicate source).regions r =
      if r = source.other then
        { s.regions r with
          remoteObserved := max (s.regions r).remoteObserved (s.regions source).localAccepted }
      else s.regions r := by
  by_cases hr : r = source.other
  · simp [hr, Simulation.replicate, Simulation.setRegion]
  · simp [hr, Simulation.replicate, Simulation.setRegion]

theorem replicate_actualGlobal (s : Simulation) (source : RegionName) :
    (s.replicate source).actualGlobal = s.actualGlobal := by
  simp [Simulation.actualGlobal, replicate_localAccepted]

theorem request_regions (limit : ℤ) (s : Simulation) (e : Event) (r : RegionName) :
    (s.request limit e).regions r = if e.region = r then s.decided limit r else s.regions r := by
  split
  · rename_i hr
    rw [← hr, request_regions_self]
  · rename_i hr
    exact request_regions_of_ne limit s (Ne.symm hr)

theorem request_localAccepted (limit : ℤ) (s : Simulation) (e : Event) (r : RegionName) :
    ((s.request limit e).regions r).localAccepted = (s.regions r).localAccepted +
      if e.region = r ∧ s.knownGlobal e.region < limit then 1 else 0 := by
  rw [request_regions]
  by_cases hr : e.region = r <;> simp [hr, decided_localAccepted]

theorem request_allowedRequests (limit : ℤ) (s : Simulation) (e : Event) (r : RegionName) :
    ((s.request limit e).regions r).allowedRequests = (s.regions r).allowedRequests +
      if e.region = r ∧ s.knownGlobal e.region < limit then 1 else 0 := by
  rw [request_regions]
  by_cases hr : e.region = r <;> simp [hr, decided_allowedRequests]

theorem request_decided (limit : ℤ) (s : Simulation) (e : Event) (r : RegionName) :
    ((s.request limit e).regions r).allowedRequests +
        ((s.request limit e).regions r).blockedRequests =
      (s.regions r).allowedRequests + (s.regions r).blockedRequests +
        if e.region = r then 1 else 0 := by
  rw [request_regions]
  split
  · rw [Simulation.decided]
    split
    · exact add_right_comm ..
    · exact (add_assoc ..).symm
  · exact (add_zero _).symm

/-- The total a region knows is not more than the total there is. -/
theorem knownGlobal_le_actualGlobal
    (h : (s.regions r).remoteObserved ≤ (s.regions r.other).localAccepted) :
    s.knownGlobal r ≤ s.actualGlobal := by
  rw [Simulation.knownGlobal, Simulation.actualGlobal]
  cases r with
  | india => exact add_le_add_right h _
  | us =>
    rw [add_comm]
    exact add_le_add_left h _

/-! ## What a turn does to the invariant -/

theorem decision_request (limit : ℤ) (s : Simulation) (hpriority : e.priority = e.kind.priority) :
    (s.decision limit e).request = e := by
  rw [RegionalDecision.request]
  simp [Simulation.decision, ← hpriority]

theorem countP_decisions_request (limit : ℤ) (s : Simulation) (e : Event) (rest : List Event)
    (p : RegionalDecision → Bool) :
    ((((s.measure rest).request limit e).decisions.countP p : ℕ) : ℤ) =
      s.decisions.countP p + if p (s.decision limit e) then 1 else 0 := by
  show (((s.decisions ++ [s.decision limit e]).countP p : ℕ) : ℤ) = _
  rw [List.countP_append, List.countP_singleton]
  split <;> simp

theorem Accounts.replicate (h : Accounts limit requests ⟨s, e :: rest⟩)
    (he : e.kind = .replication) :
    Accounts limit requests ⟨(s.measure rest).replicate e.region, rest⟩ where
  order := by
    have horder := h.order
    rwa [List.filter_cons_of_neg (by simp [he])] at horder
  accepted r := (replicate_localAccepted ..).trans (h.accepted r)
  allowed r := by
    rw [replicate_regions]
    split
    · exact h.allowed r
    · exact h.allowed r
  decided r := by
    rw [replicate_regions]
    split
    · exact h.decided r
    · exact h.decided r
  observed r := by
    obtain ⟨hnonneg, hle⟩ := h.observed r
    rw [replicate_localAccepted, replicate_regions]
    split
    · rename_i hr
      refine ⟨hnonneg.trans (le_max_left ..), max_le hle ?_⟩
      rw [hr, RegionName.other_other]
    · exact ⟨hnonneg, hle⟩
  atMost r := (replicate_localAccepted ..).trans_le (h.atMost r)
  known := h.known
  stale := by
    rw [replicate_actualGlobal]
    exact h.stale
  enough := by
    rw [replicate_actualGlobal]
    exact h.enough

/-- An acceptance is stale when the limit is reached already. -/
theorem stale_request (hle : s.knownGlobal e.region ≤ s.actualGlobal)
    (h : s.staleAllowed = max 0 (s.actualGlobal - limit)) :
    ((s.measure rest).request limit e).staleAllowed =
      max 0 (((s.measure rest).request limit e).actualGlobal - limit) := by
  rw [actualGlobal_request]
  show (if (decide (s.knownGlobal e.region < limit ∧ limit ≤ s.actualGlobal)) = true
    then s.staleAllowed + 1 else s.staleAllowed) = _
  simp only [decide_eq_true_eq]
  split_ifs <;> omega

theorem Accounts.request (h : Accounts limit requests ⟨s, e :: rest⟩)
    (hpriority : e.priority = e.kind.priority) (he : e.kind = .request) :
    Accounts limit requests
      ⟨(s.measure rest).request limit e, push rest (s.replication limit lag e)⟩ := by
  have hknown : s.knownGlobal e.region ≤ s.actualGlobal :=
    knownGlobal_le_actualGlobal (h.observed e.region).2
  refine
    { order := ?_, accepted := fun r => ?_, allowed := fun r => ?_, decided := fun r => ?_,
      observed := fun r => ?_, atMost := fun r => ?_, known := fun d hd => ?_,
      stale := stale_request hknown h.stale, enough := ?_ }
  · show (s.decisions ++ [s.decision limit e]).map RegionalDecision.request ++ _ = _
    rw [filter_push_of_forall_not fun f hf => by simp [(mem_replication hf).1]]
    simpa [he, decision_request limit s hpriority] using h.order
  · rw [request_localAccepted, countP_decisions_request]
    refine congrArg₂ (· + ·) (h.accepted r) (if_congr ?_ rfl rfl)
    rw [decide_eq_true_eq, decision_accepted]
    exact Iff.rfl
  · rw [request_allowedRequests, request_localAccepted]
    exact congrArg (· + _) (h.allowed r)
  · rw [request_decided, countP_decisions_request]
    refine congrArg₂ (· + ·) (h.decided r) (if_congr ?_ rfl rfl)
    rw [decide_eq_true_eq]
    exact Iff.rfl
  · rw [request_remoteObserved]
    exact ⟨(h.observed r).1, (h.observed r).2.trans (request_localAccepted_le ..)⟩
  · have hatMost := h.atMost r
    have hnonneg := (h.observed r).1
    rw [request_localAccepted]
    split
    · rename_i hacc
      obtain ⟨rfl, hacc⟩ := hacc
      change (s.regions _).localAccepted + 1 ≤ limit
      change (s.regions _).localAccepted + (s.regions _).remoteObserved < limit at hacc
      change 0 ≤ (s.regions _).remoteObserved at hnonneg
      omega
    · rw [add_zero]
      exact hatMost
  · rcases List.mem_append.1 hd with hd | hd
    · exact h.known d hd
    · rw [List.mem_singleton.1 hd, decision_accepted]
      exact ⟨hknown, Iff.rfl⟩
  · have henough : min limit (s.decisions.length : ℤ) ≤ s.actualGlobal := h.enough
    have hlength : ((s.measure rest).request limit e).decisions.length = s.decisions.length + 1 :=
      List.length_append
    rw [actualGlobal_request, hlength]
    split <;> omega

end Turns

/-! ## The run -/

section Run

variable {limit lag india us spacing : ℤ}

theorem push_allRequests_filter (india us spacing : ℤ) :
    (push [] (allRequests india us spacing)).filter (fun e => e.kind = .request) =
      push [] (allRequests india us spacing) := by
  refine List.filter_eq_self.2 fun e he => ?_
  have hmem : e ∈ allRequests india us spacing := by simpa using mem_push.1 he
  simp [(kind_of_mem_allRequests hmem).1]

theorem accounts_initial (hlimit : 0 < limit) :
    Accounts limit (allRequests india us spacing) (initial (allRequests india us spacing)) where
  order := push_allRequests_filter india us spacing
  accepted _ := rfl
  allowed _ := rfl
  decided _ := rfl
  observed _ := ⟨le_rfl, le_rfl⟩
  atMost _ := hlimit.le
  known d hd := by cases hd
  stale := (max_eq_left (by simpa [Simulation.actualGlobal, initial] using hlimit.le)).symm
  enough := min_le_right ..

theorem accounts_finish (india us spacing : ℤ) (hlimit : 0 < limit) (hlag : 0 ≤ lag) :
    Accounts limit (allRequests india us spacing)
      (finish limit lag (allRequests india us spacing)) := by
  refine (finish_invariant (I := fun c => Ledger limit (allRequests india us spacing) c ∧
    Accounts limit (allRequests india us spacing) c)
    ⟨ledger_initial hlimit, accounts_initial hlimit⟩ ?_ ?_).2
  · rintro s e rest ⟨hl, ha⟩ hfirst he
    exact ⟨hl.request hlag hfirst he, ha.request (hl.priority e List.mem_cons_self) he⟩
  · rintro s e rest ⟨hl, ha⟩ - he
    exact ⟨hl.replicate he, ha.replicate he⟩

/-- The decisions answer to the requests in the order of the queue. -/
theorem map_request_decisions (india us spacing : ℤ) (hlimit : 0 < limit) (hlag : 0 ≤ lag) :
    (finish limit lag (allRequests india us spacing)).state.decisions.map
      RegionalDecision.request = push [] (allRequests india us spacing) := by
  have horder := (accounts_finish india us spacing hlimit hlag).order
  rwa [finish_queue, List.filter_nil, List.append_nil] at horder

theorem map_request_perm (india us spacing : ℤ) (hlimit : 0 < limit) (hlag : 0 ≤ lag) :
    ((finish limit lag (allRequests india us spacing)).state.decisions.map
      RegionalDecision.request).Perm (allRequests india us spacing) := by
  rw [map_request_decisions india us spacing hlimit hlag]
  simpa using push_perm [] (allRequests india us spacing)

theorem countP_region_decisions (india us spacing : ℤ) (hlimit : 0 < limit) (hlag : 0 ≤ lag)
    (r : RegionName) :
    (finish limit lag (allRequests india us spacing)).state.decisions.countP
      (fun d => d.region = r) = (allRequests india us spacing).countP fun e => e.region = r := by
  rw [← (map_request_perm india us spacing hlimit hlag).countP_eq, List.countP_map]
  rfl

/-- The allowed requests are the total there is. -/
theorem Accounts.total {requests : List Event} {c : Config Simulation Event}
    (h : Accounts limit requests c) : (c.state.regions .india).allowedRequests +
      (c.state.regions .us).allowedRequests = c.state.actualGlobal :=
  congrArg₂ (· + ·) (h.allowed .india) (h.allowed .us)

/-- A region allows no more than the limit. -/
theorem Accounts.allowed_le {requests : List Event} {c : Config Simulation Event}
    (h : Accounts limit requests c) (r : RegionName) :
    (c.state.regions r).allowedRequests ≤ limit :=
  (h.allowed r).trans_le (h.atMost r)

theorem countP_region_allRequests (india us spacing : ℤ) :
    (allRequests india us spacing).countP (fun e => e.region = .india) = india.toNat ∧
      (allRequests india us spacing).countP (fun e => e.region = .us) = us.toNat := by
  simp [allRequests, requestEvents, List.countP_map, Function.comp_def]

theorem length_allRequests (india us spacing : ℤ) :
    (allRequests india us spacing).length = india.toNat + us.toNat := by
  simp [allRequests, requestEvents]

/-- **The accounts of a run.** Every request is decided once, and the totals of the summary follow
from the decisions. -/
theorem accounts_balance (limit lag india us spacing : ℤ) (hlimit : 0 < limit) (hlag : 0 ≤ lag)
    (hindia : 0 ≤ india) (hus : 0 ≤ us) :
    (finish limit lag (allRequests india us spacing)).queue = [] ∧
    ∃ summary decisions,
      simulateMultiRegionLimit limit lag india us spacing = .ok (summary, decisions) ∧
      (decisions.map RegionalDecision.request).Perm (allRequests india us spacing) ∧
      decisions.Pairwise (fun d d' => d.timeMs ≤ d'.timeMs) ∧
      (summary.indiaAllowed + summary.indiaBlocked = india ∧
        summary.usAllowed + summary.usBlocked = us) ∧
      (∀ pre d post, decisions = pre ++ d :: post →
        d.actualGlobalBeforeDecision = pre.countP (·.accepted) ∧
        d.knownGlobalBeforeDecision ≤ d.actualGlobalBeforeDecision ∧
        (d.accepted = false → limit ≤ d.actualGlobalBeforeDecision)) ∧
      min limit (india + us) ≤ summary.totalAllowed ∧
      (summary.indiaAllowed ≤ limit ∧ summary.usAllowed ≤ limit) ∧
      summary.staleAllowedDecisions = summary.oversubscription ∧
      summary.oversubscription ≤ limit := by
  have hl := (confined_finish india us spacing hlimit hlag).1
  have ha := accounts_finish india us spacing hlimit hlag
  have hperm := map_request_perm india us spacing hlimit hlag
  have hsent := countP_region_decisions india us spacing hlimit hlag
  obtain ⟨hindiaSent, husSent⟩ := countP_region_allRequests india us spacing
  refine ⟨finish_queue limit lag india us spacing, ?_⟩
  rw [simulateMultiRegionLimit, if_neg (not_le.2 hlimit), if_neg (not_lt.2 hlag)]
  refine ⟨_, _, rfl, hperm, hl.ordered, ⟨?_, ?_⟩, fun pre d post hd => ?_, ?_,
    ⟨ha.allowed_le .india, ha.allowed_le .us⟩, ?_, ?_⟩
  · refine (ha.decided .india).trans ?_
    rw [hsent, hindiaSent, Int.toNat_of_nonneg hindia]
  · refine (ha.decided .us).trans ?_
    rw [hsent, husSent, Int.toNat_of_nonneg hus]
  · have hmem : d ∈ (finish limit lag (allRequests india us spacing)).state.decisions := by
      simp [hd]
    obtain ⟨hle, hacc⟩ := ha.known d hmem
    refine ⟨hl.before pre d post hd, hle, fun hblocked => le_trans ?_ hle⟩
    by_contra hlt
    exact absurd (hacc.2 (not_le.1 hlt)) (by simp [hblocked])
  · have henough := ha.enough
    rw [← List.length_map (f := RegionalDecision.request), hperm.length_eq, length_allRequests]
      at henough
    show min limit (india + us) ≤ _ + _
    rw [ha.total]
    omega
  · exact ha.stale.trans (congrArg (max 0 <| · - limit) ha.total.symm)
  · show max 0 (_ + _ - limit) ≤ limit
    have hindiaMost := ha.allowed_le .india
    have husMost := ha.allowed_le .us
    omega

/-- A limit of three, five requests of each region at the same instants, and a lag of two. -/
theorem accounts_balance_sample :
    ∃ summary decisions, simulateMultiRegionLimit 3 2 5 5 1 = .ok (summary, decisions) ∧
      summary.staleAllowedDecisions = summary.oversubscription ∧
      summary.oversubscription ≤ 3 := by
  obtain ⟨-, summary, decisions, hrun, -, -, -, -, -, -, hstale, hover⟩ :=
    accounts_balance 3 2 5 5 1 (by decide) (by decide) (by decide) (by decide)
  exact ⟨summary, decisions, hrun, hstale, hover⟩

end Run

end RateLimiter.MultiRegion
