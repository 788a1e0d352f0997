import RateLimiter.Lib.EventLoop
import Mathlib.Data.Prod.Lex
import Mathlib.Data.String.Basic
import Mathlib.Logic.Function.Basic

/-!
# The multi-region simulation

`simulate_multi_region_limit` lets two regions share a limit and tell each other what they have
accepted, but only `replication_lag_ms` later.  A region decides by what it knows: its own count and
the count it last heard of the other.  The whole run is one event loop over a heap of requests and
replications.
-/

set_option autoImplicit false

namespace RateLimiter.MultiRegion

/-- `RegionName`: the two regions, which share one configured limit. -/
inductive RegionName where
  | india
  | us
  deriving DecidableEq, Repr

/-- The literal. -/
def RegionName.str : RegionName → String
  | .india => "india"
  | .us => "us"

/-- The region on the other side. -/
def RegionName.other : RegionName → RegionName
  | .india => .us
  | .us => .india

/-- `EventKind`: a request comes to a region, or what a region has accepted is replicated to the
other. -/
inductive EventKind where
  | request
  | replication
  deriving DecidableEq, Repr

/-- The literal. -/
def EventKind.str : EventKind → String
  | .request => "request"
  | .replication => "replication"

/-- `_Event`: what the heap holds. Its order is that of its fields, time and priority first. -/
structure Event where
  timeMs : ℤ
  priority : ℤ
  kind : EventKind
  region : RegionName
  deriving DecidableEq, Repr

/-- What `order=True` compares: the fields, in order. -/
def Event.key (e : Event) : ℤ ×ₗ ℤ ×ₗ String ×ₗ String :=
  toLex (e.timeMs, toLex (e.priority, toLex (e.kind.str, e.region.str)))

theorem Event.key_injective : Function.Injective Event.key := by
  rintro ⟨t, p, k, r⟩ ⟨t', p', k', r'⟩ h
  simp only [key, EmbeddingLike.apply_eq_iff_eq, Prod.mk.injEq] at h
  obtain ⟨rfl, rfl, hk, hr⟩ := h
  have hk' : k = k' := by
    revert hk
    cases k <;> cases k' <;> decide
  have hr' : r = r' := by
    revert hr
    cases r <;> cases r' <;> decide
  rw [hk', hr']

instance : LinearOrder Event := LinearOrder.lift' Event.key Event.key_injective

/-- An event comes before another at an earlier time, or at the same time by its priority. -/
theorem Event.lt_or_of_le {e f : Event} (h : e ≤ f) :
    e.timeMs < f.timeMs ∨ e.timeMs = f.timeMs ∧ e.priority ≤ f.priority := by
  have hk : e.key ≤ f.key := h
  rw [key, key, Prod.Lex.toLex_le_toLex] at hk
  refine hk.imp_right fun ⟨ht, hrest⟩ => ⟨ht, ?_⟩
  rw [Prod.Lex.toLex_le_toLex] at hrest
  rcases hrest with hlt | ⟨heq, -⟩
  · exact hlt.le
  · exact heq.le

/-- `RegionSnapshot`: the counters of a region, one of which is about the other region as far as it
was told. -/
structure RegionSnapshot where
  localAccepted : ℤ := 0
  remoteObserved : ℤ := 0
  allowedRequests : ℤ := 0
  blockedRequests : ℤ := 0
  deriving DecidableEq, Repr

/-- `RegionalDecision`: a request as its region has decided it, and what the region knew and the
truth was at that moment. -/
structure RegionalDecision where
  region : RegionName
  kind : EventKind
  timeMs : ℤ
  accepted : Bool
  knownGlobalBeforeDecision : ℤ
  actualGlobalBeforeDecision : ℤ
  observedRemoteCount : ℤ
  deriving DecidableEq, Repr

/-- `MultiRegionSummary`: what the simulation reports, its totals and every single decision. -/
structure MultiRegionSummary where
  configuredLimit : ℤ
  replicationLagMs : ℤ
  requestSpacingMs : ℤ
  indiaRequestsSent : ℤ
  usRequestsSent : ℤ
  indiaAllowed : ℤ
  indiaBlocked : ℤ
  usAllowed : ℤ
  usBlocked : ℤ
  totalAllowed : ℤ
  oversubscription : ℤ
  staleAllowedDecisions : ℤ
  maxReplicationQueueDepth : ℤ
  deriving DecidableEq, Repr

/-- The variables of `simulate_multi_region_limit` besides the heap, as the loop carries them from
turn to turn. -/
structure Simulation where
  /-- `regions`. -/
  regions : RegionName → RegionSnapshot
  /-- `decisions`. -/
  decisions : List RegionalDecision
  /-- `stale_allowed`. -/
  staleAllowed : ℤ
  /-- `max_queue_depth`. -/
  maxQueueDepth : ℤ

namespace Simulation

variable (configuredLimit replicationLagMs : ℤ) (s : Simulation)

/-- `india.local_accepted + us.local_accepted`: what both regions have accepted, which neither of
them knows. -/
def actualGlobal : ℤ := (s.regions .india).localAccepted + (s.regions .us).localAccepted

/-- `region.local_accepted + region.remote_observed`: what a region knows of, and all it decides by.
-/
def knownGlobal (region : RegionName) : ℤ :=
  (s.regions region).localAccepted + (s.regions region).remoteObserved

/-- Write one region's snapshot. -/
def setRegion (region : RegionName) (snapshot : RegionSnapshot) : Simulation :=
  { s with regions := Function.update s.regions region snapshot }

/-- A replication from `source` arrives: the other region learns the count that `source` has at this
moment, and not the one it had when the replication was pushed. -/
def replicate (source : RegionName) : Simulation :=
  let target := s.regions source.other
  s.setRegion source.other
    { target with remoteObserved := max target.remoteObserved (s.regions source).localAccepted }

/-- The entry for `decisions`, with the counts as they were before the decision. -/
def decision (event : Event) : RegionalDecision where
  region := event.region
  kind := event.kind
  timeMs := event.timeMs
  accepted := s.knownGlobal event.region < configuredLimit
  knownGlobalBeforeDecision := s.knownGlobal event.region
  actualGlobalBeforeDecision := s.actualGlobal
  observedRemoteCount := (s.regions event.region).remoteObserved

/-- The snapshot of the region that decides a request: it accepts as long as what it knows of is
below the limit. -/
def decided (region : RegionName) : RegionSnapshot :=
  let snapshot := s.regions region
  if s.knownGlobal region < configuredLimit then
    { snapshot with
      localAccepted := snapshot.localAccepted + 1
      allowedRequests := snapshot.allowedRequests + 1 }
  else { snapshot with blockedRequests := snapshot.blockedRequests + 1 }

/-- A region decides a request by what it knows, and the decision is recorded beside what both
regions have accepted together. -/
def request (event : Event) : Simulation :=
  let stale : Bool :=
    s.knownGlobal event.region < configuredLimit ∧ configuredLimit ≤ s.actualGlobal
  { s.setRegion event.region (s.decided configuredLimit event.region) with
    decisions := s.decisions ++ [s.decision configuredLimit event]
    staleAllowed := if stale then s.staleAllowed + 1 else s.staleAllowed }

/-- The replication an accepted request pushes, one lag later; a blocked request pushes none. -/
def replication (event : Event) : List Event :=
  if s.knownGlobal event.region < configuredLimit then
    [⟨event.timeMs + replicationLagMs, 0, .replication, event.region⟩]
  else []

/-- `max_queue_depth = max(max_queue_depth, len(queue))`, `queue` being what `heappop` leaves. -/
def measure (queue : List Event) : Simulation :=
  { s with maxQueueDepth := max s.maxQueueDepth (queue.length + 1) }

/-- The body of the `while` loop, after `heappop` has taken `event` off `queue`. -/
def body : EventLoop.Body Simulation Event := fun s queue event =>
  let s := s.measure queue
  match event.kind with
  | .replication => (s.replicate event.region, [])
  | .request =>
    (s.request configuredLimit event, s.replication configuredLimit replicationLagMs event)

end Simulation

/-- The requests of one region: the first at time zero, and each a spacing later than the one
before. -/
def requestEvents (region : RegionName) (requests requestSpacingMs : ℤ) : List Event :=
  (List.range requests.toNat).map fun index => ⟨index * requestSpacingMs, 1, .request, region⟩

/-- The requests of both regions. -/
def allRequests (indiaRequests usRequests requestSpacingMs : ℤ) : List Event :=
  requestEvents .india indiaRequests requestSpacingMs ++
    requestEvents .us usRequests requestSpacingMs

/-- Before the loop: both regions at zero, and all requests on the heap. -/
def initial (requests : List Event) : EventLoop.Config Simulation Event :=
  ⟨⟨fun _ => {}, [], 0, (EventLoop.push [] requests).length⟩, EventLoop.push [] requests⟩

/-- After the loop.  Each request takes a turn and may add one for a replication. -/
def finish (configuredLimit replicationLagMs : ℤ) (requests : List Event) :
    EventLoop.Config Simulation Event :=
  EventLoop.loop (Simulation.body configuredLimit replicationLagMs) (2 * requests.length)
    (initial requests)

/-- `simulate_multi_region_limit`, or the text of its `ValueError`: the arguments are checked one
after the other, and the loop runs until the heap is empty. -/
def simulateMultiRegionLimit (configuredLimit replicationLagMs indiaRequests usRequests
    requestSpacingMs : ℤ) : Except String (MultiRegionSummary × List RegionalDecision) :=
  if configuredLimit ≤ 0 then .error "configured_limit must be positive"
  else if replicationLagMs < 0 then .error "replication_lag_ms cannot be negative"
  else
    let s := (finish configuredLimit replicationLagMs
      (allRequests indiaRequests usRequests requestSpacingMs)).state
    let india := s.regions .india
    let us := s.regions .us
    let totalAllowed := india.allowedRequests + us.allowedRequests
    .ok ({
      configuredLimit := configuredLimit
      replicationLagMs := replicationLagMs
      requestSpacingMs := requestSpacingMs
      indiaRequestsSent := indiaRequests
      usRequestsSent := usRequests
      indiaAllowed := india.allowedRequests
      indiaBlocked := india.blockedRequests
      usAllowed := us.allowedRequests
      usBlocked := us.blockedRequests
      totalAllowed := totalAllowed
      oversubscription := max 0 (totalAllowed - configuredLimit)
      staleAllowedDecisions := s.staleAllowed
      maxReplicationQueueDepth := s.maxQueueDepth }, s.decisions)

end RateLimiter.MultiRegion
