import RateLimiter.MultiRegion.Simulation
import Mathlib.Data.Int.Order.Basic

/-!
# Oversubscription lasts one lag

Once the two regions together have accepted `configured_limit` requests, a region accepts more only
as long as it has not heard of them all.  `Informed` says how long that can be: of each count,
either the other region has observed it, or a replication that will tell it is under way and due.
As a replication goes before the requests of the same instant, no request after the deadline is
decided without it.
-/

set_option autoImplicit false

namespace RateLimiter.MultiRegion

open EventLoop

@[simp] theorem RegionName.other_other (r : RegionName) : r.other.other = r := by
  cases r <;> rfl

theorem RegionName.other_ne (r : RegionName) : r.other ≠ r := by
  cases r <;> decide

/-- The priority events of a kind are pushed with: at one instant replications come before requests.
-/
def EventKind.priority : EventKind → ℤ
  | .request => 1
  | .replication => 0

/-- The acceptance that brings the total to the limit. Whatever is accepted later is
oversubscription. -/
def RegionalDecision.Fills (limit : ℤ) (d : RegionalDecision) : Prop :=
  d.accepted = true ∧ d.actualGlobalBeforeDecision + 1 = limit

/-- A replication from `region` is under way and arrives by `deadline`. -/
def Due (queue : List Event) (region : RegionName) (deadline : ℤ) : Prop :=
  ∃ e ∈ queue, e.kind = .replication ∧ e.region = region ∧ e.timeMs ≤ deadline

/-- Each region has accepted the count `n` gives it, and the other one knows or will by
`deadline`. -/
def Informed (regions : RegionName → RegionSnapshot) (queue : List Event) (n : RegionName → ℤ)
    (deadline : ℤ) : Prop :=
  ∀ r, n r ≤ (regions r).localAccepted ∧
    (n r ≤ (regions r.other).remoteObserved ∨ Due queue r deadline)

section Steps

variable {limit lag deadline : ℤ} {s : Simulation} {e : Event} {rest : List Event}
  {n : RegionName → ℤ} {r : RegionName}

/-! ## What a turn does to the regions -/

theorem decided_localAccepted (limit : ℤ) (s : Simulation) (r : RegionName) :
    (s.decided limit r).localAccepted =
      (s.regions r).localAccepted + if s.knownGlobal r < limit then 1 else 0 := by
  rw [Simulation.decided]
  split <;> simp

theorem decided_allowedRequests (limit : ℤ) (s : Simulation) (r : RegionName) :
    (s.decided limit r).allowedRequests =
      (s.regions r).allowedRequests + if s.knownGlobal r < limit then 1 else 0 := by
  rw [Simulation.decided]
  split <;> simp

theorem decided_remoteObserved (limit : ℤ) (s : Simulation) (r : RegionName) :
    (s.decided limit r).remoteObserved = (s.regions r).remoteObserved := by
  rw [Simulation.decided]
  split <;> rfl

theorem request_regions_self (limit : ℤ) (s : Simulation) (e : Event) :
    (s.request limit e).regions e.region = s.decided limit e.region :=
  Function.update_self ..

theorem request_regions_of_ne (limit : ℤ) (s : Simulation) (hr : r ≠ e.region) :
    (s.request limit e).regions r = s.regions r :=
  Function.update_of_ne hr ..

theorem request_localAccepted_le (limit : ℤ) (s : Simulation) (e : Event) (r : RegionName) :
    (s.regions r).localAccepted ≤ ((s.request limit e).regions r).localAccepted := by
  by_cases hr : r = e.region
  · rw [hr, request_regions_self, decided_localAccepted]
    split <;> omega
  · rw [request_regions_of_ne _ _ hr]

theorem request_remoteObserved (limit : ℤ) (s : Simulation) (e : Event) (r : RegionName) :
    ((s.request limit e).regions r).remoteObserved = (s.regions r).remoteObserved := by
  by_cases hr : r = e.region
  · rw [hr, request_regions_self, decided_remoteObserved]
  · rw [request_regions_of_ne _ _ hr]

theorem replicate_localAccepted (s : Simulation) (source r : RegionName) :
    ((s.replicate source).regions r).localAccepted = (s.regions r).localAccepted := by
  by_cases hr : r = source.other
  · rw [hr]
    simp [Simulation.replicate, Simulation.setRegion]
  · simp [Simulation.replicate, Simulation.setRegion, Function.update_of_ne hr]

theorem replicate_remoteObserved_le (s : Simulation) (source r : RegionName) :
    (s.regions r).remoteObserved ≤ ((s.replicate source).regions r).remoteObserved := by
  by_cases hr : r = source.other
  · rw [hr]
    simp [Simulation.replicate, Simulation.setRegion]
  · simp [Simulation.replicate, Simulation.setRegion, Function.update_of_ne hr]

/-- A replication tells the other region all that `source` has accepted by now. -/
theorem localAccepted_le_replicate (s : Simulation) (source : RegionName) :
    (s.regions source).localAccepted ≤
      ((s.replicate source).regions source.other).remoteObserved := by
  simp [Simulation.replicate, Simulation.setRegion]

theorem sum_request {f : RegionSnapshot → ℤ}
    (hf : f (s.decided limit e.region) =
      f (s.regions e.region) + if s.knownGlobal e.region < limit then 1 else 0) :
    f ((s.request limit e).regions .india) + f ((s.request limit e).regions .us) =
      f (s.regions .india) + f (s.regions .us) +
        if s.knownGlobal e.region < limit then 1 else 0 := by
  have hself := request_regions_self limit s e
  have hother := request_regions_of_ne limit s e.region.other_ne
  generalize e.region = r at hf hself hother ⊢
  cases r with
  | india =>
    rw [show RegionName.us = RegionName.india.other from rfl, hself, hother, hf]
    omega
  | us =>
    rw [show RegionName.india = RegionName.us.other from rfl, hself, hother, hf]
    omega

/-! ## Who knows what -/

theorem Due.mono {queue queue' : List Event} (h : Due queue r deadline) {deadline' : ℤ}
    (hq : ∀ e ∈ queue, e ∈ queue') (hd : deadline ≤ deadline') : Due queue' r deadline' := by
  obtain ⟨e, he, hkind, hregion, htime⟩ := h
  exact ⟨e, hq e he, hkind, hregion, htime.trans hd⟩

/-- A replication that is not the next event stays under way. -/
theorem Due.of_cons (h : Due (e :: rest) r deadline)
    (he : ¬(e.kind = .replication ∧ e.region = r)) : Due rest r deadline := by
  obtain ⟨f, hf, hkind, hregion, htime⟩ := h
  rcases List.mem_cons.1 hf with rfl | hf
  · exact absurd ⟨hkind, hregion⟩ he
  · exact ⟨f, hf, hkind, hregion, htime⟩

theorem Informed.replicate (h : Informed s.regions (e :: rest) n deadline) :
    Informed (s.replicate e.region).regions rest n deadline := by
  intro r
  obtain ⟨hlocal, hknown⟩ := h r
  refine ⟨hlocal.trans (replicate_localAccepted s e.region r).ge, ?_⟩
  rcases hknown with hobserved | hdue
  · exact Or.inl (hobserved.trans (replicate_remoteObserved_le s e.region r.other))
  · by_cases hr : e.region = r
    · rw [hr]
      exact Or.inl (hlocal.trans (localAccepted_le_replicate s r))
    · exact Or.inr (hdue.of_cons fun he => hr he.2)

/-- A request keeps the regions informed of what they had accepted. -/
theorem Informed.request (limit : ℤ) (h : Informed s.regions (e :: rest) n deadline)
    (he : e.kind = .request) (more : List Event) :
    Informed (s.request limit e).regions (push rest more) n deadline := by
  intro r
  obtain ⟨hlocal, hknown⟩ := h r
  refine ⟨hlocal.trans (request_localAccepted_le limit s e r), ?_⟩
  rw [request_remoteObserved]
  refine hknown.imp_right fun hdue => ?_
  have hne : ¬(e.kind = .replication ∧ e.region = r) := by
    rw [he]
    rintro ⟨hkind, -⟩
    cases hkind
  exact (hdue.of_cons hne).mono (fun f hf => mem_push.2 (Or.inr hf)) le_rfl

/-- What a region has just accepted it announces. -/
theorem Informed.announce (h : Informed s.regions (e :: rest)
      (fun r => (s.regions r).localAccepted) deadline)
    (he : e.kind = .request) (hd : e.timeMs + lag ≤ deadline) :
    Informed (s.request limit e).regions (push rest (s.replication limit lag e))
      (fun r => ((s.request limit e).regions r).localAccepted) deadline := by
  intro r
  obtain ⟨hlocal, hknown⟩ := h.request limit he (s.replication limit lag e) r
  refine ⟨le_rfl, ?_⟩
  by_cases hr : r = e.region
  · subst hr
    show ((s.request limit e).regions e.region).localAccepted ≤ _ ∨ _
    rw [request_regions_self, decided_localAccepted]
    split
    · rename_i hacc
      refine Or.inr ⟨⟨e.timeMs + lag, 0, .replication, e.region⟩, ?_, rfl, rfl, hd⟩
      rw [mem_push, Simulation.replication, if_pos hacc]
      exact Or.inl (List.mem_singleton.2 rfl)
    · simpa using hknown
  · show ((s.request limit e).regions r).localAccepted ≤ _ ∨ _
    rw [request_regions_of_ne _ _ hr]
    exact hknown

/-- The events to come do not come before the one at hand. -/
theorem le_of_first (hfirst : ∀ f ∈ rest, e ≤ f) {f : Event} (hf : f ∈ rest) :
    e.timeMs ≤ f.timeMs := by
  rcases Event.lt_or_of_le (hfirst f hf) with hlt | ⟨heq, -⟩
  · exact hlt.le
  · exact heq.le

/-- A replication still under way when a request is the next event comes later. -/
theorem Event.lt_of_replication {f : Event} (hf : f ∈ e :: rest) (hkind : f.kind = .replication)
    (hfirst : ∀ f ∈ rest, e ≤ f) (hpriority : ∀ f ∈ e :: rest, f.priority = f.kind.priority)
    (he : e.kind = .request) : e.timeMs < f.timeMs := by
  have hpf := hpriority f hf
  have hpe := hpriority e List.mem_cons_self
  rw [hkind] at hpf
  rw [he] at hpe
  rcases List.mem_cons.1 hf with rfl | hf
  · rw [hkind] at he
    cases he
  · rcases Event.lt_or_of_le (hfirst f hf) with hlt | ⟨-, hle⟩
    · exact hlt
    · rw [hpf, hpe] at hle
      exact absurd hle (by decide)

/-- **No acceptance after the deadline.**  A request that is the next event is decided after every
replication that was due by its time. -/
theorem Informed.lt_deadline (h : Informed s.regions (e :: rest) n deadline)
    (hn : n .india + n .us = limit) (hfirst : ∀ f ∈ rest, e ≤ f)
    (hpriority : ∀ f ∈ e :: rest, f.priority = f.kind.priority) (he : e.kind = .request)
    (hacc : s.knownGlobal e.region < limit) : e.timeMs < deadline := by
  have hsum : n e.region + n e.region.other = limit := by
    cases e.region with
    | india => exact hn
    | us => rw [← hn, add_comm]; rfl
  have hlocal := (h e.region).1
  obtain ⟨-, hknown⟩ := h e.region.other
  rw [RegionName.other_other] at hknown
  rcases hknown with hobserved | hdue
  · rw [Simulation.knownGlobal] at hacc
    omega
  · obtain ⟨f, hf, hkind, -, htime⟩ := hdue
    exact (Event.lt_of_replication hf hkind hfirst hpriority he).trans_le htime

end Steps

/-! ## The invariant of the loop -/

/-- What the decisions made so far and the events to come say about each other. -/
structure Ledger (limit : ℤ) (requests : List Event) (c : Config Simulation Event) : Prop where
  /-- Replications go before requests. -/
  priority : ∀ e ∈ c.queue, e.priority = e.kind.priority
  /-- Decisions lie in the past. -/
  past : ∀ d ∈ c.state.decisions, ∀ e ∈ c.queue, d.timeMs ≤ e.timeMs
  /-- Decisions are made in the order of their times. -/
  ordered : c.state.decisions.Pairwise fun d d' => d.timeMs ≤ d'.timeMs
  /-- Every request has been decided or is still to come. -/
  handled : ∀ p : ℤ → Bool, c.state.decisions.countP (fun d => p d.timeMs) +
    c.queue.countP (fun e => e.kind = .request && p e.timeMs) =
      requests.countP fun e => p e.timeMs
  /-- The regions' counts are the accepted decisions. -/
  total : c.state.actualGlobal = c.state.decisions.countP (·.accepted)
  /-- So are the allowed requests. -/
  allowed : (c.state.regions .india).allowedRequests + (c.state.regions .us).allowedRequests =
    c.state.decisions.countP (·.accepted)
  /-- A decision records how many requests had been accepted before it. -/
  before : ∀ pre d post, c.state.decisions = pre ++ d :: post →
    d.actualGlobalBeforeDecision = pre.countP (·.accepted)
  /-- The limit was reached by one acceptance. -/
  filled : limit ≤ c.state.actualGlobal → ∃ d ∈ c.state.decisions, d.Fills limit

/-- Who knows of which acceptance, and what follows for the acceptances past the limit. -/
structure Confined (limit lag : ℤ) (c : Config Simulation Event) : Prop where
  /-- The regions know all that has been accepted, or will within the lag. -/
  announced : ∀ deadline, (∀ d ∈ c.state.decisions, d.timeMs + lag ≤ deadline) →
    Informed c.state.regions c.queue (fun r => (c.state.regions r).localAccepted) deadline
  /-- Within the lag of the acceptance that reaches the limit, they know that it is reached. -/
  informed : ∀ d ∈ c.state.decisions, d.Fills limit →
    ∃ n : RegionName → ℤ, n .india + n .us = limit ∧
      Informed c.state.regions c.queue n (d.timeMs + lag)
  /-- Acceptances past the limit come within the lag. -/
  late : c.state.decisions.Pairwise fun d d' =>
    d.Fills limit → d'.accepted = true → d'.timeMs < d.timeMs + lag

/-- The last entry of a list is its last entry, or comes after all that stands elsewhere. -/
theorem append_singleton_eq {α : Type} {l pre post : List α} {a b : α}
    (h : l ++ [a] = pre ++ b :: post) :
    (pre = l ∧ b = a) ∨ ∃ post', l = pre ++ b :: post' := by
  rcases List.eq_nil_or_concat post with rfl | ⟨post', c, rfl⟩
  · have := List.append_inj' h rfl
    exact Or.inl ⟨this.1.symm, (List.singleton_inj.1 this.2).symm⟩
  · rw [List.concat_eq_append, ← List.cons_append, ← List.append_assoc] at h
    exact Or.inr ⟨post', (List.append_inj' h rfl).1⟩

section Turns

variable {limit lag : ℤ} {requests : List Event} {s : Simulation} {e : Event} {rest : List Event}

theorem handle_replication (he : e.kind = .replication) :
    handle (Simulation.body limit lag) s e rest =
      ⟨(s.measure rest).replicate e.region, rest⟩ := by
  simp only [handle, Simulation.body, he]
  rfl

theorem handle_request (he : e.kind = .request) :
    handle (Simulation.body limit lag) s e rest =
      ⟨(s.measure rest).request limit e, push rest (s.replication limit lag e)⟩ := by
  simp only [handle, Simulation.body, he]
  rfl

/-- The new decision is accepted as the region's knowledge allows. -/
theorem decision_accepted (limit : ℤ) (s : Simulation) (e : Event) :
    (s.decision limit e).accepted = true ↔ s.knownGlobal e.region < limit := by
  simp [Simulation.decision]

theorem countP_decision (limit : ℤ) (s : Simulation) (e : Event) :
    (([s.decision limit e].countP (·.accepted) : ℕ) : ℤ) =
      if s.knownGlobal e.region < limit then 1 else 0 := by
  rw [List.countP_singleton]
  simp only [decision_accepted]
  split <;> rfl

/-- What a request pushes is a replication, a lag later. -/
theorem mem_replication {f : Event} (hf : f ∈ s.replication limit lag e) :
    f.kind = .replication ∧ f.priority = 0 ∧ f.timeMs = e.timeMs + lag := by
  rw [Simulation.replication] at hf
  split at hf
  · rw [List.mem_singleton.1 hf]
    exact ⟨rfl, rfl, rfl⟩
  · cases hf

theorem Ledger.replicate (h : Ledger limit requests ⟨s, e :: rest⟩) (he : e.kind = .replication) :
    Ledger limit requests ⟨(s.measure rest).replicate e.region, rest⟩ where
  priority f hf := h.priority f (List.mem_cons_of_mem _ hf)
  past d hd f hf := h.past d hd f (List.mem_cons_of_mem _ hf)
  ordered := h.ordered
  handled p := by
    have hp := h.handled p
    rw [List.countP_cons_of_neg (by simp [he])] at hp
    exact hp
  total := by
    refine Eq.trans ?_ h.total
    rw [Simulation.actualGlobal, replicate_localAccepted, replicate_localAccepted]
    rfl
  allowed := by
    refine Eq.trans ?_ h.allowed
    cases e.region <;> simp [Simulation.replicate, Simulation.setRegion, Simulation.measure,
      RegionName.other]
  before := h.before
  filled hl := by
    refine h.filled (hl.trans_eq ?_)
    rw [Simulation.actualGlobal, replicate_localAccepted, replicate_localAccepted]
    rfl

/-- What is still to come does not come before the event at hand. -/
theorem le_of_mem_push_replication (hlag : 0 ≤ lag) (hfirst : ∀ f ∈ rest, e ≤ f) {f : Event}
    (hf : f ∈ push rest (s.replication limit lag e)) : e.timeMs ≤ f.timeMs := by
  rcases mem_push.1 hf with hf | hf
  · have := (mem_replication hf).2.2
    omega
  · exact le_of_first hfirst hf

theorem countP_push_replication (p : ℤ → Bool) :
    (push rest (s.replication limit lag e)).countP (fun f => f.kind = .request && p f.timeMs) =
      rest.countP fun f => f.kind = .request && p f.timeMs := by
  rw [(push_perm _ _).countP_eq, List.countP_append, List.countP_eq_zero.2, Nat.zero_add]
  intro f hf
  simp [(mem_replication hf).1]

theorem actualGlobal_request (limit : ℤ) (s : Simulation) (e : Event) (rest : List Event) :
    ((s.measure rest).request limit e).actualGlobal =
      s.actualGlobal + if s.knownGlobal e.region < limit then 1 else 0 :=
  sum_request (s := s.measure rest) (decided_localAccepted limit (s.measure rest) e.region)

theorem countP_accepted_request (limit : ℤ) (s : Simulation) (e : Event) (rest : List Event) :
    ((((s.measure rest).request limit e).decisions.countP (·.accepted) : ℕ) : ℤ) =
      s.decisions.countP (·.accepted) + if s.knownGlobal e.region < limit then 1 else 0 := by
  show (((s.decisions ++ [s.decision limit e]).countP (·.accepted) : ℕ) : ℤ) = _
  rw [List.countP_append, Int.natCast_add, countP_decision]

theorem Ledger.decided_before (h : Ledger limit requests ⟨s, e :: rest⟩) :
    ∀ d ∈ s.decisions, d.timeMs ≤ e.timeMs :=
  fun d hd => h.past d hd e List.mem_cons_self

/-- If the limit is reached now, one acceptance has reached it: an earlier one or this one. -/
theorem Ledger.filled_request (h : Ledger limit requests ⟨s, e :: rest⟩)
    (hl : limit ≤ ((s.measure rest).request limit e).actualGlobal) :
    ∃ d ∈ ((s.measure rest).request limit e).decisions, d.Fills limit := by
  rw [actualGlobal_request] at hl
  by_cases hfull : limit ≤ s.actualGlobal
  · obtain ⟨d, hd, hfills⟩ := h.filled hfull
    exact ⟨d, List.mem_append_left _ hd, hfills⟩
  · refine ⟨s.decision limit e, List.mem_append_right _ (List.mem_singleton.2 rfl), ?_⟩
    rw [RegionalDecision.Fills, decision_accepted]
    split at hl
    · exact ⟨‹_›, by show s.actualGlobal + 1 = limit; omega⟩
    · omega

theorem Ledger.request (hlag : 0 ≤ lag) (h : Ledger limit requests ⟨s, e :: rest⟩)
    (hfirst : ∀ f ∈ rest, e ≤ f) (he : e.kind = .request) :
    Ledger limit requests
      ⟨(s.measure rest).request limit e, push rest (s.replication limit lag e)⟩ where
  priority f hf := by
    rcases mem_push.1 hf with hf | hf
    · obtain ⟨hkind, hpriority, -⟩ := mem_replication hf
      rw [hpriority, hkind]
      rfl
    · exact h.priority f (List.mem_cons_of_mem _ hf)
  past d hd f hf := by
    refine le_trans ?_ (le_of_mem_push_replication hlag hfirst hf)
    rcases List.mem_append.1 hd with hd | hd
    · exact h.decided_before d hd
    · rw [List.mem_singleton.1 hd]
      exact le_rfl
  ordered := by
    refine List.pairwise_append.2 ⟨h.ordered, List.pairwise_singleton _ _, fun d hd d' hd' => ?_⟩
    rw [List.mem_singleton.1 hd']
    exact h.decided_before d hd
  handled p := by
    have hp := h.handled p
    show (s.decisions ++ [s.decision limit e]).countP (fun d => p d.timeMs) + _ = _
    rw [countP_push_replication, List.countP_append, List.countP_singleton, ← hp, List.countP_cons]
    simp only [he, decide_true, Bool.true_and, Simulation.decision]
    omega
  total := by
    have htotal : s.actualGlobal = s.decisions.countP (·.accepted) := h.total
    rw [actualGlobal_request, countP_accepted_request, htotal]
  allowed := by
    refine Eq.trans (sum_request (s := s.measure rest)
      (decided_allowedRequests limit (s.measure rest) e.region)) ?_
    rw [countP_accepted_request, ← h.allowed]
    rfl
  before pre d post hd := by
    rcases append_singleton_eq hd with ⟨rfl, rfl⟩ | ⟨post', hs⟩
    · exact h.total
    · exact h.before pre d post' hs
  filled hl := h.filled_request hl

theorem Confined.replicate (h : Confined limit lag ⟨s, e :: rest⟩) :
    Confined limit lag ⟨(s.measure rest).replicate e.region, rest⟩ where
  announced deadline hd r := by
    obtain ⟨hlocal, hknown⟩ := (h.announced deadline hd).replicate (s := s.measure rest) r
    have hr := replicate_localAccepted (s.measure rest) e.region r
    exact ⟨le_rfl, hknown.imp_left fun ho => hr.le.trans ho⟩
  informed d hd hfills := by
    obtain ⟨n, hn, hi⟩ := h.informed d hd hfills
    exact ⟨n, hn, hi.replicate (s := s.measure rest)⟩
  late := h.late

/-- A lag after a request, the regions know all that was accepted up to it. -/
theorem Confined.announce_request (hl : Ledger limit requests ⟨s, e :: rest⟩)
    (h : Confined limit lag ⟨s, e :: rest⟩) (he : e.kind = .request) {deadline : ℤ}
    (hd : e.timeMs + lag ≤ deadline) :
    Informed ((s.measure rest).request limit e).regions (push rest (s.replication limit lag e))
      (fun r => (((s.measure rest).request limit e).regions r).localAccepted) deadline := by
  refine Informed.announce (s := s.measure rest) (h.announced deadline fun d hd' => ?_) he hd
  have := hl.decided_before d hd'
  omega

theorem Confined.request (hl : Ledger limit requests ⟨s, e :: rest⟩)
    (h : Confined limit lag ⟨s, e :: rest⟩) (hfirst : ∀ f ∈ rest, e ≤ f) (he : e.kind = .request) :
    Confined limit lag
      ⟨(s.measure rest).request limit e, push rest (s.replication limit lag e)⟩ where
  announced _ hd := h.announce_request hl he
    (hd (s.decision limit e) (List.mem_append_right _ (List.mem_singleton.2 rfl)))
  informed d hd hfills := by
    rcases List.mem_append.1 hd with hd | hd
    · obtain ⟨n, hn, hi⟩ := h.informed d hd hfills
      exact ⟨n, hn, hi.request (s := s.measure rest) limit he _⟩
    · obtain rfl := List.mem_singleton.1 hd
      obtain ⟨hacc, hsum⟩ := hfills
      have hs := actualGlobal_request limit s e rest
      rw [if_pos ((decision_accepted limit s e).1 hacc)] at hs
      exact ⟨_, hs.trans hsum, h.announce_request hl he le_rfl⟩
  late := by
    refine List.pairwise_append.2 ⟨h.late, List.pairwise_singleton _ _,
      fun d hd d' hd' hfills hacc => ?_⟩
    obtain rfl := List.mem_singleton.1 hd'
    obtain ⟨n, hn, hi⟩ := h.informed d hd hfills
    exact hi.lt_deadline hn hfirst hl.priority he ((decision_accepted limit s e).1 hacc)

end Turns

/-! ## The run -/

theorem kind_of_mem_allRequests {india us spacing : ℤ} {e : Event}
    (he : e ∈ allRequests india us spacing) : e.kind = .request ∧ e.priority = 1 := by
  rw [allRequests, List.mem_append] at he
  rcases he with he | he
  all_goals
    obtain ⟨i, -, rfl⟩ := List.mem_map.1 he
    exact ⟨rfl, rfl⟩

section Run

variable {limit lag india us spacing : ℤ}

theorem ledger_initial (hlimit : 0 < limit) :
    Ledger limit (allRequests india us spacing) (initial (allRequests india us spacing)) where
  priority e he := by
    have hmem : e ∈ allRequests india us spacing := by simpa using (mem_push.1 he)
    obtain ⟨hkind, hpriority⟩ := kind_of_mem_allRequests hmem
    rw [hpriority, hkind]
    rfl
  past d hd := by cases hd
  ordered := .nil
  handled p := by
    show 0 + (push [] _).countP _ = _
    rw [Nat.zero_add, (push_perm _ _).countP_eq, List.append_nil]
    refine List.countP_congr fun e he => ?_
    simp [(kind_of_mem_allRequests he).1]
  total := rfl
  allowed := rfl
  before pre d post hd := by simp [initial] at hd
  filled hl := absurd hl (not_le.2 hlimit)

theorem confined_initial : Confined limit lag (initial (allRequests india us spacing)) where
  announced _ _ _ := ⟨le_rfl, Or.inl le_rfl⟩
  informed d hd := by cases hd
  late := .nil

/-- **The invariant rule** of the simulation: what requests and replications keep holds after the
loop. -/
theorem finish_invariant {requests : List Event} {I : Config Simulation Event → Prop}
    (hinitial : I (initial requests))
    (hrequest : ∀ {s e rest}, I ⟨s, e :: rest⟩ → (∀ f ∈ rest, e ≤ f) → e.kind = .request →
      I ⟨(s.measure rest).request limit e, push rest (s.replication limit lag e)⟩)
    (hreplication : ∀ {s e rest}, I ⟨s, e :: rest⟩ → (∀ f ∈ rest, e ≤ f) →
      e.kind = .replication → I ⟨(s.measure rest).replicate e.region, rest⟩) :
    I (finish limit lag requests) := by
  refine loop_invariant (fun {s e rest} h hfirst => ?_) (pairwise_push .nil _) hinitial _
  cases he : e.kind with
  | request =>
    rw [handle_request he]
    exact hrequest h hfirst he
  | replication =>
    rw [handle_replication he]
    exact hreplication h hfirst he

theorem confined_finish (india us spacing : ℤ) (hlimit : 0 < limit) (hlag : 0 ≤ lag) :
    Ledger limit (allRequests india us spacing)
        (finish limit lag (allRequests india us spacing)) ∧
      Confined limit lag (finish limit lag (allRequests india us spacing)) := by
  refine finish_invariant (I := fun c => Ledger limit (allRequests india us spacing) c ∧
    Confined limit lag c) ⟨ledger_initial hlimit, confined_initial⟩ ?_ ?_
  · rintro s e rest ⟨hl, hc⟩ hfirst he
    exact ⟨hl.request hlag hfirst he, hc.request hl hfirst he⟩
  · rintro s e rest ⟨hl, hc⟩ - he
    exact ⟨hl.replicate he, hc.replicate⟩

/-- How many turns an event is good for. -/
def Event.turns (e : Event) : ℕ :=
  match e.kind with
  | .request => 2
  | .replication => 1

/-- The loop ends with nothing left to do. -/
theorem finish_queue (limit lag : ℤ) (india us spacing : ℤ) :
    (finish limit lag (allRequests india us spacing)).queue = [] := by
  refine loop_drained Event.turns (fun s rest e => ?_) ?_
  · cases he : e.kind with
    | request =>
      simp only [Simulation.body, he, Event.turns, totalWeight]
      rw [Simulation.replication]
      split
      · show 1 + 0 < 2
        decide
      · show 0 < 2
        decide
    | replication => simp [Simulation.body, he, Event.turns, totalWeight]
  · rw [initial, totalWeight_push]
    generalize hr : allRequests india us spacing = requests
    have hkind : ∀ e ∈ requests, e.turns = 2 := fun e he => by
      rw [Event.turns, (kind_of_mem_allRequests (hr ▸ he)).1]
    rw [totalWeight, List.map_congr_left hkind, List.map_const', List.sum_replicate]
    simp [totalWeight, Nat.mul_comm]

theorem countP_decisions (hlimit : 0 < limit) (hlag : 0 ≤ lag) (p : ℤ → Bool) :
    (finish limit lag (allRequests india us spacing)).state.decisions.countP
      (fun d => p d.timeMs) = (allRequests india us spacing).countP fun e => p e.timeMs := by
  have h := (confined_finish india us spacing hlimit hlag).1.handled p
  rw [finish_queue, List.countP_nil] at h
  exact h

/-- The acceptances past the limit are those after the one that reaches it. -/
theorem Ledger.countP_accepted {requests : List Event} {c : Config Simulation Event}
    (h : Ledger limit requests c) {pre post : List RegionalDecision} {d : RegionalDecision}
    (hd : c.state.decisions = pre ++ d :: post) (hfills : d.Fills limit) :
    (c.state.decisions.countP (·.accepted) : ℤ) = limit + post.countP (·.accepted) := by
  obtain ⟨hacc, hlimit⟩ := hfills
  have hbefore := h.before pre d post hd
  rw [hd, List.countP_append, List.countP_cons, if_pos hacc]
  push_cast
  omega

theorem Confined.countP_late_le {requests : List Event} {c : Config Simulation Event}
    (h : Confined limit lag c) (hl : Ledger limit requests c)
    {pre post : List RegionalDecision} {d : RegionalDecision}
    (hd : c.state.decisions = pre ++ d :: post) (hfills : d.Fills limit) :
    (∀ d' ∈ post, d'.accepted = true → d'.timeMs < d.timeMs + lag) ∧
      post.countP (·.accepted) ≤ c.state.decisions.countP fun d' =>
        d.timeMs ≤ d'.timeMs ∧ d'.timeMs < d.timeMs + lag := by
  have hpairs : ∀ d' ∈ post, d.timeMs ≤ d'.timeMs ∧
      (d'.accepted = true → d'.timeMs < d.timeMs + lag) := by
    intro d' hd'
    have ho := hl.ordered
    have hlate := h.late
    rw [hd, List.pairwise_append, List.pairwise_cons] at ho hlate
    exact ⟨ho.2.1.1 d' hd', hlate.2.1.1 d' hd' hfills⟩
  refine ⟨fun d' hd' => (hpairs d' hd').2, ?_⟩
  calc post.countP (·.accepted)
      ≤ post.countP fun d' => d.timeMs ≤ d'.timeMs ∧ d'.timeMs < d.timeMs + lag :=
        List.countP_mono_left fun d' hd' hacc =>
          decide_eq_true ⟨(hpairs d' hd').1, (hpairs d' hd').2 hacc⟩
    _ ≤ c.state.decisions.countP fun d' =>
        d.timeMs ≤ d'.timeMs ∧ d'.timeMs < d.timeMs + lag := by
      rw [hd]
      refine List.Sublist.countP_le ?_
      exact (List.sublist_cons_self d post).trans (List.sublist_append_right pre _)

theorem Ledger.countP_accepted_lt {requests : List Event} {c : Config Simulation Event}
    (h : Ledger limit requests c) (hnot : ∀ d ∈ c.state.decisions, ¬d.Fills limit) :
    (c.state.decisions.countP (·.accepted) : ℤ) < limit := by
  by_contra hge
  obtain ⟨d, hd, hfills⟩ := h.filled (by rw [h.total]; omega)
  exact hnot d hd hfills

theorem Confined.countP_accepted_le_of_lag_zero {requests : List Event}
    {c : Config Simulation Event} (h : Confined limit 0 c) (hl : Ledger limit requests c) :
    (c.state.decisions.countP (·.accepted) : ℤ) ≤ limit := by
  by_cases hfill : ∃ d ∈ c.state.decisions, d.Fills limit
  · obtain ⟨d, hd, hfills⟩ := hfill
    obtain ⟨pre, post, hsplit⟩ := List.append_of_mem hd
    obtain ⟨-, hle⟩ := h.countP_late_le hl hsplit hfills
    have htotal := hl.countP_accepted hsplit hfills
    have hempty : c.state.decisions.countP
        (fun d' => decide (d.timeMs ≤ d'.timeMs ∧ d'.timeMs < d.timeMs + 0)) = 0 := by
      refine List.countP_eq_zero.2 fun d' _ => ?_
      simp
    omega
  · have := hl.countP_accepted_lt fun d hd hfills => hfill ⟨d, hd, hfills⟩
    omega

/-- **Oversubscription lasts one lag.** What is accepted beyond the limit is accepted within a lag
of the acceptance that reached it. -/
theorem oversubscription_confined (limit lag india us spacing : ℤ) (hlimit : 0 < limit)
    (hlag : 0 ≤ lag) :
    ∃ summary decisions,
      simulateMultiRegionLimit limit lag india us spacing = .ok (summary, decisions) ∧
      (∀ pre d post, decisions = pre ++ d :: post → d.Fills limit →
        (∀ d' ∈ post, d'.accepted = true → d'.timeMs < d.timeMs + lag) ∧
        summary.oversubscription ≤ (allRequests india us spacing).countP fun e =>
          d.timeMs ≤ e.timeMs ∧ e.timeMs < d.timeMs + lag) ∧
      ((∀ d ∈ decisions, ¬d.Fills limit) → summary.oversubscription = 0) ∧
      (lag = 0 → summary.oversubscription = 0) := by
  obtain ⟨hl, hc⟩ := confined_finish india us spacing hlimit hlag
  have hcount : ∀ t, (finish limit lag (allRequests india us spacing)).state.decisions.countP
      (fun d' => decide (t ≤ d'.timeMs ∧ d'.timeMs < t + lag)) =
        (allRequests india us spacing).countP fun e => t ≤ e.timeMs ∧ e.timeMs < t + lag :=
    fun t => countP_decisions hlimit hlag fun u => t ≤ u ∧ u < t + lag
  have hallowed := hl.allowed
  rw [simulateMultiRegionLimit, if_neg (not_le.2 hlimit), if_neg (not_lt.2 hlag)]
  refine ⟨_, _, rfl, fun pre d post hd hfills => ?_, fun hnot => ?_, ?_⟩
  · obtain ⟨hlate, hle⟩ := hc.countP_late_le hl hd hfills
    have htotal := hl.countP_accepted hd hfills
    rw [hcount] at hle
    refine ⟨hlate, ?_⟩
    show max 0 (_ - limit) ≤ _
    rw [hallowed, htotal]
    omega
  · show max 0 (_ - limit) = 0
    rw [hallowed]
    exact max_eq_left (Int.sub_nonpos_of_le (hl.countP_accepted_lt hnot).le)
  · rintro rfl
    show max 0 (_ - limit) = 0
    rw [hallowed]
    exact max_eq_left (Int.sub_nonpos_of_le (hc.countP_accepted_le_of_lag_zero hl))

/-- Six requests of each region, ten milliseconds apart, with a lag of thirty. -/
theorem oversubscription_confined_sample :
    ∃ summary decisions, simulateMultiRegionLimit 6 30 6 6 10 = .ok (summary, decisions) ∧
      ∀ pre d post, decisions = pre ++ d :: post → d.Fills 6 →
        summary.oversubscription ≤ (allRequests 6 6 10).countP fun e =>
          d.timeMs ≤ e.timeMs ∧ e.timeMs < d.timeMs + 30 := by
  obtain ⟨summary, decisions, hrun, hafter, -⟩ :=
    oversubscription_confined 6 30 6 6 10 (by decide) (by decide)
  exact ⟨summary, decisions, hrun, fun pre d post hd hf => (hafter pre d post hd hf).2⟩

end Run

end RateLimiter.MultiRegion
