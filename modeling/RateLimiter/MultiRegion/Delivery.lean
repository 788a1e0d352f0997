import RateLimiter.MultiRegion.Accounting
import Mathlib.Algebra.Order.Ring.Int
import Mathlib.Data.Finset.Max

/-!
# What a region has heard

A replication carries no count of its own: it tells what its source has accepted by the time it
arrives.  Once the first lag is over, replications arrive no further apart than requests do, so that
a region has then heard of everything the other one has accepted at earlier instants.  `Delivers`
describes the decisions of a run by this alone, with no queue.

* `Underway`: who has been told what, at every turn, when there is a lag;
* `delivers_finish`: the decisions of a run are those `Delivers` describes.
-/

set_option autoImplicit false

namespace RateLimiter.MultiRegion

open EventLoop

/-! ## The decisions by themselves -/

/-- The region that decides `d` has heard of `x`, should `x` be an acceptance. -/
def RegionalDecision.Hears (lag : ℤ) (d x : RegionalDecision) : Prop :=
  x.region = d.region.other ∧ (lag = 0 ∨ lag ≤ d.timeMs ∧ x.timeMs < d.timeMs)

instance (lag : ℤ) (d x : RegionalDecision) : Decidable (d.Hears lag x) :=
  inferInstanceAs (Decidable (_ ∧ _))

/-- What the region of `d` has accepted itself, of the requests decided before. -/
def own (pre : List RegionalDecision) (d : RegionalDecision) : ℕ :=
  pre.countP fun x => x.region = d.region ∧ x.accepted

/-- What it has heard of: the acceptances of the other region that a replication has delivered
before `d`. -/
def heard (lag : ℤ) (pre : List RegionalDecision) (d : RegionalDecision) : ℕ :=
  pre.countP fun x => d.Hears lag x ∧ x.accepted

/-- Every decision goes by what its region has accepted and heard of. -/
def Delivers (limit lag : ℤ) (decisions : List RegionalDecision) : Prop :=
  ∀ pre d post, decisions = pre ++ d :: post →
    d.observedRemoteCount = heard lag pre d ∧
      (d.accepted = true ↔ (own pre d + heard lag pre d : ℤ) < limit)

/-- What a region has accepted before an instant, of the decisions that were made. -/
def acceptedBefore (decisions : List RegionalDecision) (region : RegionName) (timeMs : ℤ) : ℕ :=
  decisions.countP fun d => (d.region = region ∧ d.accepted) ∧ d.timeMs < timeMs

theorem acceptedBefore_le_countP (decisions : List RegionalDecision) (r : RegionName) (t : ℤ) :
    acceptedBefore decisions r t ≤ decisions.countP fun d => d.region = r ∧ d.accepted :=
  List.countP_mono_left fun d _ hd => by
    simp only [decide_eq_true_eq] at hd ⊢
    exact hd.1

theorem countP_le_acceptedBefore {decisions : List RegionalDecision} {t : ℤ}
    (h : ∀ d ∈ decisions, d.timeMs < t) (r : RegionName) :
    decisions.countP (fun d => d.region = r ∧ d.accepted) ≤ acceptedBefore decisions r t :=
  List.countP_mono_left fun d hd hacc => by
    simp only [decide_eq_true_eq] at hacc ⊢
    exact ⟨hacc, h d hd⟩

theorem acceptedBefore_le_of_forall {decisions : List RegionalDecision} {r : RegionName} {t t' : ℤ}
    (h : ∀ d ∈ decisions, d.region = r ∧ d.accepted = true → d.timeMs < t → d.timeMs < t') :
    acceptedBefore decisions r t ≤ acceptedBefore decisions r t' :=
  List.countP_mono_left fun d hd hcount => by
    simp only [decide_eq_true_eq] at hcount ⊢
    exact ⟨hcount.1, h d hd hcount.1 hcount.2⟩

theorem acceptedBefore_le_append (decisions more : List RegionalDecision) (r : RegionName) (t : ℤ) :
    acceptedBefore decisions r t ≤ acceptedBefore (decisions ++ more) r t :=
  (List.sublist_append_left decisions more).countP_le

/-- A decision at `t` or later does not count. -/
theorem acceptedBefore_append_singleton {t : ℤ} {d : RegionalDecision} (h : t ≤ d.timeMs)
    (decisions : List RegionalDecision) (r : RegionName) :
    acceptedBefore (decisions ++ [d]) r t = acceptedBefore decisions r t := by
  simp [acceptedBefore, List.countP_append, h]

/-! ## The requests -/

/-- How many requests a region is sent. -/
def sent (india us : ℤ) : RegionName → ℤ
  | .india => india
  | .us => us

theorem mem_allRequests {india us spacing : ℤ} {e : Event} :
    e ∈ allRequests india us spacing ↔ ∃ i : ℤ, 0 ≤ i ∧ i < sent india us e.region ∧
      e = ⟨i * spacing, 1, .request, e.region⟩ := by
  have hevents : ∀ (r : RegionName) (n : ℤ), e ∈ requestEvents r n spacing ↔
      ∃ i : ℤ, 0 ≤ i ∧ i < n ∧ e = ⟨i * spacing, 1, .request, r⟩ := by
    intro r n
    simp only [requestEvents, List.mem_map, List.bind_eq_flatMap, List.mem_flatMap,
      List.mem_range, List.pure_def, List.mem_singleton]
    constructor
    · rintro ⟨i, ⟨j, hj, rfl⟩, rfl⟩
      exact ⟨j, by omega, by omega, rfl⟩
    · rintro ⟨i, hnonneg, hi, rfl⟩
      exact ⟨i, ⟨i.toNat, by omega, (Int.toNat_of_nonneg hnonneg).symm⟩, rfl⟩
  rw [allRequests, List.mem_append, hevents, hevents]
  constructor
  · rintro (⟨i, hnonneg, hi, rfl⟩ | ⟨i, hnonneg, hi, rfl⟩)
    · exact ⟨i, hnonneg, hi, rfl⟩
    · exact ⟨i, hnonneg, hi, rfl⟩
  · rintro ⟨i, hnonneg, hi, he⟩
    cases hr : e.region with
    | india => exact Or.inl ⟨i, hnonneg, by simpa [hr, sent] using hi, by simpa [hr] using he⟩
    | us => exact Or.inr ⟨i, hnonneg, by simpa [hr, sent] using hi, by simpa [hr] using he⟩

theorem mem_push_allRequests {india us spacing : ℤ} {e : Event} :
    e ∈ push [] (allRequests india us spacing) ↔ ∃ i : ℤ, 0 ≤ i ∧ i < sent india us e.region ∧
      e = ⟨i * spacing, 1, .request, e.region⟩ := by
  rw [mem_push, mem_allRequests]
  simp

/-! ## The invariants of the loop -/

/-- A region that has blocked a request accepts no more, since what it knows of never shrinks. -/
structure Settled (limit : ℤ) (c : Config Simulation Event) : Prop where
  /-- What a blocked request was blocked for stays so. -/
  blocked : ∀ d ∈ c.state.decisions, d.accepted = false → limit ≤ c.state.knownGlobal d.region
  /-- What comes before an acceptance is accepted. -/
  before : ∀ d ∈ c.state.decisions, ∀ d' ∈ c.state.decisions, d.region = d'.region →
    d.timeMs < d'.timeMs → d'.accepted = true → d.accepted = true

/-- Who has been told what, when there is a lag: which acceptances a region has learnt of, and which
are still on their way. -/
structure Underway (lag : ℤ) (c : Config Simulation Event) : Prop where
  /-- Time starts at zero. -/
  nonneg : ∀ e ∈ c.queue, 0 ≤ e.timeMs
  /-- A replication arrives after the first lag and after all that has been decided. -/
  fresh : ∀ f ∈ c.queue, f.kind = .replication →
    lag ≤ f.timeMs ∧ ∀ d ∈ c.state.decisions, d.timeMs < f.timeMs
  /-- Nothing is known too early. -/
  upper : ∀ e ∈ c.queue, e.kind = .request → ∀ r,
    (c.state.regions r.other).remoteObserved ≤
      if lag ≤ e.timeMs then acceptedBefore c.state.decisions r e.timeMs else 0
  /-- An acceptance is still to be announced, or has been with all that came before. -/
  told : ∀ d ∈ c.state.decisions, d.accepted = true →
    ⟨d.timeMs + lag, 0, .replication, d.region⟩ ∈ c.queue ∨
      (∀ f ∈ c.queue, d.timeMs + lag ≤ f.timeMs) ∧
        acceptedBefore c.state.decisions d.region (d.timeMs + lag) ≤
          (c.state.regions d.region.other).remoteObserved

section Turns

variable {limit lag : ℤ} {requests : List Event} {s : Simulation} {e : Event} {rest : List Event}

theorem knownGlobal_le_replicate (s : Simulation) (source r : RegionName) :
    s.knownGlobal r ≤ (s.replicate source).knownGlobal r :=
  add_le_add (replicate_localAccepted ..).ge (replicate_remoteObserved_le ..)

theorem knownGlobal_le_request (limit : ℤ) (s : Simulation) (e : Event) (r : RegionName) :
    s.knownGlobal r ≤ (s.request limit e).knownGlobal r :=
  add_le_add (request_localAccepted_le ..) (request_remoteObserved ..).ge

theorem Settled.replicate (h : Settled limit ⟨s, e :: rest⟩) :
    Settled limit ⟨(s.measure rest).replicate e.region, rest⟩ where
  blocked d hd hb := (h.blocked d hd hb).trans (knownGlobal_le_replicate (s.measure rest) _ _)
  before := h.before

theorem Settled.request (hl : Ledger limit requests ⟨s, e :: rest⟩)
    (h : Settled limit ⟨s, e :: rest⟩) {queue : List Event} :
    Settled limit ⟨(s.measure rest).request limit e, queue⟩ where
  blocked d hd hb := by
    refine le_trans ?_ (knownGlobal_le_request limit (s.measure rest) e d.region)
    rcases List.mem_append.1 hd with hd | hd
    · exact h.blocked d hd hb
    · rw [List.mem_singleton.1 hd] at hb ⊢
      refine not_lt.1 fun hlt => ?_
      rw [(decision_accepted limit (s.measure rest) e).2 hlt] at hb
      cases hb
  before d hd d' hd' hr ht hacc := by
    rcases List.mem_append.1 hd' with hd' | hd'
    · rcases List.mem_append.1 hd with hd | hd
      · exact h.before d hd d' hd' hr ht hacc
      · -- The new decision comes before none.
        rw [List.mem_singleton.1 hd] at ht
        exact absurd (hl.decided_before d' hd') (not_le.2 ht)
    · rw [List.mem_singleton.1 hd'] at hr ht hacc
      rcases List.mem_append.1 hd with hd | hd
      · by_contra hb
        have hle := h.blocked d hd (Bool.eq_false_of_not_eq_true hb)
        rw [hr] at hle
        exact absurd ((decision_accepted limit (s.measure rest) e).1 hacc) (not_lt.2 hle)
      · rw [List.mem_singleton.1 hd] at ht
        exact absurd ht (lt_irrefl _)

theorem Underway.replicate (ha : Accounts limit requests ⟨s, e :: rest⟩)
    (h : Underway lag ⟨s, e :: rest⟩) (hfirst : ∀ f ∈ rest, e ≤ f) (he : e.kind = .replication) :
    Underway lag ⟨(s.measure rest).replicate e.region, rest⟩ where
  nonneg f hf := h.nonneg f (List.mem_cons_of_mem _ hf)
  fresh f hf := h.fresh f (List.mem_cons_of_mem _ hf)
  upper f hf hkind r := by
    have hupper := h.upper f (List.mem_cons_of_mem _ hf) hkind r
    rw [replicate_regions]
    split
    · rename_i hr
      refine max_le hupper ?_
      -- All that the source has accepted it has accepted before the replication came.
      obtain ⟨hlag, hdecided⟩ := h.fresh e List.mem_cons_self he
      have htime := le_of_first hfirst hf
      have hsource : e.region = r := by
        rw [← RegionName.other_other r, hr, RegionName.other_other]
      rw [if_pos (hlag.trans htime), hsource]
      refine (ha.accepted r).trans_le (Int.ofNat_le.2 ?_)
      exact countP_le_acceptedBefore (fun d hd => (hdecided d hd).trans_le htime) r
    · exact hupper
  told d hd hacc := by
    rcases h.told d hd hacc with hmem | ⟨htime, htold⟩
    · rcases List.mem_cons.1 hmem with heq | hmem
      · refine Or.inr ⟨fun f hf => ?_, ?_⟩
        · rw [show d.timeMs + lag = e.timeMs from congrArg Event.timeMs heq]
          exact le_of_first hfirst hf
        · rw [show d.region = e.region from congrArg Event.region heq]
          refine le_trans ?_ (localAccepted_le_replicate (s.measure rest) e.region)
          refine le_trans (Int.ofNat_le.2 ?_) (ha.accepted e.region).ge
          exact acceptedBefore_le_countP s.decisions e.region _
      · exact Or.inl hmem
    · refine Or.inr ⟨fun f hf => htime f (List.mem_cons_of_mem _ hf), htold.trans ?_⟩
      exact replicate_remoteObserved_le (s.measure rest) e.region d.region.other

theorem Underway.request (hl : Ledger limit requests ⟨s, e :: rest⟩)
    (h : Underway lag ⟨s, e :: rest⟩) (hlag : 0 < lag) (hfirst : ∀ f ∈ rest, e ≤ f)
    (he : e.kind = .request) :
    Underway lag ⟨(s.measure rest).request limit e, push rest (s.replication limit lag e)⟩ where
  nonneg f hf := (h.nonneg e List.mem_cons_self).trans
    (le_of_mem_push_replication hlag.le hfirst hf)
  fresh f hf hkind := by
    have hnonneg := h.nonneg e List.mem_cons_self
    have hnew : lag ≤ f.timeMs ∧ e.timeMs < f.timeMs := by
      rcases mem_push.1 hf with hf | hf
      · have htime := (mem_replication hf).2.2
        omega
      · have hf := List.mem_cons_of_mem e hf
        exact ⟨(h.fresh f hf hkind).1, Event.lt_of_replication hf hkind hfirst hl.priority he⟩
    refine ⟨hnew.1, fun d hd => ?_⟩
    rcases List.mem_append.1 hd with hd | hd
    · exact (hl.decided_before d hd).trans_lt hnew.2
    · rw [List.mem_singleton.1 hd]
      exact hnew.2
  upper f hf hkind r := by
    have hrest : f ∈ rest := by
      rcases mem_push.1 hf with hf | hf
      · rw [(mem_replication hf).1] at hkind
        cases hkind
      · exact hf
    rw [request_remoteObserved]
    refine (h.upper f (List.mem_cons_of_mem _ hrest) hkind r).trans ?_
    split
    · exact Int.ofNat_le.2 (acceptedBefore_le_append s.decisions _ r _)
    · exact le_rfl
  told d hd hacc := by
    rw [request_remoteObserved]
    rcases List.mem_append.1 hd with hd | hd
    · rcases h.told d hd hacc with hmem | ⟨htime, htold⟩
      · rcases List.mem_cons.1 hmem with heq | hmem
        · rw [← heq] at he
          cases he
        · exact Or.inl (mem_push.2 (Or.inr hmem))
      · have hnow := htime e List.mem_cons_self
        refine Or.inr ⟨fun f hf =>
          hnow.trans (le_of_mem_push_replication hlag.le hfirst hf), ?_⟩
        rw [show ((s.measure rest).request limit e).decisions =
          s.decisions ++ [s.decision limit e] from rfl, acceptedBefore_append_singleton hnow]
        exact htold
    · obtain rfl := List.mem_singleton.1 hd
      refine Or.inl (mem_push.2 (Or.inl ?_))
      rw [Simulation.replication, if_pos ((decision_accepted limit s e).1 hacc)]
      exact List.mem_singleton.2 rfl

/-! ## What a region has heard when it decides -/

variable {india us spacing : ℤ} {r : RegionName}

theorem time_of_mem_decisions {queue : List Event} {d : RegionalDecision}
    (ha : Accounts limit (allRequests india us spacing) ⟨s, queue⟩) (hd : d ∈ s.decisions) :
    ∃ i : ℤ, 0 ≤ i ∧ i < sent india us d.region ∧ d.timeMs = i * spacing := by
  have hmem : d.request ∈ push [] (allRequests india us spacing) := by
    rw [← ha.order]
    exact List.mem_append_left _ (List.mem_map_of_mem hd)
  obtain ⟨i, hnonneg, hi, heq⟩ := mem_push_allRequests.1 hmem
  exact ⟨i, hnonneg, hi, congrArg Event.timeMs heq⟩

theorem time_of_mem_queue {queue : List Event} {f : Event}
    (ha : Accounts limit (allRequests india us spacing) ⟨s, queue⟩) (hf : f ∈ queue)
    (hkind : f.kind = .request) :
    ∃ i : ℤ, 0 ≤ i ∧ i < sent india us f.region ∧ f.timeMs = i * spacing := by
  have hmem : f ∈ push [] (allRequests india us spacing) := by
    rw [← ha.order]
    exact List.mem_append_right _ (List.mem_filter.2 ⟨hf, by simp [hkind]⟩)
  obtain ⟨i, hnonneg, hi, heq⟩ := mem_push_allRequests.1 hmem
  exact ⟨i, hnonneg, hi, congrArg Event.timeMs heq⟩

/-- A request before the event at hand has been decided. -/
theorem exists_decision_of_lt (ha : Accounts limit (allRequests india us spacing) ⟨s, e :: rest⟩)
    (hfirst : ∀ f ∈ rest, e ≤ f) {i : ℤ} (hnonneg : 0 ≤ i) (hi : i < sent india us r)
    (hlt : i * spacing < e.timeMs) :
    ∃ d ∈ s.decisions, d.region = r ∧ d.timeMs = i * spacing := by
  have hmem : (⟨i * spacing, 1, .request, r⟩ : Event) ∈ push [] (allRequests india us spacing) :=
    mem_push_allRequests.2 ⟨i, hnonneg, hi, rfl⟩
  rw [← ha.order] at hmem
  rcases List.mem_append.1 hmem with hmem | hmem
  · obtain ⟨d, hd, heq⟩ := List.mem_map.1 hmem
    exact ⟨d, hd, congrArg Event.region heq, congrArg Event.timeMs heq⟩
  · rcases List.mem_cons.1 (List.mem_filter.1 hmem).1 with heq | hrest
    · exact absurd hlt (by rw [← heq]; exact lt_irrefl _)
    · exact absurd (le_of_first hfirst hrest) (not_le.2 hlt)

/-- The acceptance whose announcement is the last to be due tells of all that came before. -/
theorem exists_announcement (ha : Accounts limit (allRequests india us spacing) ⟨s, e :: rest⟩)
    (hs : Settled limit ⟨s, e :: rest⟩) (hlag : 0 < lag) (hspacing : 0 ≤ spacing)
    (hfirst : ∀ f ∈ rest, e ≤ f) (he : e.kind = .request) (hdue : lag ≤ e.timeMs)
    (hsome : ∃ d ∈ s.decisions, (d.region = r ∧ d.accepted = true) ∧ d.timeMs < e.timeMs) :
    ∃ d ∈ s.decisions, (d.region = r ∧ d.accepted = true) ∧ d.timeMs + lag ≤ e.timeMs ∧
      ∀ x ∈ s.decisions, x.region = r ∧ x.accepted = true → x.timeMs < e.timeMs →
        x.timeMs < d.timeMs + lag := by
  obtain ⟨last, hlast, hmax⟩ := (s.decisions.toFinset.filter fun d =>
    (d.region = r ∧ d.accepted = true) ∧ d.timeMs < e.timeMs).exists_max_image (·.timeMs)
      (hsome.imp fun d hd => by simpa using hd)
  simp only [Finset.mem_filter, List.mem_toFinset] at hlast hmax
  obtain ⟨hlast, hacc, hbefore⟩ := hlast
  by_cases hheard : last.timeMs + lag ≤ e.timeMs
  · refine ⟨last, hlast, hacc, hheard, fun x hx hxacc hxt => ?_⟩
    have := hmax x ⟨hx, hxacc, hxt⟩
    omega
  · -- The last one is not announced yet: take the request that is announced within the last
    -- spacing.
    obtain ⟨k, -, -, hk⟩ := time_of_mem_queue ha List.mem_cons_self he
    obtain ⟨j, -, hj, hjtime⟩ := time_of_mem_decisions ha hlast
    have hpos : 0 < spacing := by
      refine lt_of_le_of_ne hspacing fun hzero => ?_
      rw [← hzero, mul_zero] at hk
      omega
    have hle := Int.ediv_mul_le (e.timeMs - lag) hpos.ne'
    have hlt := Int.lt_ediv_add_one_mul_self (e.timeMs - lag) hpos
    have hnonneg : 0 ≤ (e.timeMs - lag) / spacing := Int.ediv_nonneg (by omega) hspacing
    generalize (e.timeMs - lag) / spacing = i at hle hlt hnonneg
    rw [add_one_mul] at hlt
    have hij : i < j := lt_of_mul_lt_mul_right (by omega) hspacing
    rw [hacc.1] at hj
    obtain ⟨d, hd, hr, htime⟩ := exists_decision_of_lt ha hfirst hnonneg (hij.trans hj) (by omega)
    refine ⟨d, hd, ⟨hr, hs.before d hd last hlast (hr.trans hacc.1.symm) (by omega) hacc.2⟩,
      by omega, fun x hx _ hxt => ?_⟩
    obtain ⟨m, -, -, hm⟩ := time_of_mem_decisions ha hx
    rw [hm, hk] at hxt
    have hmk : (m + 1) * spacing ≤ k * spacing :=
      mul_le_mul_of_nonneg_right (lt_of_mul_lt_mul_right hxt hspacing) hspacing
    rw [add_one_mul] at hmk
    omega

/-- Once the first lag is over, a region has heard of all that came before. -/
theorem Underway.acceptedBefore_le (hl : Ledger limit (allRequests india us spacing) ⟨s, e :: rest⟩)
    (ha : Accounts limit (allRequests india us spacing) ⟨s, e :: rest⟩)
    (hs : Settled limit ⟨s, e :: rest⟩) (h : Underway lag ⟨s, e :: rest⟩) (hlag : 0 < lag)
    (hspacing : 0 ≤ spacing) (hfirst : ∀ f ∈ rest, e ≤ f) (he : e.kind = .request)
    (hdue : lag ≤ e.timeMs) (r : RegionName) :
    (acceptedBefore s.decisions r e.timeMs : ℤ) ≤ (s.regions r.other).remoteObserved := by
  by_cases hsome : ∃ d ∈ s.decisions, (d.region = r ∧ d.accepted = true) ∧ d.timeMs < e.timeMs
  · obtain ⟨d, hd, hacc, hle, hall⟩ :=
      exists_announcement ha hs hlag hspacing hfirst he hdue hsome
    refine (Int.ofNat_le.2 (acceptedBefore_le_of_forall hall)).trans ?_
    rcases h.told d hd hacc.2 with hmem | ⟨-, htold⟩
    · exact absurd (Event.lt_of_replication hmem rfl hfirst hl.priority he) (not_lt.2 hle)
    · rw [hacc.1] at htold
      exact htold
  · have hzero : acceptedBefore s.decisions r e.timeMs = 0 :=
      List.countP_eq_zero.2 fun d hd hcount => hsome ⟨d, hd, by simpa using hcount⟩
    rw [hzero]
    exact (ha.observed r.other).1

/-- With a lag, a region has heard of nothing at first and then of all that came before. -/
theorem heard_of_lag_pos (hlag : 0 < lag) (pre : List RegionalDecision) (d : RegionalDecision) :
    heard lag pre d =
      if lag ≤ d.timeMs then acceptedBefore pre d.region.other d.timeMs else 0 := by
  split
  · rename_i hdue
    refine List.countP_congr fun x _ => ?_
    rw [decide_eq_true_eq, decide_eq_true_eq, RegionalDecision.Hears]
    constructor
    · rintro ⟨⟨hr, hzero | ⟨-, ht⟩⟩, hacc⟩
      · exact absurd hzero hlag.ne'
      · exact ⟨⟨hr, hacc⟩, ht⟩
    · rintro ⟨⟨hr, hacc⟩, ht⟩
      exact ⟨⟨hr, Or.inr ⟨hdue, ht⟩⟩, hacc⟩
  · rename_i hdue
    refine List.countP_eq_zero.2 fun x _ hcount => ?_
    rw [decide_eq_true_eq, RegionalDecision.Hears] at hcount
    obtain ⟨⟨-, hzero | ⟨hle, -⟩⟩, -⟩ := hcount
    · exact hlag.ne' hzero
    · exact hdue hle

theorem heard_of_lag_zero (pre : List RegionalDecision) (d : RegionalDecision) :
    heard 0 pre d = pre.countP fun x => x.region = d.region.other ∧ x.accepted := by
  simp [heard, RegionalDecision.Hears]

theorem Confined.localAccepted_le (hl : Ledger limit requests ⟨s, e :: rest⟩)
    (h : Confined limit 0 ⟨s, e :: rest⟩) (hfirst : ∀ f ∈ rest, e ≤ f) (he : e.kind = .request)
    (r : RegionName) : (s.regions r).localAccepted ≤ (s.regions r.other).remoteObserved := by
  have hpast : ∀ d ∈ s.decisions, d.timeMs + 0 ≤ e.timeMs := fun d hd => by
    rw [add_zero]
    exact hl.decided_before d hd
  rcases (h.announced e.timeMs hpast r).2 with hobserved | ⟨f, hf, hkind, -, htime⟩
  · exact hobserved
  · exact absurd (Event.lt_of_replication hf hkind hfirst hl.priority he) (not_lt.2 htime)

/-- **The observed count** is what the region has heard of. -/
theorem observed_eq_heard (hl : Ledger limit (allRequests india us spacing) ⟨s, e :: rest⟩)
    (hc : Confined limit lag ⟨s, e :: rest⟩)
    (ha : Accounts limit (allRequests india us spacing) ⟨s, e :: rest⟩)
    (hs : Settled limit ⟨s, e :: rest⟩) (hu : 0 < lag → Underway lag ⟨s, e :: rest⟩)
    (hlag : 0 ≤ lag) (hspacing : 0 ≤ spacing) (hfirst : ∀ f ∈ rest, e ≤ f)
    (he : e.kind = .request) :
    (s.regions e.region).remoteObserved = heard lag s.decisions (s.decision limit e) := by
  have hr := e.region.other_other
  rcases hlag.eq_or_lt with rfl | hlag
  · rw [heard_of_lag_zero]
    refine le_antisymm ((ha.observed e.region).2.trans_eq (ha.accepted e.region.other)) ?_
    refine (ha.accepted e.region.other).ge.trans ?_
    simpa [hr] using hc.localAccepted_le hl hfirst he e.region.other
  · have hupper := (hu hlag).upper e List.mem_cons_self he e.region.other
    have hlower : lag ≤ e.timeMs → _ := fun hdue =>
      (hu hlag).acceptedBefore_le hl ha hs hlag hspacing hfirst he hdue e.region.other
    rw [hr] at hupper hlower
    rw [heard_of_lag_pos hlag]
    show _ = (((if lag ≤ e.timeMs then acceptedBefore s.decisions e.region.other e.timeMs
      else 0 : ℕ)) : ℤ)
    split
    · rename_i hdue
      rw [if_pos hdue] at hupper
      exact le_antisymm hupper (hlower hdue)
    · rename_i hdue
      rw [if_neg hdue] at hupper
      exact le_antisymm hupper (ha.observed e.region).1

theorem Delivers.request (ha : Accounts limit requests ⟨s, e :: rest⟩)
    (h : Delivers limit lag s.decisions)
    (hheard : (s.regions e.region).remoteObserved = heard lag s.decisions (s.decision limit e)) :
    Delivers limit lag ((s.measure rest).request limit e).decisions := by
  intro pre d post hsplit
  rcases append_singleton_eq hsplit with ⟨rfl, rfl⟩ | ⟨post', hsplit⟩
  · refine ⟨hheard, (decision_accepted limit s e).trans ?_⟩
    rw [Simulation.knownGlobal, hheard]
    have hown : (s.regions e.region).localAccepted = own s.decisions (s.decision limit e) :=
      ha.accepted e.region
    rw [hown]
    exact Iff.rfl
  · exact h pre d post' hsplit

end Turns

/-! ## The run -/

section Run

variable {limit lag india us spacing : ℤ}

theorem settled_initial : Settled limit (initial (allRequests india us spacing)) where
  blocked d hd := by cases hd
  before d hd := by cases hd

theorem underway_initial (hspacing : 0 ≤ spacing) :
    Underway lag (initial (allRequests india us spacing)) where
  nonneg e he := by
    obtain ⟨i, hnonneg, -, heq⟩ := mem_push_allRequests.1 he
    rw [heq]
    exact mul_nonneg hnonneg hspacing
  fresh f hf hkind := by
    have hmem : f ∈ allRequests india us spacing := by simpa using mem_push.1 hf
    rw [(kind_of_mem_allRequests hmem).1] at hkind
    cases hkind
  upper e he hkind r := by simp [initial, acceptedBefore]
  told d hd := by cases hd

theorem delivers_finish (india us : ℤ) (hlimit : 0 < limit) (hlag : 0 ≤ lag)
    (hspacing : 0 ≤ spacing) :
    Delivers limit lag (finish limit lag (allRequests india us spacing)).state.decisions := by
  refine (finish_invariant (I := fun c => (Ledger limit (allRequests india us spacing) c ∧
    Confined limit lag c) ∧ Accounts limit (allRequests india us spacing) c ∧ Settled limit c ∧
      (0 < lag → Underway lag c) ∧ Delivers limit lag c.state.decisions)
    ⟨⟨ledger_initial hlimit, confined_initial⟩, accounts_initial hlimit,
      settled_initial, fun _ => underway_initial hspacing,
      fun pre d post hd => by simp [initial] at hd⟩ ?_ ?_).2.2.2.2
  · rintro s e rest ⟨⟨hl, hc⟩, ha, hs, hu, hd⟩ hfirst he
    have hheard := observed_eq_heard hl hc ha hs hu hlag hspacing hfirst he
    exact ⟨⟨hl.request hlag hfirst he, hc.request hl hfirst he⟩,
      ha.request (hl.priority e List.mem_cons_self) he, hs.request hl,
      fun hpos => (hu hpos).request hl hpos hfirst he, hd.request ha hheard⟩
  · rintro s e rest ⟨⟨hl, hc⟩, ha, hs, hu, hd⟩ hfirst he
    exact ⟨⟨hl.replicate he, hc.replicate⟩, ha.replicate he, hs.replicate,
      fun hpos => (hu hpos).replicate ha hfirst he, hd⟩

end Run

end RateLimiter.MultiRegion
