import RateLimiter.MultiRegion.LagComparison

/-!
# When the lag is honoured

A region should learn of an acceptance when the lag is over, and not before.  A replication does
set out one lag before it arrives; but what it tells is read when it arrives, so that whatever its
source has accepted on the way is known too early.  The lag is honoured exactly when nothing can be
accepted on the way.

* `Course.honoursLag_iff`: the lag is honoured if and only if no acceptance is known early;
* `honours_lag_iff`: when that is, in terms of the arguments of the simulation.
-/

set_option autoImplicit false

namespace RateLimiter.MultiRegion

open EventLoop Counting

/-- What the other region had accepted one lag ago. -/
def arrived (lag : ℤ) (pre : List RegionalDecision) (d : RegionalDecision) : ℕ :=
  pre.countP fun x => (x.region = d.region.other ∧ x.accepted) ∧ x.timeMs ≤ d.timeMs - lag

/-- At every decision the region has observed what had been accepted one lag ago. -/
def HonoursLag (lag : ℤ) (decisions : List RegionalDecision) : Prop :=
  ∀ pre d post, decisions = pre ++ d :: post → d.observedRemoteCount = arrived lag pre d

/-- The region that decides `d` has heard of `x` before a lag has passed. -/
def RegionalDecision.HearsEarly (lag : ℤ) (d x : RegionalDecision) : Prop :=
  x.region = d.region.other ∧ lag ≤ d.timeMs ∧ d.timeMs - lag < x.timeMs ∧ x.timeMs < d.timeMs

/-! ## The decisions of a run -/

/-- What the decisions of a run are like: each goes by what its region has heard, they come in the
order of time, and they are about the requests that were sent. -/
structure Course (limit lag india us spacing : ℤ) (decisions : List RegionalDecision) : Prop where
  delivers : Delivers limit lag decisions
  ordered : decisions.Pairwise fun d d' => d.timeMs ≤ d'.timeMs
  requests : decisions.map RegionalDecision.request = push [] (allRequests india us spacing)

theorem course_finish {limit lag spacing : ℤ} (india us : ℤ) (hlimit : 0 < limit) (hlag : 0 ≤ lag)
    (hspacing : 0 ≤ spacing) : Course limit lag india us spacing
      (finish limit lag (allRequests india us spacing)).state.decisions where
  delivers := delivers_finish india us hlimit hlag hspacing
  ordered := (confined_finish india us spacing hlimit hlag).1.ordered
  requests := map_request_decisions india us spacing hlimit hlag

theorem nodup_allRequests {spacing : ℤ} (india us : ℤ) (hspacing : 0 < spacing) :
    (allRequests india us spacing).Nodup := by
  have hevents : ∀ (r : RegionName) (n : ℤ), (requestEvents r n spacing).Nodup := by
    intro r n
    refine List.Nodup.map (fun i j hij => ?_) ?_
    · exact mul_right_cancel₀ hspacing.ne' (congrArg Event.timeMs hij)
    · simpa [List.map_eq_flatMap] using
        (List.nodup_range (n := n.toNat)).map (Nat.cast_injective (R := ℤ))
  refine (hevents .india india).append (hevents .us us) fun e hi hu => ?_
  obtain ⟨i, -, rfl⟩ := List.mem_map.1 hi
  obtain ⟨j, -, heq⟩ := List.mem_map.1 hu
  simp at heq

section Run

variable {limit lag india us spacing : ℤ} {decisions pre post : List RegionalDecision}
  {d x : RegionalDecision} {r : RegionName}

theorem Course.time (h : Course limit lag india us spacing decisions) (hd : d ∈ decisions) :
    ∃ i : ℤ, 0 ≤ i ∧ i < sent india us d.region ∧
      d.request = ⟨i * spacing, 1, .request, d.region⟩ := by
  refine (mem_push_allRequests (e := d.request)).1 ?_
  rw [← h.requests]
  exact List.mem_map_of_mem hd

theorem Course.request_eq (h : Course limit lag india us spacing decisions) (hd : d ∈ decisions) :
    d.request = ⟨d.timeMs, 1, .request, d.region⟩ := by
  obtain ⟨i, -, -, hreq⟩ := h.time hd
  have htime : d.timeMs = i * spacing := congrArg Event.timeMs hreq
  rw [hreq, htime]

theorem Course.exists_decision (h : Course limit lag india us spacing decisions) {i : ℤ}
    (hnonneg : 0 ≤ i) (hi : i < sent india us r) :
    ∃ d ∈ decisions, d.request = ⟨i * spacing, 1, .request, r⟩ := by
  refine List.mem_map.1 ?_
  rw [h.requests]
  exact mem_push_allRequests.2 ⟨i, hnonneg, hi, rfl⟩

theorem Course.mem_of_lt (h : Course limit lag india us spacing decisions)
    (hsplit : decisions = pre ++ d :: post) (hx : x ∈ decisions) (hlt : x.timeMs < d.timeMs) :
    x ∈ pre := by
  have hordered := h.ordered
  rw [hsplit, List.pairwise_append, List.pairwise_cons] at hordered
  rw [hsplit, List.mem_append, List.mem_cons] at hx
  rcases hx with hx | rfl | hx
  · exact hx
  · exact absurd hlt (lt_irrefl _)
  · exact absurd (hordered.2.1.1 x hx) (not_le.2 hlt)

theorem Course.heard_eq_arrived_iff (h : Course limit lag india us spacing decisions)
    (hlag : 0 ≤ lag) (hspacing : 0 ≤ spacing) (hsplit : decisions = pre ++ d :: post) :
    heard lag pre d = arrived lag pre d ↔
      ∀ x ∈ pre, x.accepted = true → ¬d.HearsEarly lag x := by
  have hordered := h.ordered
  rw [hsplit, List.pairwise_append] at hordered
  refine (countP_eq_iff fun x hx harrived => ?_).trans
    (forall₂_congr fun x hx => ?_)
  · rw [decide_eq_true_eq] at harrived ⊢
    obtain ⟨⟨hr, hacc⟩, htime⟩ := harrived
    obtain ⟨i, hi, -, hreq⟩ := h.time (d := x) (by simp [hsplit, hx])
    have hnonneg : 0 ≤ x.timeMs :=
      (mul_nonneg hi hspacing).trans_eq (congrArg Event.timeMs hreq).symm
    refine ⟨⟨hr, ?_⟩, hacc⟩
    omega
  · have hle := hordered.2.2 x hx d List.mem_cons_self
    rw [decide_eq_true_eq, decide_eq_true_eq, RegionalDecision.Hears, RegionalDecision.HearsEarly]
    constructor
    · rintro hall hacc ⟨hr, hdue, hlate, hbefore⟩
      have := (hall ⟨⟨hr, Or.inr ⟨hdue, hbefore⟩⟩, hacc⟩).2
      omega
    · rintro hnot ⟨⟨hr, hvisible⟩, hacc⟩
      refine ⟨⟨hr, hacc⟩, not_lt.1 fun hlate => hnot hacc ⟨hr, ?_⟩⟩
      omega

/-- **The lag is honoured** exactly when no decision knows of an acceptance before one lag has
passed. -/
theorem Course.honoursLag_iff (h : Course limit lag india us spacing decisions)
    (hlag : 0 ≤ lag) (hspacing : 0 ≤ spacing) :
    HonoursLag lag decisions ↔
      ∀ d ∈ decisions, ∀ x ∈ decisions, x.accepted = true → ¬d.HearsEarly lag x := by
  constructor
  · intro hhonours d hd x hx hacc hearly
    obtain ⟨pre, post, hsplit⟩ := List.append_of_mem hd
    have heq := (h.delivers pre d post hsplit).1.symm.trans (hhonours pre d post hsplit)
    exact (h.heard_eq_arrived_iff hlag hspacing hsplit).1 (Int.ofNat_inj.1 heq) x
      (h.mem_of_lt hsplit hx hearly.2.2.2) hacc hearly
  · intro hnever pre d post hsplit
    refine (h.delivers pre d post hsplit).1.trans (Int.ofNat_inj.2 ?_)
    refine (h.heard_eq_arrived_iff hlag hspacing hsplit).2 fun x hx => ?_
    exact hnever d (by simp [hsplit]) x (by simp [hsplit, hx])

/-! ## When nothing is known early -/

/-- Under a limit of one a region accepts its first request only. -/
theorem Course.time_eq_zero (h : Course 1 lag india us spacing decisions) (hspacing : 0 ≤ spacing)
    (hx : x ∈ decisions) (hacc : x.accepted = true) : x.timeMs = 0 := by
  obtain ⟨i, hnonneg, hi, hreq⟩ := h.time hx
  have htime : x.timeMs = i * spacing := congrArg Event.timeMs hreq
  by_contra hne
  obtain ⟨y, hy, hyreq⟩ := h.exists_decision le_rfl (hnonneg.trans_lt hi)
  have hytime : y.timeMs = 0 * spacing := congrArg Event.timeMs hyreq
  have hyregion : y.region = x.region := congrArg Event.region hyreq
  obtain ⟨pre, post, hsplit⟩ := List.append_of_mem hx
  have hpos : 0 < i * spacing :=
    lt_of_le_of_ne (mul_nonneg hnonneg hspacing) fun hzero => hne (htime.trans hzero.symm)
  have hypre : y ∈ pre := h.mem_of_lt hsplit hy (by rw [hytime, zero_mul, htime]; exact hpos)
  -- The first request is accepted, as it counts for `x`, and leaves nothing to accept.
  have hyacc := h.delivers.accepted_of_counts h.ordered hsplit hacc hypre (Or.inl hyregion)
  have hown : 0 < own pre x := List.countP_pos_iff.2 ⟨y, hypre, by simp [hyregion, hyacc]⟩
  have hlt := (h.delivers pre x post hsplit).2.1 hacc
  omega

theorem Course.not_hearsEarly (h : Course limit lag india us spacing decisions)
    (hspacing : 0 ≤ spacing)
    (hwhen : lag ≤ spacing ∨ limit = 1 ∨
      ∀ r, sent india us r.other ≤ 1 ∨ (sent india us r - 1) * spacing < lag)
    (hd : d ∈ decisions) (hx : x ∈ decisions) (hacc : x.accepted = true) :
    ¬d.HearsEarly lag x := by
  rintro ⟨hr, hdue, hlate, hbefore⟩
  obtain ⟨i, hi, hisent, hxreq⟩ := h.time hx
  obtain ⟨k, hk, hksent, hdreq⟩ := h.time hd
  have hxtime : x.timeMs = i * spacing := congrArg Event.timeMs hxreq
  have hdtime : d.timeMs = k * spacing := congrArg Event.timeMs hdreq
  rcases hwhen with hshort | rfl | hfew
  · rw [hxtime, hdtime] at hbefore
    have hstep : (i + 1) * spacing ≤ k * spacing :=
      mul_le_mul_of_nonneg_right (lt_of_mul_lt_mul_right hbefore hspacing) hspacing
    rw [add_one_mul] at hstep
    omega
  · have hzero := h.time_eq_zero hspacing hx hacc
    omega
  · rcases hfew d.region with hone | hend
    · rw [hr] at hisent
      have hzero : i = 0 := by omega
      rw [hzero, zero_mul] at hxtime
      omega
    · have hlast : k * spacing ≤ (sent india us d.region - 1) * spacing :=
        mul_le_mul_of_nonneg_right (by omega) hspacing
      omega

/-- A request one spacing into the run is accepted, when the lag is longer and the limit is more
than one. -/
theorem Course.accepted_of_time_eq (h : Course limit lag india us spacing decisions)
    (hspacing : 0 < spacing) (hlong : spacing < lag) (hlimit : 1 < limit) (hx : x ∈ decisions)
    (htime : x.timeMs = spacing) : x.accepted = true := by
  obtain ⟨pre, post, hsplit⟩ := List.append_of_mem hx
  obtain ⟨-, hacc⟩ := h.delivers pre x post hsplit
  have hnothing : heard lag pre x = 0 := by
    rw [heard_of_lag_pos (hspacing.trans hlong), if_neg (by omega)]
  have hnodup : (decisions.map RegionalDecision.request).Nodup := by
    rw [h.requests, (push_perm _ _).nodup_iff, List.append_nil]
    exact nodup_allRequests india us hspacing
  rw [hsplit, List.map_append, List.map_cons, List.nodup_append] at hnodup
  -- Of its own, the region can have accepted the request at time zero.
  have hown : own pre x ≤ (pre.map RegionalDecision.request).count ⟨0, 1, .request, x.region⟩ := by
    rw [List.count, List.countP_map]
    refine List.countP_mono_left fun y hy hyx => ?_
    rw [decide_eq_true_eq] at hyx
    obtain ⟨i, hi, -, hyreq⟩ := h.time (d := y) (by simp [hsplit, hy])
    have hle : y.timeMs ≤ x.timeMs := by
      have hordered := h.ordered
      rw [hsplit, List.pairwise_append] at hordered
      exact hordered.2.2 y hy x List.mem_cons_self
    have hne : y.request ≠ x.request :=
      hnodup.2.2 _ (List.mem_map_of_mem hy) _ List.mem_cons_self
    have hytime : y.timeMs = i * spacing := congrArg Event.timeMs hyreq
    have hone : i ≤ 1 := le_of_mul_le_mul_right (by rw [one_mul]; omega) hspacing
    rcases hone.eq_or_lt with rfl | hzero
    · rw [hyreq, h.request_eq hx, one_mul, htime, hyx.1] at hne
      exact absurd rfl hne
    · obtain rfl : i = 0 := by omega
      simp [hyreq, hyx.1]
  have hone : (pre.map RegionalDecision.request).count ⟨0, 1, .request, x.region⟩ ≤ 1 :=
    List.nodup_iff_count_le_one.1 hnodup.1 _
  exact hacc.2 (by omega)

/-- A lag of more than one spacing is not honoured, if there are requests enough. -/
theorem Course.exists_hearsEarly (h : Course limit lag india us spacing decisions)
    (hspacing : 0 ≤ spacing) (hlong : spacing < lag) (hlimit : 1 < limit)
    (hother : 1 < sent india us r.other) (hend : lag ≤ (sent india us r - 1) * spacing) :
    ∃ d ∈ decisions, ∃ x ∈ decisions, x.accepted = true ∧ d.HearsEarly lag x := by
  have hpos : 0 < spacing := by
    refine lt_of_le_of_ne hspacing fun hzero => ?_
    rw [← hzero, mul_zero] at hend
    omega
  -- The first request a lag or more into the run, and the other region's second request.
  have hle := Int.ediv_mul_le (lag + spacing - 1) hpos.ne'
  have hlt := Int.lt_ediv_add_one_mul_self (lag + spacing - 1) hpos
  generalize (lag + spacing - 1) / spacing = k at hle hlt
  rw [add_one_mul] at hlt
  have hone : 1 < k := lt_of_mul_lt_mul_right (by rw [one_mul]; omega) hspacing
  have hk : k < sent india us r := by
    have hkr : k < sent india us r - 1 + 1 :=
      lt_of_mul_lt_mul_right (by rw [add_one_mul]; omega) hspacing
    omega
  obtain ⟨d, hd, hdreq⟩ := h.exists_decision (by omega) hk
  obtain ⟨x, hx, hxreq⟩ := h.exists_decision zero_le_one hother
  have hdtime : d.timeMs = k * spacing := congrArg Event.timeMs hdreq
  have hdregion : d.region = r := congrArg Event.region hdreq
  have hxtime : x.timeMs = spacing := (congrArg Event.timeMs hxreq).trans (one_mul spacing)
  refine ⟨d, hd, x, hx, h.accepted_of_time_eq hpos hlong hlimit hx hxtime, ?_, ?_, ?_, ?_⟩
  · rw [hdregion]
    exact congrArg Event.region hxreq
  · omega
  · omega
  · omega

end Run

/-- **When the lag is honoured.**  Either it is at most one spacing, or each region accepts its
first request only, or no region decides anything one lag into the run or later while the other one
is sent more than one request. -/
theorem honours_lag_iff (limit lag india us spacing : ℤ) (hlimit : 0 < limit) (hlag : 0 ≤ lag)
    (hspacing : 0 ≤ spacing) :
    ∃ summary decisions,
      simulateMultiRegionLimit limit lag india us spacing = .ok (summary, decisions) ∧
      (HonoursLag lag decisions ↔ lag ≤ spacing ∨ limit = 1 ∨
        ((us ≤ 1 ∨ (india - 1) * spacing < lag) ∧ (india ≤ 1 ∨ (us - 1) * spacing < lag))) := by
  have hcourse := course_finish india us hlimit hlag hspacing
  rw [simulateMultiRegionLimit, if_neg (not_le.2 hlimit), if_neg (not_lt.2 hlag)]
  refine ⟨_, _, rfl, (hcourse.honoursLag_iff hlag hspacing).trans ⟨fun hnever => ?_, ?_⟩⟩
  · by_contra hnot
    simp only [not_or, not_and_or, not_le, not_lt] at hnot
    obtain ⟨hlong, hone, hindia | hus⟩ := hnot
    · obtain ⟨d, hd, x, hx, hacc, hearly⟩ := hcourse.exists_hearsEarly (r := .india) hspacing hlong
        (by omega) hindia.1 hindia.2
      exact hnever d hd x hx hacc hearly
    · obtain ⟨d, hd, x, hx, hacc, hearly⟩ := hcourse.exists_hearsEarly (r := .us) hspacing hlong
        (by omega) hus.1 hus.2
      exact hnever d hd x hx hacc hearly
  · intro hwhen d hd x hx hacc
    refine hcourse.not_hearsEarly hspacing (hwhen.imp_right (Or.imp_right fun hfew r => ?_)) hd hx
      hacc
    cases r with
    | india => exact hfew.1
    | us => exact hfew.2

/-- With a lag of two spacings it is not, as soon as both regions have three requests. -/
theorem honours_lag_iff_sample :
    ∃ summary decisions, simulateMultiRegionLimit 10 40 3 3 20 = .ok (summary, decisions) ∧
      ¬HonoursLag 40 decisions := by
  obtain ⟨summary, decisions, hrun, hiff⟩ :=
    honours_lag_iff 10 40 3 3 20 (by decide) (by decide) (by decide)
  exact ⟨summary, decisions, hrun, fun h => absurd (hiff.1 h) (by decide)⟩

/-- Two milliseconds into the run India has heard of two acceptances, one of them a millisecond old,
under a lag of two. -/
theorem lag_not_honoured :
    ∃ summary decisions, simulateMultiRegionLimit 2 2 3 2 1 = .ok (summary, decisions) ∧
      ¬HonoursLag 2 decisions := by
  have hdecisions : (finish 2 2 (allRequests 3 2 1)).state.decisions =
      [⟨.india, .request, 0, true, 0, 0, 0⟩, ⟨.us, .request, 0, true, 0, 1, 0⟩,
        ⟨.india, .request, 1, true, 1, 2, 0⟩, ⟨.us, .request, 1, true, 1, 3, 0⟩,
        ⟨.india, .request, 2, false, 4, 4, 2⟩] := by decide
  refine ⟨_, _, rfl, fun h => ?_⟩
  have hlast := h (finish 2 2 (allRequests 3 2 1)).state.decisions.dropLast _ [] (by
    rw [hdecisions]; rfl)
  rw [hdecisions] at hlast
  exact absurd hlast (by decide)

end RateLimiter.MultiRegion
