import RateLimiter.Lib.Counting
import RateLimiter.MultiRegion.Delivery

/-!
# More lag, more acceptances

Two runs with the same requests decide them in the same order.  If the run with less lag accepts a
request, it has accepted every earlier one that its region knows of, so the region knows no less of
the requests than in the other run, where it accepts too.

* `Delivers.accepted_of_counts`: what an acceptance says about the decisions before it;
* `countP_accepted_le`: the coupling, decision by decision.
-/

set_option autoImplicit false

namespace RateLimiter.MultiRegion

open Counting

section Order

variable {limit lag : ℤ} {pre post : List RegionalDecision} {d x : RegionalDecision}

/-- A decision counts for a later one: it is the region's own, or the region has heard of it. -/
def RegionalDecision.Counts (lag : ℤ) (d x : RegionalDecision) : Prop :=
  x.region = d.region ∨ d.Hears lag x

theorem own_append_le (l l' : List RegionalDecision) (d : RegionalDecision) :
    own l d ≤ own (l ++ l') d :=
  (List.sublist_append_left l l').countP_le

/-- What counts for a decision has counted, with all it went by, for an earlier decision that
counts for it. -/
theorem own_add_heard_le {before : List RegionalDecision} (mid : List RegionalDecision)
    (hbefore : ∀ y ∈ before, y.timeMs ≤ x.timeMs) (htime : x.timeMs ≤ d.timeMs)
    (h : d.Counts lag x) :
    own before x + heard lag before x ≤
      own (before ++ x :: mid) d + heard lag (before ++ x :: mid) d := by
  have hsub : before.Sublist (before ++ x :: mid) := List.sublist_append_left ..
  have hheard : heard lag before d ≤ heard lag (before ++ x :: mid) d := hsub.countP_le
  have hown : own before d ≤ own (before ++ x :: mid) d := own_append_le ..
  rcases h with hr | ⟨hr, hlag⟩
  · -- Of the same region: it has heard of no more than `d`.
    have heq : own before x = own before d := by
      simp only [own, hr]
    have hle : heard lag before x ≤ heard lag before d := by
      refine List.countP_mono_left fun y hy hyx => ?_
      rw [decide_eq_true_eq, RegionalDecision.Hears] at hyx ⊢
      obtain ⟨⟨hyr, hlag⟩, hacc⟩ := hyx
      refine ⟨⟨hr ▸ hyr, hlag.imp_right fun hlag => ?_⟩, hacc⟩
      exact ⟨hlag.1.trans htime, hlag.2.trans_le htime⟩
    omega
  · -- Of the other region: `d` has heard of what it has accepted, and has accepted what it has
    -- heard of.
    have hle : own before x ≤ heard lag before d := by
      refine List.countP_mono_left fun y hy hyx => ?_
      rw [decide_eq_true_eq] at hyx ⊢
      refine ⟨⟨hyx.1.trans hr, hlag.imp_right fun hlag => ?_⟩, hyx.2⟩
      exact ⟨hlag.1, (hbefore y hy).trans_lt hlag.2⟩
    have hle' : heard lag before x ≤ own before d := by
      refine List.countP_mono_left fun y _ hyx => ?_
      rw [decide_eq_true_eq, RegionalDecision.Hears, hr, RegionName.other_other] at hyx
      exact decide_eq_true ⟨hyx.1.1, hyx.2⟩
    omega

/-- **What counts for an acceptance is accepted**: a decision goes by the numbers its region has,
and by nothing else. -/
theorem Delivers.accepted_of_counts {decisions : List RegionalDecision}
    (h : Delivers limit lag decisions)
    (hordered : decisions.Pairwise fun d d' => d.timeMs ≤ d'.timeMs)
    (hsplit : decisions = pre ++ d :: post) (hacc : d.accepted = true) (hx : x ∈ pre)
    (hcounts : d.Counts lag x) : x.accepted = true := by
  obtain ⟨before, mid, rfl⟩ := List.append_of_mem hx
  obtain ⟨-, hd⟩ := h _ d post hsplit
  obtain ⟨-, hxacc⟩ := h before x (mid ++ d :: post) (by simp [hsplit])
  rw [hsplit, List.append_assoc, List.cons_append, List.pairwise_append, List.pairwise_cons]
    at hordered
  have hle := own_add_heard_le mid (fun y hy => hordered.2.2 y hy x List.mem_cons_self)
    (hordered.2.1.1 d (by simp)) hcounts
  have hlt := hd.1 hacc
  exact hxacc.2 (by omega)

end Order

/-! ## Two runs -/

section Coupling

variable {limit lag₁ lag₂ : ℤ} {decisions₁ decisions₂ : List RegionalDecision}

theorem Delivers.of_append {lag : ℤ} {decisions more : List RegionalDecision}
    (h : Delivers limit lag (decisions ++ more)) : Delivers limit lag decisions :=
  fun pre d post hsplit => h pre d (post ++ more) (by simp [hsplit])

theorem RegionalDecision.Hears.of_le {d₁ d₂ x₁ x₂ : RegionalDecision} (h : d₂.Hears lag₂ x₂)
    (hlag : 0 ≤ lag₁) (hle : lag₁ ≤ lag₂) (hd : d₁.request = d₂.request)
    (hx : x₁.request = x₂.request) : d₁.Hears lag₁ x₁ := by
  simp only [RegionalDecision.request, Event.mk.injEq] at hd hx
  obtain ⟨hr, hvisible⟩ := h
  refine ⟨by rw [hx.2.2.2, hd.2.2.2, hr], ?_⟩
  rw [hx.1, hd.1]
  rcases hvisible with hzero | ⟨hdue, hbefore⟩
  · exact Or.inl (by omega)
  · exact Or.inr ⟨hle.trans hdue, hbefore⟩

/-- One decision: what the run with less lag accepts, the other one accepts. -/
theorem accepted_of_accepted {d₁ d₂ : RegionalDecision} (hlag : 0 ≤ lag₁) (hle : lag₁ ≤ lag₂)
    (h₁ : Delivers limit lag₁ (decisions₁ ++ [d₁])) (h₂ : Delivers limit lag₂ (decisions₂ ++ [d₂]))
    (hordered : (decisions₁ ++ [d₁]).Pairwise fun d d' => d.timeMs ≤ d'.timeMs)
    (heq : decisions₁.map RegionalDecision.request = decisions₂.map RegionalDecision.request)
    (hd : d₁.request = d₂.request) (hacc : d₁.accepted = true) : d₂.accepted = true := by
  have hall : ∀ x ∈ decisions₁, d₁.Counts lag₁ x → x.accepted = true :=
    fun x hx => h₁.accepted_of_counts hordered rfl hacc hx
  have hregion : d₁.region = d₂.region := congrArg Event.region hd
  have hown : own decisions₂ d₂ ≤ own decisions₁ d₁ := by
    refine countP_le_of_map_eq heq fun x hx y _ hxy hy => ?_
    rw [decide_eq_true_eq] at hy ⊢
    have hr : x.region = d₁.region := by
      rw [hregion, ← hy.1]
      exact congrArg Event.region hxy
    exact ⟨hr, hall x hx (Or.inl hr)⟩
  have hheard : heard lag₂ decisions₂ d₂ ≤ heard lag₁ decisions₁ d₁ := by
    refine countP_le_of_map_eq heq fun x hx y _ hxy hy => ?_
    rw [decide_eq_true_eq] at hy ⊢
    have hears := hy.1.of_le hlag hle hd hxy
    exact ⟨hears, hall x hx (Or.inr hears)⟩
  have hlt := (h₁ decisions₁ d₁ [] rfl).2.1 hacc
  exact (h₂ decisions₂ d₂ [] rfl).2.2 (by omega)

/-- **The coupling.** Of the same requests, the run with more lag has accepted no fewer. -/
theorem countP_accepted_le (hlag : 0 ≤ lag₁) (hle : lag₁ ≤ lag₂)
    (h₁ : Delivers limit lag₁ decisions₁) (h₂ : Delivers limit lag₂ decisions₂)
    (hordered : decisions₁.Pairwise fun d d' => d.timeMs ≤ d'.timeMs)
    (heq : decisions₁.map RegionalDecision.request = decisions₂.map RegionalDecision.request) :
    decisions₁.countP (·.accepted) ≤ decisions₂.countP (·.accepted) := by
  induction decisions₁ using List.reverseRecOn generalizing decisions₂ with
  | nil => exact Nat.zero_le _
  | append_singleton decisions₁ d₁ ih =>
    rw [List.map_append] at heq
    obtain ⟨decisions₂, last, rfl, hinit, hlast⟩ := List.map_eq_append_iff.1 heq.symm
    obtain ⟨d₂, rfl, hd⟩ := List.map_eq_singleton_iff.1 hlast
    have hrest := ih h₁.of_append h₂.of_append (List.pairwise_append.1 hordered).1 hinit.symm
    rw [List.countP_append, List.countP_append, List.countP_singleton, List.countP_singleton]
    refine Nat.add_le_add hrest ?_
    by_cases hacc : d₁.accepted = true
    · rw [if_pos hacc,
        if_pos (accepted_of_accepted hlag hle h₁ h₂ hordered hinit.symm hd.symm hacc)]
    · rw [if_neg hacc]
      exact Nat.zero_le _

end Coupling

/-- **More lag never reduces oversubscription**, if the limit and the requests are the same. -/
theorem oversubscription_mono (limit lag₁ lag₂ india us spacing : ℤ) (hlimit : 0 < limit)
    (hlag : 0 ≤ lag₁) (hle : lag₁ ≤ lag₂) (hspacing : 0 ≤ spacing) :
    ∃ summary₁ decisions₁ summary₂ decisions₂,
      simulateMultiRegionLimit limit lag₁ india us spacing = .ok (summary₁, decisions₁) ∧
      simulateMultiRegionLimit limit lag₂ india us spacing = .ok (summary₂, decisions₂) ∧
      summary₁.totalAllowed ≤ summary₂.totalAllowed ∧
      summary₁.oversubscription ≤ summary₂.oversubscription := by
  have hlag₂ := hlag.trans hle
  have hl₁ := (confined_finish india us spacing hlimit hlag).1
  have hl₂ := (confined_finish india us spacing hlimit hlag₂).1
  have hcount := countP_accepted_le hlag hle (delivers_finish india us hlimit hlag hspacing)
    (delivers_finish india us hlimit hlag₂ hspacing) hl₁.ordered
    ((map_request_decisions india us spacing hlimit hlag).trans
      (map_request_decisions india us spacing hlimit hlag₂).symm)
  have htotal := hl₁.allowed.trans_le ((Int.ofNat_le.2 hcount).trans_eq hl₂.allowed.symm)
  rw [simulateMultiRegionLimit, simulateMultiRegionLimit, if_neg (not_le.2 hlimit),
    if_neg (not_lt.2 hlag), if_neg (not_le.2 hlimit), if_neg (not_lt.2 hlag₂)]
  exact ⟨_, _, _, _, rfl, rfl, htotal, max_le_max le_rfl (Int.sub_le_sub_right htotal limit)⟩

/-- Twelve requests under a limit of four, with a lag of two and of five spacings. -/
theorem oversubscription_mono_sample :
    ∃ summary₁ decisions₁ summary₂ decisions₂,
      simulateMultiRegionLimit 4 20 6 6 10 = .ok (summary₁, decisions₁) ∧
      simulateMultiRegionLimit 4 50 6 6 10 = .ok (summary₂, decisions₂) ∧
      summary₁.totalAllowed ≤ summary₂.totalAllowed ∧
      summary₁.oversubscription ≤ summary₂.oversubscription :=
  oversubscription_mono 4 20 50 6 6 10 (by decide) (by decide) (by decide) (by decide)

end RateLimiter.MultiRegion
