import RateLimiter.Lib.Quota.Window
import Mathlib.Algebra.Order.Field.Basic
import Mathlib.Algebra.Order.Floor.Ring
import Mathlib.Tactic.Positivity
import Mathlib.Tactic.Push

/-!
# The token bucket

A bucket of capacity `C` that gains `r` tokens per unit of time and gives one to each event it
admits.  Its state is the number of tokens at the last event, or `none` for a bucket no event has
touched yet, which is full.  Everything a bucket will do depends on its `level` only: two states
with the same level at `t` give the same verdict at `t` and the same state after it.

The quota is `Bounded`: no interval `[a, b]` holds more than `C + r * (b - a)` admissions.  What
carries it through a run is the account `Account`, by which the admissions since `a` and the tokens
still there are paid for by the capacity and the refill since `a`.
-/

set_option autoImplicit false
set_option linter.unusedSectionVars false

namespace Quota.Bucket

variable {K : Type*} [Field K] [LinearOrder K] [IsStrictOrderedRing K] [FloorRing K]

/-- Capacity and refill rate. The numbers may be of any ordered field, so that nothing here is about
rounding. -/
structure Params (K : Type*) [Field K] [LinearOrder K] where
  /-- How many tokens fit. -/
  capacity : K
  /-- Tokens gained per unit of time. -/
  rate : K
  /-- An empty bucket is not full. -/
  capacity_pos : 0 < capacity
  /-- The bucket does refill. -/
  rate_pos : 0 < rate

/-- The tokens at the time of the last event; a bucket that has seen none is full. -/
abbrev State (K : Type*) := Option (K × ℤ)

variable (P : Params K)

/-- The tokens that are there at `t`: those of the last event and what has come in since, never more
than the capacity. -/
def level (s : State K) (t : ℤ) : K :=
  match s with
  | none => P.capacity
  | some (tokens, last) => min P.capacity (tokens + ((t - last : ℤ) : K) * P.rate)

/-- When a bucket that holds `tokens` at `t` is full again. -/
def fullAt (tokens : K) (t : ℤ) : ℤ := t + ⌈(P.capacity - tokens) / P.rate⌉

/-- The rule: admit while there is a whole token, and take it. An event that is turned down takes
nothing, but moves the time. -/
def step (s : State K) (t : ℤ) : Verdict × State K :=
  let x := level P s t
  if 1 ≤ x then (⟨true, ⌊x - 1⌋, fullAt P (x - 1) t, 0⟩, some (x - 1, t))
  else (⟨false, ⌊x⌋, fullAt P x t, ⌈(1 - x) / P.rate⌉⟩, some (x, t))

/-- The token count is in range and no event lies in the future. -/
def WF (s : State K) (now : ℤ) : Prop :=
  ∀ tokens last, s = some (tokens, last) → 0 ≤ tokens ∧ tokens ≤ P.capacity ∧ last ≤ now

variable {P} {s s' : State K} {t now : ℤ} {h : List ℤ}

theorem step_of_le (hx : 1 ≤ level P s t) :
    step P s t = (⟨true, ⌊level P s t - 1⌋, fullAt P (level P s t - 1) t, 0⟩,
      some (level P s t - 1, t)) :=
  if_pos hx

theorem step_of_lt (hx : level P s t < 1) :
    step P s t = (⟨false, ⌊level P s t⌋, fullAt P (level P s t) t,
      ⌈(1 - level P s t) / P.rate⌉⟩, some (level P s t, t)) :=
  if_neg (not_le.2 hx)

theorem step_snd_time (s : State K) (t : ℤ) : (step P s t).2.map Prod.snd = some t := by
  rw [step]
  split <;> rfl

/-- **Only the level counts**: two buckets that hold as much at `t` cannot be told apart from then
on. -/
theorem step_congr (hl : level P s t = level P s' t) : step P s t = step P s' t := by
  rw [step, step, hl]

theorem wf_none : WF P none now := fun _ _ h => by cases h

theorem WF.mono (hw : WF P s now) (hst : now ≤ t) : WF P s t := fun tokens last hs =>
  let ⟨h0, hc, hl⟩ := hw tokens last hs
  ⟨h0, hc, hl.trans hst⟩

theorem level_le_capacity (s : State K) (t : ℤ) : level P s t ≤ P.capacity := by
  cases s with
  | none => exact le_rfl
  | some p => exact min_le_left _ _

theorem WF.level_nonneg (hw : WF P s now) : 0 ≤ level P s now := by
  cases s with
  | none => exact P.capacity_pos.le
  | some p =>
    obtain ⟨tokens, last⟩ := p
    obtain ⟨h0, -, hl⟩ := hw tokens last rfl
    have hd : (0 : K) ≤ ((now - last : ℤ) : K) := by exact_mod_cast sub_nonneg.2 hl
    exact le_min P.capacity_pos.le (add_nonneg h0 (mul_nonneg hd P.rate_pos.le))

/-- The level just after an event is what the event left. -/
theorem level_self {tokens : K} (hc : tokens ≤ P.capacity) :
    level P (some (tokens, t)) t = tokens := by
  simp [level, hc]

/-- The level at a later time, from the level now. -/
theorem level_later (s : State K) (hst : now ≤ t) :
    level P s t = min P.capacity (level P s now + ((t - now : ℤ) : K) * P.rate) := by
  have hd : (0 : K) ≤ ((t - now : ℤ) : K) * P.rate :=
    mul_nonneg (by exact_mod_cast sub_nonneg.2 hst) P.rate_pos.le
  cases s with
  | none => rw [level, level, min_eq_left (le_add_of_nonneg_right hd)]
  | some p =>
    obtain ⟨tokens, last⟩ := p
    rw [level, level, min_add, ← min_assoc, min_eq_left (le_add_of_nonneg_right hd)]
    congr 1
    push_cast
    ring

/-- Buckets that are level now stay level. -/
theorem level_congr (hl : level P s now = level P s' now) (hst : now ≤ t) :
    level P s t = level P s' t := by
  rw [level_later s hst, level_later s' hst, hl]

/-- After the time the refill takes, the bucket is full. -/
theorem level_eq_capacity {tokens : K} {last : ℤ}
    (ht : (P.capacity - tokens) / P.rate ≤ ((t - last : ℤ) : K)) :
    level P (some (tokens, last)) t = P.capacity := by
  refine min_eq_left ?_
  have := (div_le_iff₀ P.rate_pos).1 ht
  linarith

theorem WF.step (hw : WF P s now) (hst : now ≤ t) : WF P (Bucket.step P s t).2 t := by
  have hw' := hw.mono hst
  have hcap := level_le_capacity (P := P) s t
  rcases le_or_gt 1 (level P s t) with hx | hx
  · rw [step_of_le hx]
    rintro tokens last hs
    cases hs
    exact ⟨by linarith, by linarith, le_rfl⟩
  · rw [step_of_lt hx]
    rintro tokens last hs
    cases hs
    exact ⟨hw'.level_nonneg, hcap, le_rfl⟩

/-- The level an event leaves: one token less if it was admitted. -/
theorem level_step (s : State K) (t : ℤ) :
    level P (step P s t).2 t = level P s t - if (step P s t).1.allowed then 1 else 0 := by
  have hcap := level_le_capacity (P := P) s t
  rcases le_or_gt 1 (level P s t) with hx | hx
  · rw [step_of_le hx, level_self (by linarith)]
    simp
  · rw [step_of_lt hx, level_self hcap]
    simp

/-! ## The quota -/

/-- No interval `[a, b]` holds more than the capacity and the refill of its length. -/
def Bounded (P : Params K) (h : List ℤ) : Prop :=
  ∀ a b : ℤ, a ≤ b → (countIcc h a b : K) ≤ P.capacity + ((b - a : ℤ) : K) * P.rate

theorem bounded_nil : Bounded P [] := fun a b hab => by
  have : (0 : K) ≤ ((b - a : ℤ) : K) * P.rate :=
    mul_nonneg (by exact_mod_cast sub_nonneg.2 hab) P.rate_pos.le
  simpa [countIcc] using add_nonneg P.capacity_pos.le this

theorem Bounded.mono {g : List ℤ} (hb : Bounded P h) (hs : g.Subperm h) : Bounded P g :=
  fun a b hab => le_trans (by exact_mod_cast countIcc_mono hs a b) (hb a b hab)

/-- The account of a bucket whose admissions so far are `h`: from any moment on, no more tokens were
taken than were there and have come in. -/
structure Account (P : Params K) (h : List ℤ) (s : State K) (now : ℤ) : Prop where
  /-- The state is in range. -/
  wf : WF P s now
  /-- Admissions lie in the past. -/
  past : ∀ a ∈ h, a ≤ now
  /-- Admissions since `a` and tokens left are paid for by capacity and refill. -/
  paid : ∀ a ≤ now,
    (h.countP (a ≤ ·) : K) + level P s now ≤ P.capacity + ((now - a : ℤ) : K) * P.rate
  bounded : Bounded P h

theorem account_nil (now : ℤ) : Account P [] none now where
  wf := wf_none
  past := fun _ h => by cases h
  paid a ha := by
    have : (0 : K) ≤ ((now - a : ℤ) : K) * P.rate :=
      mul_nonneg (by exact_mod_cast sub_nonneg.2 ha) P.rate_pos.le
    simpa [level] using this
  bounded := bounded_nil

/-- Time passing keeps the account: the refill pays for the tokens it adds. -/
theorem Account.later (ha : Account P h s now) (hst : now ≤ t) : Account P h s t where
  wf := ha.wf.mono hst
  past a hm := (ha.past a hm).trans hst
  bounded := ha.bounded
  paid a hat := by
    rcases le_or_gt a now with hle | hlt
    · have hl : level P s t ≤ level P s now + ((t - now : ℤ) : K) * P.rate := by
        rw [level_later s hst]
        exact min_le_right _ _
      have hp := ha.paid a hle
      push_cast at hl hp ⊢
      linarith
    · have hz : h.countP (a ≤ ·) = 0 := by
        rw [List.countP_eq_zero]
        intro x hx
        simpa using lt_of_le_of_lt (ha.past x hx) hlt
      have hd : (0 : K) ≤ ((t - a : ℤ) : K) * P.rate :=
        mul_nonneg (by exact_mod_cast sub_nonneg.2 hat) P.rate_pos.le
      have hc := level_le_capacity (P := P) s t
      rw [hz, Nat.cast_zero]
      linarith

/-- **The rule keeps the account**, and with it the quota: what is admitted is paid for by capacity
and refill. -/
theorem Account.step (ha : Account P h s now) (hst : now ≤ t) :
    Account P (if (Bucket.step P s t).1.allowed then h ++ [t] else h) (Bucket.step P s t).2 t := by
  have hl := ha.later hst
  have hlev := level_step (P := P) s t
  rcases le_or_gt 1 (level P s t) with hx | hx
  · have hall : (Bucket.step P s t).1.allowed = true := by rw [step_of_le hx]
    rw [hall, if_pos rfl] at hlev
    rw [if_pos hall]
    have hcount : ∀ a ≤ t, (((h ++ [t]).countP (a ≤ ·) : ℕ) : K) = h.countP (a ≤ ·) + 1 := by
      intro a hat
      simp [List.countP_append, hat]
    refine ⟨ha.wf.step hst, forall_le_concat hl.past, ?_, ?_⟩
    · intro a hat
      have hp := hl.paid a hat
      rw [hcount a hat, hlev]
      linarith
    · intro a b hab
      rw [countIcc_append]
      by_cases hc : a ≤ t ∧ t ≤ b
      · have hp := hl.paid a hc.1
        have hle : (countIcc h a b : K) ≤ h.countP (a ≤ ·) := by
          refine Nat.cast_le.2 (List.countP_mono_left fun x _ hx => ?_)
          simp only [decide_eq_true_eq] at hx ⊢
          exact hx.1
        have htb : ((t - a : ℤ) : K) * P.rate ≤ ((b - a : ℤ) : K) * P.rate :=
          mul_le_mul_of_nonneg_right (by exact_mod_cast sub_le_sub_right hc.2 a) P.rate_pos.le
        rw [if_pos hc]
        push_cast at *
        linarith
      · rw [if_neg hc]
        simpa using hl.bounded a b hab
  · have hall : (Bucket.step P s t).1.allowed = false := by rw [step_of_lt hx]
    rw [hall] at hlev ⊢
    simp only [Bool.false_eq_true, if_false, sub_zero] at hlev ⊢
    refine ⟨ha.wf.step hst, hl.past, fun a hat => ?_, hl.bounded⟩
    rw [hlev]
    exact hl.paid a hat

end Quota.Bucket
