import RateLimiter.Lib.Quota.Forgetful
import RateLimiter.Limiter.LocalServer

/-!
# Local fixed windows on a clock that crosses back

`apply_fixed_window` keeps one window.  A reading in another window replaces it, and when the clock
steps back into the first window its count has been forgotten: the local fixed window is a counter
that starts over (`Forgetful.admits`).  So a window holds no more admissions than the policy allows
exactly if the readings do not come back to it, or not more than that many fall in it
(`local_window_bounded_iff`).  `FIXED_WINDOW_LUA` keeps a counter for each window.
-/

set_option autoImplicit false

namespace RateLimiter

open Quota

/-- One call of `apply` at a reading, for one policy and identity. -/
def applyAt (stateTtlSeconds : ℤ) (policy : PolicyRead) (identity : RequestIdentity)
    (self : LocalFallbackLimiter) (t : ℤ) : LocalFallbackDecision × LocalFallbackLimiter :=
  self.apply .enforced stateTtlSeconds policy identity t

/-- The readings at which calls are admitted, of the calls at `ts`. -/
def admittedAt (stateTtlSeconds : ℤ) (policy : PolicyRead) (identity : RequestIdentity)
    (self : LocalFallbackLimiter) (ts : List ℤ) : List ℤ :=
  admittedOf (Timed.trace (applyAt stateTtlSeconds policy identity) self ts)

/-- Does `t` lie in the aligned window number `k`? -/
def inWindow (W k t : ℤ) : Bool := k * W ≤ t ∧ t < (k + 1) * W

section Slot

variable {policy : PolicyRead} {identity : RequestIdentity} {stateTtlSeconds t k : ℤ}
  {self : LocalFallbackLimiter}

theorem inWindow_iff {W : ℤ} (hW : 0 < W) :
    inWindow W k t = true ↔ FixedWindow.start W t = k * W := by
  rw [inWindow, decide_eq_true_eq]
  constructor
  · rintro ⟨h1, h2⟩
    exact FixedWindow.start_of_mem hW h1 h2
  · intro h
    rw [add_mul, one_mul, ← h]
    exact ⟨FixedWindow.start_le hW t, FixedWindow.lt_start_add hW t⟩

/-- What is counted for window `k` under the key: zero if the state is of another window, as the
next call in window `k` would see it. -/
def countFor (policy : PolicyRead) (identity : RequestIdentity) (k : ℤ)
    (self : LocalFallbackLimiter) : ℤ :=
  windowCount policy.windowMs (k * policy.windowMs)
    ((self.fixedWindows (buildRateLimitKey policy identity)).map (·.value))

/-- A window is stored at least until it ends, so that eviction never resets a count that still
matters. -/
def StoredToEnd (policy : PolicyRead) (identity : RequestIdentity) (self : LocalFallbackLimiter) :
    Prop :=
  ∀ e ∈ self.fixedWindows (buildRateLimitKey policy identity),
    e.value.windowStartMs + policy.windowMs ≤ e.expiresAtMs

theorem start_mul (W k : ℤ) (hW : 0 < W) : FixedWindow.start W (k * W) = k * W :=
  FixedWindow.start_of_mem hW le_rfl (by linarith [add_mul k 1 W])

/-- Eviction takes nothing from the window of the reading. -/
theorem windowCount_evict (hs : StoredToEnd policy identity self) (t : ℤ) :
    windowCount policy.windowMs t (((self.evictExpired .enforced t).fixedWindows
      (buildRateLimitKey policy identity)).map (·.value)) =
    windowCount policy.windowMs t
      ((self.fixedWindows (buildRateLimitKey policy identity)).map (·.value)) := by
  rcases self.fixedWindows.evict_eq_or .enforced t (buildRateLimitKey policy identity) with
    he | ⟨he, -, hgone⟩
  · exact congrArg (fun st => windowCount policy.windowMs t (Option.map _ st)) he
  · have hnone : (self.evictExpired .enforced t).fixedWindows (buildRateLimitKey policy identity) =
      none := he
    rw [hnone]
    cases hk : self.fixedWindows (buildRateLimitKey policy identity) with
    | none => rfl
    | some e =>
      have h1 := hs e hk
      have h2 := hgone e hk
      have h3 := FixedWindow.lt_start_add policy.windowMs_pos t
      have hne : e.value.windowStartMs ≠ FixedWindow.start policy.windowMs t := by omega
      simp [windowCount, hne]

/-- The decision and what is stored, from the count of the window of the reading. -/
theorem applyAt_fixedWindow (stateTtlSeconds : ℤ) (ha : policy.algorithm = .fixedWindow)
    (hs : StoredToEnd policy identity self) {n : ℤ} (hn : windowCount policy.windowMs t
      ((self.fixedWindows (buildRateLimitKey policy identity)).map (·.value)) = n) :
    let out := applyAt stateTtlSeconds policy identity self t
    out.1.allowed = decide (n < policy.rate) ∧
      out.2.fixedWindows (buildRateLimitKey policy identity) =
        some ⟨⟨FixedWindow.start policy.windowMs t, if n < policy.rate then n + 1 else n⟩,
          max (FixedWindow.start policy.windowMs t + policy.windowMs)
            (t + max 1 stateTtlSeconds * 1000)⟩ := by
  intro out
  have hout : out = (self.evictExpired .enforced t).applyFixedWindow (max 1 stateTtlSeconds * 1000)
      policy.toPolicyBase (buildRateLimitKey policy identity) t := by
    simp only [out, applyAt, LocalFallbackLimiter.apply, ha]
  obtain ⟨hstate, hallowed, hreset⟩ := applyFixedWindow_count ((windowCount_evict hs t).trans hn)
  rw [hout]
  refine ⟨hallowed, ?_⟩
  simp only [LocalFallbackLimiter.applyFixedWindow, Function.update_self]
  rw [hstate, hreset]

theorem countFor_of_stored {w n e : ℤ}
    (h : self.fixedWindows (buildRateLimitKey policy identity) = some ⟨⟨w, n⟩, e⟩) (k : ℤ) :
    countFor policy identity k self = if w = k * policy.windowMs then n else 0 := by
  rw [countFor, h, Option.map_some, windowCount, start_mul _ _ policy.windowMs_pos]
  by_cases hw : w = k * policy.windowMs <;> simp [hw]

theorem countFor_eq (hin : inWindow policy.windowMs k t = true) :
    windowCount policy.windowMs t
        ((self.fixedWindows (buildRateLimitKey policy identity)).map (·.value)) =
      countFor policy identity k self := by
  have hstart := (inWindow_iff policy.windowMs_pos).1 hin
  simp only [countFor, windowCount, hstart, start_mul _ _ policy.windowMs_pos]

theorem StoredToEnd.applyAt (stateTtlSeconds : ℤ) (ha : policy.algorithm = .fixedWindow)
    (hs : StoredToEnd policy identity self) (t : ℤ) :
    StoredToEnd policy identity (applyAt stateTtlSeconds policy identity self t).2 := by
  intro e he
  rw [(applyAt_fixedWindow stateTtlSeconds ha hs rfl).2] at he
  rw [← Option.mem_some_iff.1 he]
  exact le_max_left _ _

theorem admittedAt_cons (t : ℤ) (ts : List ℤ) :
    admittedAt stateTtlSeconds policy identity self (t :: ts) =
      (if (applyAt stateTtlSeconds policy identity self t).1.allowed then [t] else []) ++
        admittedAt stateTtlSeconds policy identity
          (applyAt stateTtlSeconds policy identity self t).2 ts := by
  show admittedOf ((t, (applyAt stateTtlSeconds policy identity self t).1) :: _) = _
  rw [admittedOf, List.filter_cons]
  split <;> rfl

/-- **The window is a counter that starts over** whenever a reading lies outside it, and whether
time goes forward or back does not matter. -/
theorem countP_admittedAt (stateTtlSeconds : ℤ) (identity : RequestIdentity)
    (ha : policy.algorithm = .fixedWindow) (k : ℤ) (ts : List ℤ) :
    ∀ self : LocalFallbackLimiter, StoredToEnd policy identity self →
      ((admittedAt stateTtlSeconds policy identity self ts).countP
          (inWindow policy.windowMs k) : ℤ) =
        Forgetful.admits (inWindow policy.windowMs k) policy.rate (countFor policy identity k self)
          ts := by
  induction ts with
  | nil => exact fun _ _ => rfl
  | cons t ts ih =>
    intro self hs
    have htail := ih _ (hs.applyAt stateTtlSeconds ha t)
    rw [admittedAt_cons, List.countP_append, Nat.cast_add, htail, Forgetful.admits]
    by_cases hin : inWindow policy.windowMs k t = true
    · obtain ⟨hallowed, hslot⟩ := applyAt_fixedWindow stateTtlSeconds ha hs (countFor_eq hin)
      rw [countFor_of_stored hslot, if_pos ((inWindow_iff policy.windowMs_pos).1 hin), hallowed,
        if_pos hin]
      by_cases hroom : countFor policy identity k self < policy.rate
      · simp [hroom, hin, add_comm]
      · simp [hroom]
    · obtain ⟨-, hslot⟩ := applyAt_fixedWindow stateTtlSeconds ha hs rfl
      rw [countFor_of_stored hslot, if_neg fun h => hin ((inWindow_iff policy.windowMs_pos).2 h),
        if_neg hin]
      split <;> simp [hin]

end Slot

/-- **When local fixed windows survive clock steps**: exactly if each window is not come back to
once the clock has left it, or has no more calls than the policy allows. -/
theorem local_window_bounded_iff (stateTtlSeconds : ℤ) (policy : PolicyRead)
    (identity : RequestIdentity) (ts : List ℤ) (ha : policy.algorithm = .fixedWindow) :
    FixedWindow.Bounded policy.rate policy.windowMs
        (admittedAt stateTtlSeconds policy identity .empty ts) ↔
      ∀ k : ℤ, (ts.countP (inWindow policy.windowMs k) : ℤ) ≤ policy.rate ∨
        Forgetful.Unbroken (inWindow policy.windowMs k) ts := by
  refine forall_congr' fun k => ?_
  have hcount := countP_admittedAt stateTtlSeconds identity ha k ts .empty fun e he => by cases he
  rw [← Forgetful.admits_le_iff policy.rate_pos,
    ← show countFor policy identity k .empty = 0 from rfl, ← hcount]
  rfl

/-- Two calls do no harm, although the clock steps back into another window between them. -/
theorem local_window_bounded_iff_sample :
    FixedWindow.Bounded 2 60000
      (admittedAt 120 (.sample .fixedWindow 1) .sample .empty [61000, 59000]) :=
  (local_window_bounded_iff 120 (.sample .fixedWindow 1) .sample _ rfl).2 fun _ =>
    Or.inl (Int.ofNat_le.2 List.countP_le_length)

/-- Two requests a minute are allowed.  The clock steps back by three seconds, out of the window,
and a third request is admitted in it. -/
theorem local_window_crossed_sample :
    ¬FixedWindow.Bounded 2 60000
      (admittedAt 120 (.sample .fixedWindow 1) .sample .empty [61000, 62000, 59000, 61000]) := by
  have hadmitted : admittedAt 120 (.sample .fixedWindow 1) .sample .empty
      [61000, 62000, 59000, 61000] = [61000, 62000, 59000, 61000] := by decide +kernel
  rw [hadmitted]
  exact fun hb => absurd (hb 1) (by decide)

end RateLimiter
