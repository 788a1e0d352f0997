import RateLimiter.Lib.Timed
import Mathlib.Algebra.Order.Field.Basic
import Mathlib.Order.Bounds.Basic
import Mathlib.Tactic.Linarith
import Mathlib.Tactic.Ring

/-!
# The levels of a bucket

A bucket of capacity `C` is looked at again and again: `x n` is its level at the `n`-th look,
`earned n` what had flowed in by then, over the rim or not, and `spent n` what had been taken out.
What does not fit is lost, so the level is the least of what is left of a full bucket at any earlier
look (`Levels.isLeast`).  Nothing is said about clocks: `earned` may be the refill of a clock that
stands still, runs, or jumps.
-/

set_option autoImplicit false
set_option linter.unusedSectionVars false

namespace Quota

variable {K : Type*} [Field K] [LinearOrder K] [IsStrictOrderedRing K]

/-- The levels of a bucket at the first `N` looks: each is the one before it without what was spent
and with what was earned, cut off at `C`. -/
structure Levels (C : K) (earned spent x : ℕ → K) (N : ℕ) : Prop where
  /-- The bucket starts full. -/
  start : 0 < N → x 0 = C
  /-- From one look to the next something is taken out, and then what flows in fills it up. -/
  next : ∀ n, n + 1 < N →
    x (n + 1) = min C (x n - (spent (n + 1) - spent n) + (earned (n + 1) - earned n))

/-- What would be left at look `n` if the bucket had been full at look `k`. -/
def leftSince (C : K) (earned spent : ℕ → K) (n k : ℕ) : K :=
  C + (earned n - earned k) - (spent n - spent k)

namespace Levels

variable {C : K} {earned spent x : ℕ → K} {N n : ℕ}

theorem leftSince_self (C : K) (earned spent : ℕ → K) (n : ℕ) :
    leftSince C earned spent n n = C := by
  rw [leftSince, sub_self, sub_self, add_zero, sub_zero]

/-- **The level is the least of what is left.**  By induction on the looks: what is left since an
earlier look changes by the same amount as the level, and a full bucket starts anew. -/
theorem isLeast (h : Levels C earned spent x N) (hn : n < N) :
    IsLeast {b | ∃ k ≤ n, b = leftSince C earned spent n k} (x n) := by
  induction n with
  | zero =>
    rw [h.start hn]
    refine ⟨⟨0, le_rfl, (leftSince_self C earned spent 0).symm⟩, ?_⟩
    rintro b ⟨k, hk, rfl⟩
    rw [Nat.le_zero.1 hk, leftSince_self]
  | succ n ih =>
    obtain ⟨⟨k₀, hk₀, hx⟩, hle⟩ := ih (by omega)
    have hstep : ∀ k, leftSince C earned spent (n + 1) k =
        leftSince C earned spent n k - (spent (n + 1) - spent n) +
          (earned (n + 1) - earned n) := fun k => by
      rw [leftSince, leftSince]
      ring
    rw [h.next n hn]
    constructor
    · rcases min_choice C (x n - (spent (n + 1) - spent n) + (earned (n + 1) - earned n))
        with hmin | hmin
      · exact ⟨n + 1, le_rfl, by rw [hmin, leftSince_self]⟩
      · exact ⟨k₀, by omega, by rw [hmin, hstep, ← hx]⟩
    · rintro b ⟨k, hk, rfl⟩
      rcases Nat.lt_or_ge n k with hnk | hkn
      · obtain rfl : k = n + 1 := by omega
        rw [leftSince_self]
        exact min_le_left _ _
      · have := hle ⟨k, hkn, rfl⟩
        refine (min_le_right _ _).trans ?_
        rw [hstep]
        linarith

/-- There are `b` in the bucket exactly if no earlier look leaves less. -/
theorem le_iff (h : Levels C earned spent x N) (hn : n < N) (b : K) :
    b ≤ x n ↔ ∀ k ≤ n, b + (spent n - spent k) ≤ C + (earned n - earned k) := by
  rw [le_isGLB_iff (h.isLeast hn).isGLB]
  constructor
  · intro hb k hk
    have := hb ⟨k, hk, rfl⟩
    rw [leftSince] at this
    linarith
  · rintro hb _ ⟨k, hk, rfl⟩
    have := hb k hk
    rw [leftSince]
    linarith

/-- If never more is taken out than there is, a stretch of looks takes out no more than a full
bucket and what flows in meanwhile. -/
theorem spent_le (h : Levels C earned spent x N)
    (hspent : ∀ n < N, spent (n + 1) - spent n ≤ x n) (hn : n < N) {k : ℕ} (hk : k ≤ n) :
    spent (n + 1) - spent k ≤ C + (earned n - earned k) := by
  have := (h.le_iff hn _).1 (hspent n hn) k hk
  linarith

end Levels

/-! ## The bucket of a machine

The machine answers every input after a look at its bucket, and takes one out where `taken` says
so.  `flow is` is what had flowed in when the last of the inputs `is` came. -/

section Run

open Timed

variable {σ ι ω : Type*} (f : σ → ι → ω × σ) (s : σ) (level : σ → ι → K) (taken : ω → Bool)
  (flow : List ι → K)

/-- The level the `n`-th input finds. -/
def levelAt (is : List ι) (n : ℕ) : K := is[n]?.elim 0 (level (final f s (is.take n)))

/-- How many have been taken out before the `n`-th input. -/
def takenBefore (is : List ι) (n : ℕ) : ℕ := ((outputs f s is).take n).countP taken

variable {f s level taken} {C : K} {is : List ι} {n : ℕ}

theorem levelAt_eq (hn : n < is.length) :
    levelAt f s level is n = level (final f s (is.take n)) is[n] := by
  rw [levelAt, List.getElem?_eq_getElem hn]
  rfl

theorem takenBefore_succ (hn : n < is.length) :
    takenBefore f s taken is (n + 1) = takenBefore f s taken is n +
      if taken (f (final f s (is.take n)) is[n]).1 then 1 else 0 := by
  have hout : (outputs f s is).take (n + 1) =
      (outputs f s is).take n ++ [(f (final f s (is.take n)) is[n]).1] := by
    rw [List.take_add_one, getElem?_outputs, List.getElem?_eq_getElem hn]
    rfl
  rw [takenBefore, takenBefore, hout, List.countP_append, List.countP_singleton]

/-- The levels of a machine that starts full and refills as `flow` says. -/
theorem levels_of_run (hstart : ∀ i, level s i = C)
    (hnext : ∀ before i j, level (final f s (before ++ [i])) j =
      min C (level (final f s before) i - (if taken (f (final f s before) i).1 then 1 else 0) +
        (flow (before ++ [i] ++ [j]) - flow (before ++ [i])))) (is : List ι) :
    Levels C (fun n => flow (is.take (n + 1))) (fun n => (takenBefore f s taken is n : K))
      (levelAt f s level is) is.length where
  start hn := by rw [levelAt_eq hn, List.take_zero]; exact hstart _
  next n hn := by
    have hn' : n < is.length := by omega
    rw [levelAt_eq hn, levelAt_eq hn', takenBefore_succ hn', List.take_succ_eq_append_getElem hn,
      List.take_succ_eq_append_getElem hn', hnext, Nat.cast_add, add_sub_cancel_left, Nat.cast_ite,
      Nat.cast_one, Nat.cast_zero]

end Run

end Quota
