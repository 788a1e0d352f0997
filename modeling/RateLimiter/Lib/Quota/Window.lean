import Mathlib.Algebra.Order.Group.Int
import Mathlib.Data.List.Sort
import Mathlib.Tactic.Linarith
import Mathlib.Tactic.Ring

/-!
# Window quotas

What a window limiter is for: over a window of length `W` it admits at most `limit` events.  The
limiters here are ideal ones.  They keep the whole list of their admissions, oldest first, and
decide by counting in it, so that each rule is one line and the quota is an induction on that rule:

* `FixedWindow` counts in the aligned window `[k * W, (k + 1) * W)` the event falls in;
* `SlidingLog` counts in the window of length `W` that ends at the event.

A real limiter keeps less, a counter or a pruned log; it is correct when it gives the verdicts of
the ideal one.
-/

set_option autoImplicit false

namespace Quota

/-- What a limiter says to an event: whether it is admitted, how many more are, and when to come
back. -/
structure Verdict where
  /-- Is the event admitted? -/
  allowed : Bool
  /-- How many more would be admitted now. -/
  remaining : ℤ
  /-- When the quota resets. -/
  resetAt : ℤ
  /-- How long to wait. -/
  retryAfter : ℤ
  deriving DecidableEq, Repr

/-! ## Counting admissions -/

/-- The events of `h` in `[a, b)`. -/
def countIco (h : List ℤ) (a b : ℤ) : ℕ := h.countP fun s => a ≤ s ∧ s < b

/-- The events of `h` in `(a, b]`. -/
def countIoc (h : List ℤ) (a b : ℤ) : ℕ := h.countP fun s => a < s ∧ s ≤ b

/-- The events of `h` in `[a, b]`. -/
def countIcc (h : List ℤ) (a b : ℤ) : ℕ := h.countP fun s => a ≤ s ∧ s ≤ b

theorem countIco_append (h : List ℤ) (t a b : ℤ) :
    countIco (h ++ [t]) a b = countIco h a b + if a ≤ t ∧ t < b then 1 else 0 := by
  simp [countIco, List.countP_append, List.countP_singleton]

theorem countIoc_append (h : List ℤ) (t a b : ℤ) :
    countIoc (h ++ [t]) a b = countIoc h a b + if a < t ∧ t ≤ b then 1 else 0 := by
  simp [countIoc, List.countP_append, List.countP_singleton]

theorem countIcc_append (h : List ℤ) (t a b : ℤ) :
    countIcc (h ++ [t]) a b = countIcc h a b + if a ≤ t ∧ t ≤ b then 1 else 0 := by
  simp [countIcc, List.countP_append, List.countP_singleton]

/-- An admission at `t` leaves the admissions in the past. -/
theorem forall_le_concat {h : List ℤ} {t : ℤ} (hpast : ∀ s ∈ h, s ≤ t) : ∀ s ∈ h ++ [t], s ≤ t := by
  intro s hs
  rcases List.mem_append.1 hs with hs | hs
  · exact hpast s hs
  · exact (List.mem_singleton.1 hs).le

theorem countIco_mono {g h : List ℤ} (hs : g.Subperm h) (a b : ℤ) :
    countIco g a b ≤ countIco h a b := hs.countP_le _

theorem countIoc_mono {g h : List ℤ} (hs : g.Subperm h) (a b : ℤ) :
    countIoc g a b ≤ countIoc h a b := hs.countP_le _

theorem countIcc_mono {g h : List ℤ} (hs : g.Subperm h) (a b : ℤ) :
    countIcc g a b ≤ countIcc h a b := hs.countP_le _

/-! ## Fixed windows -/

namespace FixedWindow

variable {limit W : ℤ} {h : List ℤ} {t now : ℤ}

/-- The start of the aligned window `t` lies in. -/
def start (W t : ℤ) : ℤ := t - t % W

theorem start_eq (W t : ℤ) : start W t = t / W * W := by
  rw [start]
  linarith [Int.mul_ediv_add_emod t W, mul_comm W (t / W)]

theorem start_le (hW : 0 < W) (t : ℤ) : start W t ≤ t := by
  have := Int.emod_nonneg t hW.ne'
  rw [start]
  omega

theorem lt_start_add (hW : 0 < W) (t : ℤ) : t < start W t + W := by
  have := Int.emod_lt_of_pos t hW
  rw [start]
  omega

theorem start_mono (hW : 0 < W) (hst : now ≤ t) : start W now ≤ start W t := by
  rw [start_eq, start_eq]
  exact Int.mul_le_mul_of_nonneg_right (Int.ediv_le_ediv hW hst) hW.le

/-- An aligned window is the window of each of its points. -/
theorem start_of_mem (hW : 0 < W) {k : ℤ} (h1 : k * W ≤ t) (h2 : t < (k + 1) * W) :
    start W t = k * W := by
  have hk : t / W = k := by
    rw [Int.ediv_eq_iff_of_pos hW]
    exact ⟨h1, by linarith⟩
  rw [start_eq, hk]

/-- The admissions in the aligned window of `t`, which is all that a counter for that window has to
know. -/
def used (W : ℤ) (h : List ℤ) (t : ℤ) : ℤ := countIco h (start W t) (start W t + W)

/-- The rule: admit while the window holds fewer than `limit` admissions. -/
def step (limit W : ℤ) (h : List ℤ) (t : ℤ) : Verdict × List ℤ :=
  let reset := start W t + W
  if used W h t < limit then (⟨true, limit - (used W h t + 1), reset, reset - t⟩, h ++ [t])
  else (⟨false, 0, reset, reset - t⟩, h)

theorem step_of_lt (hu : used W h t < limit) :
    step limit W h t =
      (⟨true, limit - (used W h t + 1), start W t + W, start W t + W - t⟩, h ++ [t]) :=
  if_pos hu

theorem step_of_ge (hu : limit ≤ used W h t) :
    step limit W h t = (⟨false, 0, start W t + W, start W t + W - t⟩, h) :=
  if_neg (not_lt.2 hu)

theorem step_snd (limit W : ℤ) (h : List ℤ) (t : ℤ) :
    (step limit W h t).2 = if (step limit W h t).1.allowed then h ++ [t] else h := by
  rcases lt_or_ge (used W h t) limit with hu | hu
  · rw [step_of_lt hu, if_pos rfl]
  · rw [step_of_ge hu, if_neg Bool.false_ne_true]

/-- The quota: no aligned window holds more than `limit` admissions. -/
def Bounded (limit W : ℤ) (h : List ℤ) : Prop :=
  ∀ k : ℤ, (countIco h (k * W) ((k + 1) * W) : ℤ) ≤ limit

theorem bounded_nil (hl : 0 ≤ limit) : Bounded limit W [] := fun _ => by simpa [countIco] using hl

/-- **The rule keeps the quota.** -/
theorem Bounded.step (hW : 0 < W) (hb : Bounded limit W h) :
    Bounded limit W (FixedWindow.step limit W h t).2 := by
  rcases lt_or_ge (used W h t) limit with hu | hu
  · rw [step_of_lt hu]
    intro k
    rw [countIco_append]
    by_cases hk : k * W ≤ t ∧ t < (k + 1) * W
    · have hs := start_of_mem hW hk.1 hk.2
      rw [used, hs, show k * W + W = (k + 1) * W by ring] at hu
      rw [if_pos hk]
      push_cast
      omega
    · rw [if_neg hk]
      simpa using hb k
  · rw [step_of_ge hu]
    exact hb

theorem Bounded.mono {g : List ℤ} (hb : Bounded limit W h) (hs : g.Subperm h) :
    Bounded limit W g :=
  fun k => le_trans (by exact_mod_cast countIco_mono hs _ _) (hb k)

theorem used_append_self (hW : 0 < W) : used W (h ++ [t]) t = used W h t + 1 := by
  rw [used, countIco_append, if_pos ⟨start_le hW t, lt_start_add hW t⟩]
  push_cast
  rfl

/-- Two times of one window see the same admissions. -/
theorem used_congr (h : List ℤ) (hs : start W now = start W t) : used W h now = used W h t := by
  rw [used, used, hs]

theorem used_append_of_ne (hW : 0 < W) (hne : start W now ≠ start W t) :
    used W (h ++ [now]) t = used W h t := by
  have hout : ¬(start W t ≤ now ∧ now < start W t + W) := by
    rintro ⟨h1, h2⟩
    rw [start_eq] at h1 h2
    refine hne ?_
    rw [start_of_mem hW h1 (by linarith), start_eq]
  rw [used, countIco_append, if_neg hout, Nat.add_zero, used]

/-- What a window holds after one more event. -/
theorem used_step (hW : 0 < W) (limit : ℤ) (h : List ℤ) (now t : ℤ) :
    used W (step limit W h now).2 t = if start W now = start W t ∧ used W h now < limit then
      used W h now + 1 else used W h t := by
  rcases lt_or_ge (used W h now) limit with hu | hu
  · rw [step_of_lt hu]
    by_cases hs : start W now = start W t
    · rw [if_pos ⟨hs, hu⟩, ← used_congr _ hs, used_append_self hW]
    · rw [if_neg fun h => hs h.1, used_append_of_ne hW hs]
  · rw [step_of_ge hu, if_neg fun h => absurd h.2 (not_lt.2 hu)]

end FixedWindow

/-! ## The sliding log -/

namespace SlidingLog

variable {limit W : ℤ} {h : List ℤ} {t now : ℤ}

/-- The admissions still inside the window that ends at `t`. The others can be forgotten for good,
as long as time does not run backwards. -/
def live (W : ℤ) (h : List ℤ) (t : ℤ) : List ℤ := h.filter (t - W < ·)

/-- Pruning twice is pruning once, at the later time. -/
theorem live_live (hst : now ≤ t) : live W (live W h now) t = live W h t := by
  rw [live, live, List.filter_filter, live]
  refine List.filter_congr fun s _ => ?_
  rw [Bool.and_eq_left_iff_imp]
  simp only [decide_eq_true_eq]
  omega

/-- Logs that agree on what is live go on agreeing when both grow by `l`. -/
theorem live_append_congr {g : List ℤ} (hg : live W g t = live W h t) (l : List ℤ) :
    live W (g ++ l) t = live W (h ++ l) t := by
  rw [live, live, List.filter_append, List.filter_append]
  exact congrArg (· ++ _) hg

/-- Nothing is live once the window has passed every admission. -/
theorem live_eq_nil (hle : ∀ s ∈ h, s ≤ t - W) : live W h t = [] := by
  rw [live, List.filter_eq_nil_iff]
  intro s hs
  have := hle s hs
  simpa using this

/-- When the oldest entry of `l` leaves the window. -/
def resetAt (W : ℤ) (l : List ℤ) (t : ℤ) : ℤ := l.head?.getD t + W

/-- The rule: admit while the window that ends here holds fewer than `limit` admissions. -/
def step (limit W : ℤ) (h : List ℤ) (t : ℤ) : Verdict × List ℤ :=
  let log := live W h t
  if (log.length : ℤ) < limit then
    let reset := resetAt W (log ++ [t]) t
    (⟨true, limit - (log.length + 1), reset, max 0 (reset - t)⟩, h ++ [t])
  else
    let reset := resetAt W log t
    (⟨false, 0, reset, max 0 (reset - t)⟩, h)

theorem step_of_lt (hu : ((live W h t).length : ℤ) < limit) :
    step limit W h t =
      (⟨true, limit - ((live W h t).length + 1), resetAt W (live W h t ++ [t]) t,
        max 0 (resetAt W (live W h t ++ [t]) t - t)⟩, h ++ [t]) :=
  if_pos hu

theorem step_of_ge (hu : limit ≤ ((live W h t).length : ℤ)) :
    step limit W h t =
      (⟨false, 0, resetAt W (live W h t) t, max 0 (resetAt W (live W h t) t - t)⟩, h) :=
  if_neg (not_lt.2 hu)

theorem step_snd (limit W : ℤ) (h : List ℤ) (t : ℤ) :
    (step limit W h t).2 = if (step limit W h t).1.allowed then h ++ [t] else h := by
  rcases lt_or_ge ((live W h t).length : ℤ) limit with hu | hu
  · rw [step_of_lt hu, if_pos rfl]
  · rw [step_of_ge hu, if_neg Bool.false_ne_true]

/-- A log pruned at `t` holds what counts from then on. -/
theorem live_step (limit : ℤ) (hst : t ≤ now) :
    live W (if (step limit W h t).1.allowed then live W h t ++ [t] else live W h t) now =
      live W (step limit W h t).2 now := by
  rw [step_snd]
  split
  · exact live_append_congr (live_live hst) _
  · exact live_live hst

theorem past_step (limit W : ℤ) (hpast : ∀ s ∈ h, s ≤ t) : ∀ s ∈ (step limit W h t).2, s ≤ t := by
  rw [step_snd]
  split
  · exact forall_le_concat hpast
  · exact hpast

/-- The quota: no half-open interval of length `W` holds more than `limit` admissions. -/
def Bounded (limit W : ℤ) (h : List ℤ) : Prop :=
  ∀ a : ℤ, (countIco h a (a + W) : ℤ) ≤ limit ∧ (countIoc h a (a + W) : ℤ) ≤ limit

theorem bounded_nil (hl : 0 ≤ limit) : Bounded limit W [] :=
  fun _ => ⟨by simpa [countIco] using hl, by simpa [countIoc] using hl⟩

/-- An interval of length `W` that reaches `t` holds live admissions only. -/
theorem countIco_le_live {a : ℤ} (ht : t < a + W) :
    countIco h a (a + W) ≤ (live W h t).length := by
  rw [countIco, List.countP_eq_length_filter]
  refine List.Sublist.length_le (List.monotone_filter_right h fun s hs => ?_)
  simp only [decide_eq_true_eq] at hs ⊢
  omega

theorem countIoc_le_live {a : ℤ} (ht : t ≤ a + W) :
    countIoc h a (a + W) ≤ (live W h t).length := by
  rw [countIoc, List.countP_eq_length_filter]
  refine List.Sublist.length_le (List.monotone_filter_right h fun s hs => ?_)
  simp only [decide_eq_true_eq] at hs ⊢
  omega

/-- **The rule keeps the quota.**  An interval that gains the new admission reaches `t`, so all
it held before was live at `t` and fewer than `limit`. -/
theorem Bounded.step (hb : Bounded limit W h) :
    Bounded limit W (SlidingLog.step limit W h t).2 := by
  rcases lt_or_ge ((live W h t).length : ℤ) limit with hu | hu
  · rw [step_of_lt hu]
    intro a
    rw [countIco_append, countIoc_append]
    constructor
    · by_cases hc : a ≤ t ∧ t < a + W
      · have := countIco_le_live (h := h) hc.2
        rw [if_pos hc]
        push_cast
        omega
      · rw [if_neg hc]
        simpa using (hb a).1
    · by_cases hc : a < t ∧ t ≤ a + W
      · have := countIoc_le_live (h := h) hc.2
        rw [if_pos hc]
        push_cast
        omega
      · rw [if_neg hc]
        simpa using (hb a).2
  · rw [step_of_ge hu]
    exact hb

theorem Bounded.mono {g : List ℤ} (hb : Bounded limit W h) (hs : g.Subperm h) :
    Bounded limit W g := fun a =>
  ⟨le_trans (by exact_mod_cast countIco_mono hs _ _) (hb a).1,
    le_trans (by exact_mod_cast countIoc_mono hs _ _) (hb a).2⟩

end SlidingLog

end Quota
