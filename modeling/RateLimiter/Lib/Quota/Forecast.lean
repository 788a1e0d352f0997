import RateLimiter.Lib.Quota.Bucket

/-!
# What a verdict says about later

A verdict is about one event, but three of its numbers are about later ones: how many more events
would be admitted now, when the next one will be, and when the limiter is as good as new.  For each
rule `available` is the number of events that can still be admitted; the verdict is made of it
(`allowed_iff`, `remaining_eq`, `available_step`, and for a bucket `step_spec`), and if nothing else
happens it changes with the time as the verdict says (`available_later` and what follows it).
-/

set_option autoImplicit false

namespace Quota

/-! ## Fixed windows -/

namespace FixedWindow

variable {limit W : ℤ} {h : List ℤ} {t u : ℤ}

/-- How many more events the window of `t` takes. -/
def available (limit W : ℤ) (h : List ℤ) (t : ℤ) : ℤ := limit - used W h t

theorem allowed_iff : (step limit W h t).1.allowed = true ↔ 0 < available limit W h t := by
  rcases lt_or_ge (used W h t) limit with hu | hu
  · rw [step_of_lt hu, available]
    exact ⟨fun _ => by omega, fun _ => rfl⟩
  · rw [step_of_ge hu, available]
    exact ⟨fun ha => absurd ha Bool.false_ne_true, fun ha => by omega⟩

theorem available_step (hW : 0 < W) : available limit W (step limit W h t).2 t =
    available limit W h t - if (step limit W h t).1.allowed then 1 else 0 := by
  rw [step_snd]
  split
  · rw [available, used_append_self hW, available]
    omega
  · rw [Int.sub_zero]

theorem Bounded.used_le (hb : Bounded limit W h) (t : ℤ) : used W h t ≤ limit := by
  have := hb (t / W)
  rwa [add_mul, one_mul, ← start_eq] at this

theorem remaining_eq (hW : 0 < W) (hb : Bounded limit W h) :
    (step limit W h t).1.remaining = available limit W (step limit W h t).2 t := by
  have hle := hb.used_le t
  rw [available_step hW, available]
  rcases lt_or_ge (used W h t) limit with hu | hu
  · rw [step_of_lt hu, if_pos rfl]
    show limit - (used W h t + 1) = _
    omega
  · rw [step_of_ge hu, if_neg Bool.false_ne_true]
    show 0 = _
    omega

theorem resetAt_eq (limit W : ℤ) (h : List ℤ) (t : ℤ) :
    (step limit W h t).1.resetAt = start W t + W := by
  rcases lt_or_ge (used W h t) limit with hu | hu
  · rw [step_of_lt hu]
  · rw [step_of_ge hu]

theorem retryAfter_eq (limit W : ℤ) (h : List ℤ) (t : ℤ) :
    (step limit W h t).1.retryAfter = start W t + W - t := by
  rcases lt_or_ge (used W h t) limit with hu | hu
  · rw [step_of_lt hu]
  · rw [step_of_ge hu]

theorem start_of_lt (hW : 0 < W) (htu : t ≤ u) (hu : u < start W t + W) :
    start W u = start W t := by
  have hle := start_le hW t
  rw [start_eq W t] at hu hle ⊢
  exact start_of_mem hW (hle.trans htu) (by linarith)

/-- Nothing has been admitted in a window that begins later. -/
theorem used_eq_zero (hpast : ∀ a ∈ h, a ≤ t) (hu : t < start W u) : used W h u = 0 := by
  rw [used, countIco, List.countP_eq_zero.2]
  · rfl
  · intro a ha
    have := hpast a ha
    simp only [decide_eq_true_eq]
    omega

theorem le_start (hW : 0 < W) (hu : start W t + W ≤ u) : start W t + W ≤ start W u := by
  have hs : start W (start W t + W) = start W t + W := by
    rw [start_eq W t, show t / W * W + W = (t / W + 1) * W by ring]
    exact start_of_mem hW le_rfl (by linarith)
  rw [← hs]
  exact start_mono hW hu

/-- A later window begins after the times of the earlier one. -/
theorem lt_start_of_ne (hW : 0 < W) (htu : t ≤ u) (hne : start W t ≠ start W u) :
    t < start W u := by
  rcases lt_or_ge u (start W t + W) with hu | hu
  · exact absurd (start_of_lt hW htu hu).symm hne
  · exact (lt_start_add hW t).trans_le (le_start hW hu)

/-- **Later in the window nothing changes, and afterwards everything is available.** -/
theorem available_later (hW : 0 < W) (hpast : ∀ a ∈ h, a ≤ t) (htu : t ≤ u) :
    available limit W h u = if u < start W t + W then available limit W h t else limit := by
  split
  · rename_i hu
    rw [available, available, used_congr h (start_of_lt hW htu hu)]
  · rename_i hu
    have hstart := le_start hW (not_lt.1 hu)
    have hlt := lt_start_add hW t
    rw [available, used_eq_zero hpast (by omega), Int.sub_zero]

end FixedWindow

/-! ## The sliding log -/

namespace SlidingLog

variable {limit W : ℤ} {h : List ℤ} {t u : ℤ}

/-- How many more events the window that ends at `t` takes. -/
def available (limit W : ℤ) (h : List ℤ) (t : ℤ) : ℤ := limit - (live W h t).length

theorem live_append_self (hW : 0 < W) (h : List ℤ) (t : ℤ) :
    live W (h ++ [t]) t = live W h t ++ [t] := by
  have ht : t - W < t := by omega
  rw [live, live, List.filter_append, List.filter_cons_of_pos (by simpa using ht), List.filter_nil]

theorem allowed_iff : (step limit W h t).1.allowed = true ↔ 0 < available limit W h t := by
  rcases lt_or_ge ((live W h t).length : ℤ) limit with hu | hu
  · rw [step_of_lt hu, available]
    exact ⟨fun _ => by omega, fun _ => rfl⟩
  · rw [step_of_ge hu, available]
    exact ⟨fun ha => absurd ha Bool.false_ne_true, fun ha => by omega⟩

theorem available_step (hW : 0 < W) : available limit W (step limit W h t).2 t =
    available limit W h t - if (step limit W h t).1.allowed then 1 else 0 := by
  rw [step_snd]
  split
  · rw [available, live_append_self hW, available, List.length_append, List.length_singleton]
    push_cast
    omega
  · rw [Int.sub_zero]

/-- The live admissions are those of the window that ends here. -/
theorem length_live (hpast : ∀ a ∈ h, a ≤ t) : (live W h t).length = countIoc h (t - W) t := by
  rw [live, countIoc, List.countP_eq_length_filter]
  refine congrArg _ (List.filter_congr fun a ha => ?_)
  simp [hpast a ha]

theorem Bounded.length_live_le (hb : Bounded limit W h) (hpast : ∀ a ∈ h, a ≤ t) :
    ((live W h t).length : ℤ) ≤ limit := by
  have := (hb (t - W)).2
  rwa [show t - W + W = t by omega, ← length_live hpast] at this

theorem remaining_eq (hW : 0 < W) (hb : Bounded limit W h) (hpast : ∀ a ∈ h, a ≤ t) :
    (step limit W h t).1.remaining = available limit W (step limit W h t).2 t := by
  have hle := hb.length_live_le hpast
  rw [available_step hW, available]
  rcases lt_or_ge ((live W h t).length : ℤ) limit with hu | hu
  · rw [step_of_lt hu, if_pos rfl]
    show limit - ((live W h t).length + 1) = _
    omega
  · rw [step_of_ge hu, if_neg Bool.false_ne_true]
    show 0 = _
    omega

/-- The log a request leaves decides when the quota resets. -/
theorem resetAt_eq (hW : 0 < W) (limit : ℤ) (h : List ℤ) (t : ℤ) :
    (step limit W h t).1.resetAt = resetAt W (live W (step limit W h t).2 t) t := by
  rcases lt_or_ge ((live W h t).length : ℤ) limit with hu | hu
  · rw [step_of_lt hu, live_append_self hW]
  · rw [step_of_ge hu]

theorem retryAfter_eq (limit W : ℤ) (h : List ℤ) (t : ℤ) :
    (step limit W h t).1.retryAfter = max 0 ((step limit W h t).1.resetAt - t) := by
  rcases lt_or_ge ((live W h t).length : ℤ) limit with hu | hu
  · rw [step_of_lt hu]
  · rw [step_of_ge hu]

/-- The head of a log in order is its oldest live admission. -/
theorem isLeast_head (hsorted : h.Pairwise (· ≤ ·)) {o : ℤ} {l : List ℤ}
    (hl : live W h t = o :: l) :
    IsLeast {a | a ∈ h ∧ t - W < a} o := by
  have hmem : ∀ a, a ∈ o :: l ↔ a ∈ h ∧ t - W < a := fun a => by
    rw [← hl, live, List.mem_filter, decide_eq_true_iff]
  refine ⟨(hmem o).1 List.mem_cons_self, fun a ha => ?_⟩
  have hs : (live W h t).Pairwise (· ≤ ·) := hsorted.sublist List.filter_sublist
  rw [hl, List.pairwise_cons] at hs
  rcases List.mem_cons.1 ((hmem a).2 ha) with rfl | hal
  · exact le_rfl
  · exact hs.1 a hal

/-- **Nothing changes until the oldest admission leaves the window, and then there is room.** -/
theorem available_later (limit : ℤ) (hsorted : h.Pairwise (· ≤ ·)) {o : ℤ} {l : List ℤ}
    (hl : live W h t = o :: l) (htu : t ≤ u) :
    (u < o + W → available limit W h u = available limit W h t) ∧
      (o + W ≤ u → available limit W h t < available limit W h u) := by
  have hleast := isLeast_head hsorted hl
  have hlive : live W h u = (live W h t).filter fun a => u - W < a := (live_live htu).symm
  refine ⟨fun hu => ?_, fun hu => ?_⟩
  · have hkeep : (live W h t).filter (fun a => u - W < a) = live W h t := by
      refine List.filter_eq_self.2 fun a ha => ?_
      rw [live, List.mem_filter, decide_eq_true_iff] at ha
      have := hleast.2 ha
      rw [decide_eq_true_iff]
      omega
    rw [available, hlive, hkeep, available]
  · have hlt : ((live W h t).filter fun a => u - W < a).length < (live W h t).length := by
      rw [List.length_filter_lt_length_iff_exists]
      refine ⟨o, hl ▸ List.mem_cons_self, ?_⟩
      rw [decide_eq_true_iff]
      omega
    rw [available, available, hlive]
    omega

end SlidingLog

/-! ## The token bucket -/

namespace Bucket

variable {K : Type*} [Field K] [LinearOrder K] [IsStrictOrderedRing K] [FloorRing K]
variable {P : Params K} {s : State K} {t u : ℤ} {x : K}

/-- How many whole tokens there are. -/
def available (P : Params K) (s : State K) (t : ℤ) : ℤ := ⌊level P s t⌋

theorem allowed_iff : (step P s t).1.allowed = true ↔ 0 < available P s t := by
  rw [available, ← Int.add_one_le_iff, zero_add, Int.le_floor, Int.cast_one]
  rcases le_or_gt 1 (level P s t) with hx | hx
  · rw [step_of_le hx]
    exact ⟨fun _ => hx, fun _ => rfl⟩
  · rw [step_of_lt hx]
    exact ⟨fun ha => absurd ha Bool.false_ne_true, fun ha => absurd ha (not_le.2 hx)⟩

theorem available_step (s : State K) (t : ℤ) : available P (step P s t).2 t =
    available P s t - if (step P s t).1.allowed then 1 else 0 := by
  rw [available, level_step, available]
  split
  · rw [Int.floor_sub_one]
  · rw [sub_zero, Int.sub_zero]

/-- All that is kept and shown comes from the level after the event. -/
theorem step_spec (s : State K) (t : ℤ) :
    (step P s t).2 = some (level P (step P s t).2 t, t) ∧
      (step P s t).1.remaining = available P (step P s t).2 t ∧
      (step P s t).1.resetAt = fullAt P (level P (step P s t).2 t) t := by
  rw [available, level_step]
  rcases le_or_gt 1 (level P s t) with hx | hx
  · rw [step_of_le hx, if_pos rfl]
    exact ⟨rfl, rfl, rfl⟩
  · rw [step_of_lt hx, if_neg Bool.false_ne_true, sub_zero]
    exact ⟨rfl, rfl, rfl⟩

/-- A bucket that holds `x` at `t` has one token from the time on that the missing part takes. -/
theorem one_le_level_iff (hP : 1 ≤ P.capacity) :
    1 ≤ level P (some (x, t)) u ↔ t + ⌈(1 - x) / P.rate⌉ ≤ u := by
  rw [level, le_min_iff, ← le_sub_iff_add_le', Int.ceil_le, div_le_iff₀ P.rate_pos,
    sub_le_iff_le_add']
  exact and_iff_right hP

/-- A bucket that holds `x` at `t` is full from `fullAt` on. -/
theorem level_eq_capacity_iff : level P (some (x, t)) u = P.capacity ↔ fullAt P x t ≤ u := by
  rw [level, min_eq_left_iff, fullAt, ← le_sub_iff_add_le', Int.ceil_le, div_le_iff₀ P.rate_pos,
    sub_le_iff_le_add']

/-- A bucket of a whole number of tokens is full when all of them are there. -/
theorem available_eq_iff {C : ℤ} (hC : P.capacity = C) :
    available P s t = C ↔ level P s t = P.capacity := by
  have hle := level_le_capacity (P := P) s t
  rw [available, Int.floor_eq_iff, ← hC]
  exact ⟨fun hx => le_antisymm hle hx.1, fun hx => ⟨hx.ge, by linarith⟩⟩

/-- **The next token comes when the verdict says.** -/
theorem available_later (hP : 1 ≤ P.capacity) (hx : level P s t < 1) :
    0 < available P (step P s t).2 u ↔ t + (step P s t).1.retryAfter ≤ u := by
  rw [available, ← Int.add_one_le_iff, zero_add, Int.le_floor, Int.cast_one, step_of_lt hx]
  exact one_le_level_iff hP

end Bucket

end Quota
