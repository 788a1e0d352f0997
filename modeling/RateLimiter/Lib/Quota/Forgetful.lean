import Mathlib.Algebra.Order.Group.Int
import Mathlib.Data.List.Count

/-!
# A counter that starts over

A counter admits up to `limit` elements that satisfy `p`, but whenever another element comes by it
forgets what it has counted.  It still keeps the limit over a whole list exactly if nothing makes it
forget between two elements of `p`, or there are no more than `limit` of these anyway
(`Forgetful.admits_le_iff`).
-/

set_option autoImplicit false

namespace Forgetful

variable {α : Type*} (p : α → Bool) (limit : ℤ)

/-- How many elements of `p` are admitted when `c` have been counted. -/
def admits : ℤ → List α → ℤ
  | _, [] => 0
  | c, a :: l =>
    if p a then if c < limit then admits (c + 1) l + 1 else admits c l
    else admits 0 l

/-- Once left, `p` is not come back to: the elements that satisfy it are the first ones. -/
def Unbroken (l : List α) : Prop :=
  ∀ before a after, l = before ++ a :: after → p a = false →
    before.countP p = 0 ∨ after.countP p = 0

variable {p limit} {c : ℤ} {a : α} {l : List α}

/-- What comes after an element outside of `p` is counted anew. -/
theorem admits_append (ha : p a = false) (before after : List α) :
    ∀ {c : ℤ}, admits p limit c (before ++ a :: after) =
      admits p limit c before + admits p limit 0 after := by
  induction before with
  | nil =>
    intro c
    rw [List.nil_append, admits, admits, ha, if_neg Bool.false_ne_true, zero_add]
  | cons b before ih =>
    intro c
    rw [List.cons_append, admits, admits, ih, ih, ih]
    split
    · split
      · exact add_right_comm _ _ _
      · rfl
    · rfl

theorem admits_le_countP (limit : ℤ) (l : List α) : ∀ {c : ℤ}, admits p limit c l ≤ l.countP p := by
  induction l with
  | nil => exact le_rfl
  | cons a l ih =>
    intro c
    rw [admits, List.countP_cons]
    split
    · split
      · have := ih (c := c + 1)
        push_cast
        omega
      · have := ih (c := c)
        push_cast
        omega
    · have := ih (c := 0)
      push_cast
      omega

/-- As long as there is room, elements of `p` are admitted. -/
theorem min_le_admits (limit : ℤ) (l : List α) :
    ∀ {c : ℤ}, 0 ≤ c → min (limit - c) (l.countP p) ≤ admits p limit c l := by
  induction l with
  | nil => exact fun _ => min_le_right _ _
  | cons a l ih =>
    intro c hc
    rw [admits, List.countP_cons]
    split
    · split
      · have := ih (c := c + 1) (by omega)
        push_cast
        omega
      · have := ih hc
        push_cast
        omega
    · have := ih le_rfl
      push_cast
      omega

/-- After the last element of `p` nothing more is admitted, before that the counter holds. -/
theorem admits_le_sub (h : ∀ before a after, l = before ++ a :: after → p a = false →
    after.countP p = 0) : ∀ {c : ℤ}, c ≤ limit → admits p limit c l ≤ limit - c := by
  induction l with
  | nil => exact fun hc => Int.sub_nonneg_of_le hc
  | cons a l ih =>
    intro c hc
    have htail : ∀ {c : ℤ}, c ≤ limit → admits p limit c l ≤ limit - c :=
      ih fun before b after hl => h (a :: before) b after (congrArg (a :: ·) hl)
    rw [admits]
    split
    · split
      · have := htail (c := c + 1) (by omega)
        omega
      · exact htail hc
    · have hnone := h [] a l rfl (Bool.eq_false_iff.2 ‹_›)
      have := admits_le_countP (p := p) limit l (c := 0)
      omega

theorem Unbroken.tail (h : Unbroken p (a :: l)) : Unbroken p l := by
  intro before b after hl hb
  rcases h (a :: before) b after (congrArg (a :: ·) hl) hb with hzero | hzero
  · rw [List.countP_cons] at hzero
    exact Or.inl (by omega)
  · exact Or.inr hzero

theorem Unbroken.admits_le (hl : 0 ≤ limit) (h : Unbroken p l) : admits p limit 0 l ≤ limit := by
  induction l with
  | nil => exact hl
  | cons a l ih =>
    by_cases ha : p a = true
    · refine (admits_le_sub (fun before b after heq hb => ?_) hl).trans_eq (sub_zero limit)
      cases before with
      | nil =>
        cases heq
        exact absurd ha (by rw [hb]; exact Bool.false_ne_true)
      | cons x before =>
        refine (h (x :: before) b after heq hb).resolve_left ?_
        obtain ⟨rfl, -⟩ := List.cons.inj heq
        rw [List.countP_cons_of_pos ha]
        exact Nat.succ_ne_zero _
    · rw [admits, if_neg ha]
      exact ih h.tail

/-- **When a forgetful counter keeps its limit.** -/
theorem admits_le_iff (hl : 1 ≤ limit) :
    admits p limit 0 l ≤ limit ↔ (l.countP p : ℤ) ≤ limit ∨ Unbroken p l := by
  constructor
  · intro hle
    by_contra hnot
    rw [not_or, Unbroken] at hnot
    obtain ⟨hcount, hbroken⟩ := hnot
    push Not at hbroken
    obtain ⟨before, a, after, rfl, ha, hbefore, hafter⟩ := hbroken
    rw [admits_append ha] at hle
    rw [List.countP_append, List.countP_cons, ha] at hcount
    have h1 := min_le_admits (p := p) limit before le_rfl
    have h2 := min_le_admits (p := p) limit after le_rfl
    simp only [Bool.false_eq_true, if_false] at hcount
    omega
  · rintro (hcount | hunbroken)
    · exact (admits_le_countP limit l).trans hcount
    · exact hunbroken.admits_le (by omega)

end Forgetful
