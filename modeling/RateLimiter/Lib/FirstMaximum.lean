import Mathlib.Data.List.MinMax

/-!
# The first maximum of a sorted list

`List.argmax score` keeps the first of several elements of greatest score, so which one that is
depends on the order of the list.  If the list is sorted so that of two elements with equal scores
the earlier one is no worse, the result does not depend on the list any more: it is the greatest
element in an order `rank` that refines the score.
-/

set_option autoImplicit false

namespace FirstMaximum

variable {α β γ : Type*} [LinearOrder β] [PartialOrder γ] {score : α → β} {rank : α → γ}
  {l : List α} {m : α}

theorem rank_le_of_mem_argmax (hscore : ∀ a b, score a < score b → rank a ≤ rank b)
    (hties : l.Pairwise fun a b => score a = score b → rank b ≤ rank a)
    (hm : m ∈ l.argmax score) : ∀ a ∈ l, rank a ≤ rank m := by
  induction l generalizing m with
  | nil => simp at hm
  | cons a l ih =>
    obtain ⟨hfirst, hties⟩ := List.pairwise_cons.1 hties
    rw [List.argmax_cons] at hm
    cases hc : l.argmax score with
    | none =>
      have hm : a = m := by simpa [hc] using hm
      simp [List.argmax_eq_none.1 hc, hm]
    | some c =>
      have hlow := ih hties hc
      simp only [hc] at hm
      intro b hb
      by_cases hac : score a < score c
      · obtain rfl : c = m := by simpa [hac] using hm
        rcases List.mem_cons.1 hb with rfl | hb
        · exact hscore _ _ hac
        · exact hlow b hb
      · obtain rfl : a = m := by simpa [hac] using hm
        -- The scanned element beats the maximum of the rest, by its score or by coming first.
        have hca : rank c ≤ rank a := by
          rcases (not_lt.1 hac).lt_or_eq with hlt | heq
          · exact hscore _ _ hlt
          · exact hfirst c (List.argmax_mem hc) heq.symm
        rcases List.mem_cons.1 hb with rfl | hb
        · exact le_rfl
        · exact (hlow b hb).trans hca

/-- **The first maximum of a list whose ties are in order is the greatest element.** -/
theorem mem_argmax_iff (hscore : ∀ a b, score a < score b → rank a ≤ rank b)
    (hties : l.Pairwise fun a b => score a = score b → rank b ≤ rank a)
    (hinj : ∀ a ∈ l, ∀ b ∈ l, rank a = rank b → a = b) :
    m ∈ l.argmax score ↔ m ∈ l ∧ ∀ a ∈ l, rank a ≤ rank m := by
  refine ⟨fun h => ⟨List.argmax_mem h, rank_le_of_mem_argmax hscore hties h⟩, ?_⟩
  rintro ⟨hm, hgreatest⟩
  cases hc : l.argmax score with
  | none => simp [List.argmax_eq_none.1 hc] at hm
  | some c =>
    have hmem := List.argmax_mem hc
    have hmc := rank_le_of_mem_argmax hscore hties hc m hm
    rw [hinj m hm c hmem (hmc.antisymm (hgreatest c hmem))]
    rfl

end FirstMaximum
