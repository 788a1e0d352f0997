import Mathlib.Data.List.Count

/-!
# Counting in lists

Two counts compared element by element.
-/

set_option autoImplicit false

namespace Counting

variable {α β : Type*} {p q : α → Bool}

/-- Lists with the same images are counted pair by pair. -/
theorem countP_le_of_map_eq {f : α → β} {l l' : List α} (h : l.map f = l'.map f)
    (hpq : ∀ x ∈ l, ∀ y ∈ l', f x = f y → q y = true → p x = true) :
    l'.countP q ≤ l.countP p := by
  induction l generalizing l' with
  | nil => simp [List.map_eq_nil_iff.1 h.symm]
  | cons x l ih =>
    obtain ⟨y, l', rfl, hy, hl⟩ := List.map_eq_cons_iff.1 h.symm
    have hrest := ih hl.symm fun x' hx' y' hy' =>
      hpq x' (List.mem_cons_of_mem _ hx') y' (List.mem_cons_of_mem _ hy')
    have hhead := hpq x List.mem_cons_self y List.mem_cons_self hy.symm
    rw [List.countP_cons, List.countP_cons]
    by_cases hq : q y
    · rw [if_pos hq, if_pos (hhead hq)]
      exact Nat.add_le_add_right hrest 1
    · rw [if_neg hq]
      exact Nat.le_add_right_of_le hrest

/-- A smaller count is the same when it misses nothing. -/
theorem countP_eq_iff {l : List α} (hqp : ∀ x ∈ l, q x = true → p x = true) :
    l.countP p = l.countP q ↔ ∀ x ∈ l, p x = true → q x = true := by
  induction l with
  | nil => simp
  | cons x l ih =>
    obtain ⟨hx, hl⟩ := List.forall_mem_cons.1 hqp
    have hle : l.countP q ≤ l.countP p := List.countP_mono_left hl
    rw [List.forall_mem_cons, ← ih hl, List.countP_cons, List.countP_cons]
    by_cases hp : p x
    · by_cases hq : q x
      · simp [hp, hq]
      · have hlt : l.countP p + 1 ≠ l.countP q := Nat.ne_of_gt (Nat.lt_succ_of_le hle)
        simp [hp, hq, hlt]
    · have hq : ¬q x := fun hq => hp (hx hq)
      simp [hp, hq]

end Counting
