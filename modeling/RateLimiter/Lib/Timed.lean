import Mathlib.Algebra.Order.Group.Int
import Mathlib.Data.List.Forall2
import Mathlib.Data.List.Nodup

/-!
# Machines on timed inputs

A machine `f : σ → ι → ω × σ` answers a list of inputs one by one.  Every input carries a time and
perhaps a tag that no other input carries, such as a nonce; `InOrder` says that times do not run
backwards and that no tag is used twice.

The one rule here is `simulation`: two machines whose states stay related answer alike.
-/

set_option autoImplicit false

namespace Timed

variable {σ τ ι ω υ α : Type*}

/-- The outputs of a machine, in order, when it is run on a list of inputs. -/
def outputs (f : σ → ι → ω × σ) : σ → List ι → List ω
  | _, [] => []
  | s, i :: is => (f s i).1 :: outputs f (f s i).2 is

/-- The state a machine ends in. -/
def final (f : σ → ι → ω × σ) (s : σ) (is : List ι) : σ := is.foldl (fun s i => (f s i).2) s

/-- The inputs with their outputs, which is what an outsider sees of a run. -/
def trace (f : σ → ι → ω × σ) (s : σ) (is : List ι) : List (ι × ω) := is.zip (outputs f s is)

section Append

variable (f : σ → ι → ω × σ) (s : σ)

theorem outputs_append (is js : List ι) :
    outputs f s (is ++ js) = outputs f s is ++ outputs f (final f s is) js := by
  induction is generalizing s with
  | nil => rfl
  | cons i is ih => exact congrArg ((f s i).1 :: ·) (ih (f s i).2)

theorem final_append (is js : List ι) :
    final f s (is ++ js) = final f (final f s is) js :=
  List.foldl_append

theorem final_concat (is : List ι) (i : ι) :
    final f s (is ++ [i]) = (f (final f s is) i).2 :=
  final_append f s is [i]

theorem getElem?_outputs (is : List ι) (n : ℕ) :
    (outputs f s is)[n]? = is[n]?.map fun i => (f (final f s (is.take n)) i).1 := by
  induction is generalizing s n with
  | nil => rfl
  | cons i is ih =>
    cases n with
    | zero => rfl
    | succ n => exact ih (f s i).2 n

theorem length_outputs (is : List ι) : (outputs f s is).length = is.length := by
  induction is generalizing s with
  | nil => rfl
  | cons i is ih => exact congrArg (· + 1) (ih (f s i).2)

theorem take_outputs (is : List ι) (n : ℕ) :
    (outputs f s is).take n = outputs f s (is.take n) := by
  induction is generalizing s n with
  | nil => rw [List.take_nil, outputs, List.take_nil]
  | cons i is ih =>
    cases n with
    | zero => rfl
    | succ n => exact congrArg ((f s i).1 :: ·) (ih (f s i).2 n)

theorem trace_concat (is : List ι) (i : ι) :
    trace f s (is ++ [i]) = trace f s is ++ [(i, (f (final f s is) i).1)] := by
  rw [trace, outputs_append, List.zip_append (length_outputs f s is).symm]
  rfl

theorem map_fst_trace (is : List ι) : (trace f s is).map Prod.fst = is :=
  List.map_fst_zip (length_outputs f s is).ge

end Append

section InOrder

variable (time : ι → ℤ) (tag : ι → Option α)

/-- The inputs come at `now` or later, one after the other, and bring no tag twice and none of
`used`. -/
def InOrder : List α → ℤ → List ι → Prop
  | _, _, [] => True
  | used, now, i :: is =>
    now ≤ time i ∧ (∀ a ∈ tag i, a ∉ used) ∧ InOrder ((tag i).toList ++ used) (time i) is

/-- The time of the last input, or `now` before the first. -/
def timeAfter (now : ℤ) (is : List ι) : ℤ := is.foldl (fun _ i => time i) now

/-- The tags used by then. -/
def usedAfter (used : List α) (is : List ι) : List α :=
  is.foldl (fun used i => (tag i).toList ++ used) used

variable {time tag}

theorem inOrder_append {used : List α} {now : ℤ} {is js : List ι} :
    InOrder time tag used now (is ++ js) ↔ InOrder time tag used now is ∧
      InOrder time tag (usedAfter tag used is) (timeAfter time now is) js := by
  induction is generalizing used now with
  | nil => exact ⟨fun h => ⟨trivial, h⟩, fun h => h.2⟩
  | cons i is ih =>
    constructor
    · rintro ⟨hnow, hfresh, htail⟩
      exact ⟨⟨hnow, hfresh, (ih.1 htail).1⟩, (ih.1 htail).2⟩
    · rintro ⟨⟨hnow, hfresh, htail⟩, hrest⟩
      exact ⟨hnow, hfresh, ih.2 ⟨htail, hrest⟩⟩

theorem inOrder_of_pairwise {is : List ι} (ht : is.Pairwise fun i j => time i ≤ time j)
    (hn : (is.filterMap tag).Nodup) :
    ∀ {used : List α} {now : ℤ}, (∀ i ∈ is, now ≤ time i) →
      (∀ a ∈ is.filterMap tag, a ∉ used) → InOrder time tag used now is := by
  induction is with
  | nil => exact fun _ _ => trivial
  | cons i is ih =>
    intro used now hnow hused
    obtain ⟨hfirst, htail⟩ := List.pairwise_cons.1 ht
    have hsub : (is.filterMap tag).Sublist ((i :: is).filterMap tag) :=
      (List.sublist_cons_self i is).filterMap _
    refine ⟨hnow i List.mem_cons_self, fun a ha => ?_, ?_⟩
    · exact hused a (List.mem_filterMap.2 ⟨i, List.mem_cons_self, ha⟩)
    · refine ih htail (hn.sublist hsub) hfirst fun a ha hmem => ?_
      rcases List.mem_append.1 hmem with hi | hu
      · have hti : tag i = some a := by simpa using hi
        rw [List.filterMap_cons_some hti, List.nodup_cons] at hn
        exact hn.1 ha
      · exact hused a (hsub.subset ha) hu

theorem timeAfter_concat (now : ℤ) (is : List ι) (i : ι) :
    timeAfter time now (is ++ [i]) = time i :=
  List.foldl_concat ..

/-- What comes later comes after the last input. -/
theorem timeAfter_le {is js : List ι} (ho : (is ++ js).Pairwise fun i j => time i ≤ time j)
    {now : ℤ}
    (hnow : ∀ i ∈ is ++ js, now ≤ time i) : ∀ j ∈ js, timeAfter time now is ≤ time j := by
  induction is generalizing now with
  | nil => exact hnow
  | cons i is ih =>
    rw [List.cons_append, List.pairwise_cons] at ho
    exact ih ho.2 ho.1

/-- **Machines whose states stay related answer alike.**  `R` may depend on the tags used so far
and on the time. -/
theorem simulation_after {f : σ → ι → ω × σ} {g : τ → ι → υ × τ} {E : ω → υ → Prop} {P : ι → Prop}
    {R : List α → ℤ → σ → τ → Prop}
    (hstep : ∀ {used now s t i}, R used now s t → now ≤ time i → (∀ a ∈ tag i, a ∉ used) → P i →
      E (f s i).1 (g t i).1 ∧ R ((tag i).toList ++ used) (time i) (f s i).2 (g t i).2)
    {is : List ι} (hP : ∀ i ∈ is, P i) :
    ∀ {used : List α} {now : ℤ} {s : σ} {t : τ}, R used now s t → InOrder time tag used now is →
      List.Forall₂ E (outputs f s is) (outputs g t is) ∧
        R (usedAfter tag used is) (timeAfter time now is) (final f s is) (final g t is) := by
  induction is with
  | nil => exact fun h _ => ⟨.nil, h⟩
  | cons i is ih =>
    intro used now s t h ho
    obtain ⟨hnow, hfresh, htail⟩ := ho
    obtain ⟨he, hr⟩ := hstep h hnow hfresh (hP i List.mem_cons_self)
    obtain ⟨hes, hend⟩ := ih (fun j hj => hP j (List.mem_cons_of_mem _ hj)) hr htail
    exact ⟨.cons he hes, hend⟩

theorem simulation {f : σ → ι → ω × σ} {g : τ → ι → υ × τ} {E : ω → υ → Prop} {P : ι → Prop}
    {R : List α → ℤ → σ → τ → Prop}
    (hstep : ∀ {used now s t i}, R used now s t → now ≤ time i → (∀ a ∈ tag i, a ∉ used) → P i →
      E (f s i).1 (g t i).1 ∧ R ((tag i).toList ++ used) (time i) (f s i).2 (g t i).2)
    {is : List ι} (hP : ∀ i ∈ is, P i) {used : List α} {now : ℤ} {s : σ} {t : τ}
    (h : R used now s t) (ho : InOrder time tag used now is) :
    List.Forall₂ E (outputs f s is) (outputs g t is) ∧
      ∃ used' now', R used' now' (final f s is) (final g t is) :=
  let ⟨hes, hend⟩ := simulation_after hstep hP h ho
  ⟨hes, _, _, hend⟩

theorem simulation_of_pairwise {f : σ → ι → ω × σ} {g : τ → ι → υ × τ} {E : ω → υ → Prop}
    {R : ℤ → σ → τ → Prop}
    (hstep : ∀ {now s t i}, R now s t → now ≤ time i →
      E (f s i).1 (g t i).1 ∧ R (time i) (f s i).2 (g t i).2)
    {is : List ι} (ho : is.Pairwise fun i j => time i ≤ time j) :
    ∀ {now : ℤ} {s : σ} {t : τ}, R now s t → (∀ i ∈ is, now ≤ time i) →
      List.Forall₂ E (outputs f s is) (outputs g t is) ∧
        R (timeAfter time now is) (final f s is) (final g t is) := by
  induction is with
  | nil => exact fun h _ => ⟨.nil, h⟩
  | cons i is ih =>
    intro now s t h hnow
    obtain ⟨hfirst, htail⟩ := List.pairwise_cons.1 ho
    obtain ⟨he, hr⟩ := hstep h (hnow i List.mem_cons_self)
    obtain ⟨hes, hend⟩ := ih htail hr hfirst
    exact ⟨.cons he hes, hend⟩

end InOrder

/-- The rule for a relation that does not depend on the time. -/
theorem simulation_of_step {f : σ → ι → ω × σ} {g : τ → ι → υ × τ} {E : ω → υ → Prop} {P : ι → Prop}
    {R : σ → τ → Prop}
    (hstep : ∀ {s t i}, R s t → P i → E (f s i).1 (g t i).1 ∧ R (f s i).2 (g t i).2)
    {is : List ι} (hP : ∀ i ∈ is, P i) :
    ∀ {s : σ} {t : τ}, R s t → List.Forall₂ E (outputs f s is) (outputs g t is) ∧
      R (final f s is) (final g t is) := by
  induction is with
  | nil => exact fun h => ⟨.nil, h⟩
  | cons i is ih =>
    intro s t h
    obtain ⟨he, hr⟩ := hstep h (hP i List.mem_cons_self)
    obtain ⟨hes, hend⟩ := ih (fun j hj => hP j (List.mem_cons_of_mem _ hj)) hr
    exact ⟨.cons he hes, hend⟩

end Timed
