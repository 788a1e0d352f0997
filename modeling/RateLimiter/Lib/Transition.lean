import Mathlib.Order.Basic
import Mathlib.Tactic.Common

/-!
# Runs of a transition system

A transition system here is a partial function `step : σ → ε → Option σ`: in a state an event can
happen, and leads to one state, or it cannot.  A run is a list of events that can happen one after
the other; what is interleaved in it is the business of the events.

* `run_invariant`: what every step keeps holds after every run;
* `run_invariant_of_each`: what the steps meeting a condition keep holds after every run whose steps
  all meet it;
* `run_simulation`: if every step maps to a step of another system, or to nothing, a run maps to a
  run;
* `Reaches`: one state leads to another by steps meeting a condition;
* `always_iff_each`: if a step keeps a property exactly when it meets a condition, a run keeps it
  throughout exactly when all its steps meet the condition.
-/

set_option autoImplicit false

namespace Transition

variable {σ ε : Type*} (step : σ → ε → Option σ)

/-- The state a list of events leads to, if each of them can happen. -/
def run : σ → List ε → Option σ
  | s, [] => some s
  | s, e :: es => (step s e).bind fun s' => run s' es

/-- Every event of the list that happens does so in a state in which `P` allows it. -/
def Each (P : σ → ε → Prop) : σ → List ε → Prop
  | _, [] => True
  | s, e :: es => ∀ s', step s e = some s' → P s e ∧ Each P s' es

/-- Every state on the way satisfies `Q`, the first and the last one included; events that cannot
happen end the run. -/
def Always (Q : σ → Prop) : σ → List ε → Prop
  | s, [] => Q s
  | s, e :: es => Q s ∧ ∀ s', step s e = some s' → Always Q s' es

variable {step} {s s' : σ} {e : ε} {es : List ε} {P : σ → ε → Prop} {Q I : σ → Prop}

theorem run_cons_eq_some :
    run step s (e :: es) = some s' ↔ ∃ u, step s e = some u ∧ run step u es = some s' :=
  Option.bind_eq_some_iff

/-- A condition on a run in two parts. -/
theorem each_append {es' : List ε} : Each step P s (es ++ es') ↔
    Each step P s es ∧ ∀ s', run step s es = some s' → Each step P s' es' := by
  induction es generalizing s with
  | nil => exact ⟨fun h => ⟨trivial, fun s' hs => Option.some_inj.1 hs ▸ h⟩, fun h => h.2 s rfl⟩
  | cons e es ih =>
    constructor
    · refine fun h => ⟨fun u hu => ⟨(h u hu).1, (ih.1 (h u hu).2).1⟩, fun s' hs => ?_⟩
      obtain ⟨u, hu, hr⟩ := run_cons_eq_some.1 hs
      exact (ih.1 (h u hu).2).2 s' hr
    · exact fun h u hu => ⟨(h.1 u hu).1,
        ih.2 ⟨(h.1 u hu).2, fun s' hs => h.2 s' (run_cons_eq_some.2 ⟨u, hu, hs⟩)⟩⟩

theorem run_append {es' : List ε} {u : σ} (h : run step s es = some u) :
    run step s (es ++ es') = run step u es' := by
  induction es generalizing s with
  | nil => rw [List.nil_append, Option.some_inj.1 h]
  | cons e es ih =>
    obtain ⟨v, hv, hr⟩ := run_cons_eq_some.1 h
    rw [List.cons_append, run, hv, Option.bind_some, ih hr]

instance decidableEach [∀ s e, Decidable (P s e)] :
    (s : σ) → (es : List ε) → Decidable (Each step P s es)
  | _, [] => .isTrue trivial
  | s, e :: es => match hs : step s e with
    | none => .isTrue fun s' hs' => by rw [hs] at hs'; cases hs'
    | some u =>
      have : Decidable (Each step P u es) := decidableEach u es
      decidable_of_iff (P s e ∧ Each step P u es)
        ⟨fun h s' hs' => by rw [hs, Option.some_inj] at hs'; exact hs' ▸ h, fun h => h u hs⟩

variable (step P) in
/-- Events that `P` allows lead from `s` to `s'`: an invariant has to hold only of steps that do. -/
def Reaches (s s' : σ) : Prop := ∃ es, run step s es = some s' ∧ Each step P s es

theorem Reaches.refl (s : σ) : Reaches step P s s := ⟨[], rfl, trivial⟩

theorem Reaches.of_step (hs : step s e = some s') (he : P s e) : Reaches step P s s' := by
  refine ⟨[e], by rw [run, hs]; rfl, fun u hu => ⟨he, trivial⟩⟩

theorem Reaches.trans {u : σ} (h : Reaches step P s u) (h' : Reaches step P u s') :
    Reaches step P s s' := by
  obtain ⟨es, hr, hes⟩ := h
  obtain ⟨es', hr', hes'⟩ := h'
  refine ⟨es ++ es', (run_append hr).trans hr', each_append.2 ⟨hes, fun v hv => ?_⟩⟩
  rwa [← Option.some_inj.1 (hr.symm.trans hv)]

/-- **The invariant rule under a condition.** -/
theorem run_invariant_of_each
    (hstep : ∀ {s e s'}, I s → P s e → step s e = some s' → I s') (h : I s)
    (hP : Each step P s es) (hr : run step s es = some s') : I s' := by
  induction es generalizing s with
  | nil =>
    cases hr
    exact h
  | cons e es ih =>
    obtain ⟨u, hu, hr'⟩ := run_cons_eq_some.1 hr
    obtain ⟨he, hes⟩ := hP u hu
    exact ih (hstep h he hu) hes hr'

/-- A run that can be executed, and what holds of its outcome. -/
theorem exists_run_of_isSome (h : (run step s es).isSome = true)
    (hQ : ∀ s', run step s es = some s' → Q s') : ∃ s', run step s es = some s' ∧ Q s' := by
  obtain ⟨s', hs'⟩ := Option.isSome_iff_exists.1 h
  exact ⟨s', hs', hQ s' hs'⟩

theorem each_true : Each step (fun _ _ => True) s es := by
  induction es generalizing s with
  | nil => trivial
  | cons e es ih => exact fun _ _ => ⟨trivial, ih⟩

/-- **The invariant rule.** What holds at first and is kept by every step holds of all states of a
run. -/
theorem run_invariant (hstep : ∀ {s e s'}, I s → step s e = some s' → I s') (h : I s)
    (hr : run step s es = some s') : I s' :=
  run_invariant_of_each (P := fun _ _ => True) (fun hi _ hs => hstep hi hs) h each_true hr

/-- What the events that `P` allows keep holds where they lead. -/
theorem Reaches.invariant (hr : Reaches step P s s')
    (hstep : ∀ {s e s'}, I s → P s e → step s e = some s' → I s') (h : I s) : I s' := by
  obtain ⟨es, hr, hes⟩ := hr
  exact run_invariant_of_each hstep h hes hr

theorem Always.head (h : Always step Q s es) : Q s := by
  cases es with
  | nil => exact h
  | cons e es => exact h.1

theorem Always.mono {Q' : σ → Prop} (h : Always step Q s es) (hQ : ∀ s, Q s → Q' s) :
    Always step Q' s es := by
  induction es generalizing s with
  | nil => exact hQ s h
  | cons e es ih => exact ⟨hQ s h.1, fun s' hs => ih (h.2 s' hs)⟩

/-- **The exact condition.**  If, as far as `I` holds, a step keeps `Q` exactly when `P` allows
it, then `Q` holds throughout a run exactly when `P` allows each of its steps. -/
theorem always_iff_each
    (hinv : ∀ {s e s'}, I s → Q s → step s e = some s' → Q s' → I s')
    (hstep : ∀ {s e s'}, I s → Q s → step s e = some s' → (Q s' ↔ P s e)) (h : I s) (hQ : Q s) :
    Always step Q s es ↔ Each step P s es := by
  induction es generalizing s with
  | nil => exact ⟨fun _ => trivial, fun _ => hQ⟩
  | cons e es ih =>
    constructor
    · rintro ⟨-, htail⟩ s' hs
      have hQ' := (htail s' hs).head
      exact ⟨(hstep h hQ hs).1 hQ', (ih (hinv h hQ hs hQ') hQ').1 (htail s' hs)⟩
    · intro heach
      refine ⟨hQ, fun s' hs => ?_⟩
      obtain ⟨hP, htail⟩ := heach s' hs
      have hQ' := (hstep h hQ hs).2 hP
      exact (ih (hinv h hQ hs hQ') hQ').2 htail

/-- **A functional refinement lifts to runs.**  Every step of the one system is a step of the other
between the states it is mapped to, or nothing.  A step may count on what the run leads to. -/
theorem run_simulation {τ ε' : Type*} {step' : τ → ε' → Option τ} (abs : σ → τ) {final : σ}
    (hinv : ∀ {s e s'}, I s → P s e → step s e = some s' → I s')
    (hstep : ∀ {s e s'}, I s → P s e → step s e = some s' →
      (∃ es, run step s' es = some final) → abs s' = abs s ∨ ∃ e', step' (abs s) e' = some (abs s'))
    (h : I s) (hP : Each step P s es) (hr : run step s es = some final) :
    ∃ es', run step' (abs s) es' = some (abs final) := by
  induction es generalizing s with
  | nil =>
    cases hr
    exact ⟨[], rfl⟩
  | cons e es ih =>
    obtain ⟨u, hu, hr'⟩ := run_cons_eq_some.1 hr
    obtain ⟨he, hes⟩ := hP u hu
    obtain ⟨es', hes'⟩ := ih (hinv h he hu) hes hr'
    rcases hstep h he hu ⟨es, hr'⟩ with habs | ⟨e', he'⟩
    · exact ⟨es', by rw [← habs, hes']⟩
    · exact ⟨e' :: es', run_cons_eq_some.2 ⟨_, he', hes'⟩⟩

/-! ## Records of calls

The state of a system often keeps a record for each call, by number. -/

/-- After the record of call `n` was written, a record is that one or an old one. -/
theorem mem_update_some {ι α : Type*} [DecidableEq ι] {f : ι → Option α} {n m : ι} {a b : α}
    (h : b ∈ Function.update f n (some a) m) : m = n ∧ b = a ∨ b ∈ f m := by
  rcases eq_or_ne m n with rfl | hne
  · rw [Function.update_self, Option.mem_def, Option.some_inj] at h
    exact Or.inl ⟨rfl, h.symm⟩
  · rw [Function.update_of_ne hne] at h
    exact Or.inr h

end Transition
