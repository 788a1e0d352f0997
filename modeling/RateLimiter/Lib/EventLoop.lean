import Mathlib.Algebra.BigOperators.Group.List.Basic
import Mathlib.Algebra.GroupWithZero.Nat
import Mathlib.Data.List.Sort
import Mathlib.Order.Basic

/-!
# Event loops

A discrete-event simulation keeps a queue of events and handles the least of them, turn by turn,
until none is left.  Handling an event changes the state of the simulation and may schedule further
events.  The queue of a `Config` is kept in order, so that the next event is its head.

* `loop_invariant`: what a turn keeps holds when the loop ends, and a turn may assume that the event
  it handles is the least of the queue;
* `loop_drained`: if all that an event schedules weighs less than the event, the loop empties the
  queue in as many turns as the queue weighs.
-/

set_option autoImplicit false

namespace EventLoop

variable {σ ε : Type*} [LinearOrder ε]

/-- A simulation: its state and the events still to come, the next one first. -/
structure Config (σ ε : Type*) where
  /-- What the events change. -/
  state : σ
  queue : List ε

/-- Schedule the events of a list, one after the other. -/
def push (queue : List ε) (es : List ε) : List ε :=
  es.foldl (fun queue e => queue.orderedInsert (· ≤ ·) e) queue

theorem push_perm (queue es : List ε) : (push queue es).Perm (es ++ queue) := by
  induction es generalizing queue with
  | nil => exact .refl _
  | cons e es ih =>
    refine (ih _).trans ?_
    refine ((List.perm_orderedInsert (· ≤ ·) e queue).append_left es).trans ?_
    exact List.perm_middle

@[simp] theorem mem_push {queue es : List ε} {e : ε} :
    e ∈ push queue es ↔ e ∈ es ∨ e ∈ queue := by
  rw [(push_perm queue es).mem_iff, List.mem_append]

theorem pairwise_push {queue : List ε} (h : queue.Pairwise (· ≤ ·)) (es : List ε) :
    (push queue es).Pairwise (· ≤ ·) := by
  induction es generalizing queue with
  | nil => exact h
  | cons e es ih => exact ih (h.orderedInsert e queue)

/-- Scheduling events of another kind leaves the events of a kind in their order. -/
theorem filter_push_of_forall_not {p : ε → Bool} {queue es : List ε} (h : ∀ e ∈ es, ¬p e) :
    (push queue es).filter p = queue.filter p := by
  induction es generalizing queue with
  | nil => rfl
  | cons e es ih =>
    obtain ⟨he, hes⟩ := List.forall_mem_cons.1 h
    rw [push, List.foldl_cons]
    refine (ih hes).trans ?_
    rw [List.orderedInsert_eq_take_drop, List.filter_append, List.filter_cons_of_neg he,
      ← List.filter_append, List.takeWhile_append_dropWhile]

/-- The body of a loop: from the state, the queue without the event and the event to the next state
and the events to schedule. -/
abbrev Body (σ ε : Type*) := σ → List ε → ε → σ × List ε

variable (body : Body σ ε)

/-- Handle the next event. -/
def handle (s : σ) (e : ε) (rest : List ε) : Config σ ε :=
  ⟨(body s rest e).1, push rest (body s rest e).2⟩

/-- One turn of the loop.  Nothing happens when nothing is scheduled. -/
def turn (c : Config σ ε) : Config σ ε :=
  match c.queue with
  | [] => c
  | e :: rest => handle body c.state e rest

/-- So many turns of the loop; once nothing is scheduled they change nothing, so more turns than
needed do no harm. -/
def loop : ℕ → Config σ ε → Config σ ε
  | 0, c => c
  | n + 1, c => loop n (turn body c)

variable {body}

/-- **The invariant rule.** -/
theorem loop_invariant {I : Config σ ε → Prop}
    (hstep : ∀ {s e rest}, I ⟨s, e :: rest⟩ → (∀ f ∈ rest, e ≤ f) → I (handle body s e rest))
    {c : Config σ ε} (hsorted : c.queue.Pairwise (· ≤ ·)) (h : I c) (n : ℕ) :
    I (loop body n c) := by
  induction n generalizing c with
  | zero => exact h
  | succ n ih =>
    obtain ⟨s, queue⟩ := c
    cases queue with
    | nil => exact ih hsorted h
    | cons e rest =>
      obtain ⟨hfirst, hrest⟩ := List.pairwise_cons.1 hsorted
      exact ih (pairwise_push hrest _) (hstep h hfirst)

/-- What a queue weighs. If every event weighs more than what it schedules, the loop ends. -/
def totalWeight (weight : ε → ℕ) (queue : List ε) : ℕ := (queue.map weight).sum

theorem totalWeight_push (weight : ε → ℕ) (queue es : List ε) :
    totalWeight weight (push queue es) = totalWeight weight es + totalWeight weight queue := by
  rw [totalWeight, ((push_perm queue es).map weight).sum_eq, List.map_append, List.sum_append,
    totalWeight, totalWeight]

/-- **The loop ends.** -/
theorem loop_drained (weight : ε → ℕ)
    (hbody : ∀ s rest e, totalWeight weight (body s rest e).2 < weight e) {n : ℕ}
    {c : Config σ ε} (hn : totalWeight weight c.queue ≤ n) : (loop body n c).queue = [] := by
  induction n generalizing c with
  | zero =>
    obtain ⟨s, queue⟩ := c
    cases queue with
    | nil => rfl
    | cons e rest =>
      have := hbody s rest e
      rw [totalWeight, List.map_cons, List.sum_cons] at hn
      omega
  | succ n ih =>
    obtain ⟨s, queue⟩ := c
    refine ih ?_
    cases queue with
    | nil => exact Nat.zero_le n
    | cons e rest =>
      have := hbody s rest e
      show totalWeight weight (push rest (body s rest e).2) ≤ n
      rw [totalWeight_push]
      rw [totalWeight, List.map_cons, List.sum_cons, ← totalWeight] at hn
      omega

end EventLoop
