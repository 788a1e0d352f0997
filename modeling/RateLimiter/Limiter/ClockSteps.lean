import RateLimiter.Lib.Quota.Levels
import RateLimiter.Limiter.Algorithms

/-!
# The local token bucket on a clock that steps back

`apply_token_bucket` sets `last_refill_ms` to the reading it was called with, also when the clock
has stepped back.  The next forward step is then refilled although its ground was covered before, so
what flows in is the refill of all forward steps together (`climb`), not of the distance between the
first and the last reading.

How many calls are admitted is determined by the readings alone: it is the least allowance of a way
to cut the run into pieces (`admitted_le`, `exists_cut`).
-/

set_option autoImplicit false

namespace RateLimiter

open Quota

/-- One call of `apply_token_bucket`, with the state threaded through, so that calls can be run at a
list of readings. -/
def spendToken (capacity : ℤ) (rate : ℚ) (state : Option TokenBucketState) (nowMs : ℤ) :
    RateLimitComputation × Option TokenBucketState :=
  let out := applyTokenBucket nowMs state capacity rate
  (out.2, some out.1)

/-- `available_tokens`, before the request takes any: what the state holds and what has come in
since, a step back of the clock counting as no time. -/
def tokensAt (capacity : ℤ) (rate : ℚ) (state : Option TokenBucketState) (nowMs : ℤ) : ℚ :=
  let state := state.getD ⟨capacity, nowMs⟩
  min (capacity : ℚ) (state.tokens +
    ((max 0 (nowMs - state.lastRefillMs) : ℤ) : ℚ) / 1000 * rate)

/-- How far the clock moves forward, all its forward steps together. With steps back in between this
exceeds how far the readings are apart. -/
def climb : List ℤ → ℤ
  | [] => 0
  | [_] => 0
  | t :: u :: ts => max 0 (u - t) + climb (u :: ts)

/-- How far apart the readings are, the largest from the smallest, in whatever order they come. -/
def spread (ts : List ℤ) : ℤ := ts.max?.getD 0 - ts.min?.getD 0

theorem climb_append (ts : List ℤ) (t : ℤ) (us : List ℤ) :
    climb (ts ++ t :: us) = climb (ts ++ [t]) + climb (t :: us) := by
  induction ts with
  | nil => exact (zero_add _).symm
  | cons s ts ih =>
    cases ts with
    | nil =>
      show max 0 (t - s) + climb (t :: us) = max 0 (t - s) + 0 + climb (t :: us)
      rw [add_zero]
    | cons r ts =>
      show max 0 (r - s) + climb (r :: ts ++ t :: us) =
        max 0 (r - s) + climb (r :: ts ++ [t]) + climb (t :: us)
      rw [ih, add_assoc]

theorem climb_take_add_drop (ts : List ℤ) {k : ℕ} (hk : k < ts.length) :
    climb (ts.take (k + 1)) + climb (ts.drop k) = climb ts := by
  conv_rhs => rw [← List.take_append_drop k ts]
  rw [List.take_succ_eq_append_getElem hk, List.drop_eq_getElem_cons hk, ← climb_append]

theorem climb_concat (ts : List ℤ) (t u : ℤ) :
    climb (ts ++ [t] ++ [u]) = climb (ts ++ [t]) + max 0 (u - t) := by
  rw [List.append_assoc, List.singleton_append, climb_append]
  exact congrArg (climb (ts ++ [t]) + ·) (add_zero _)

section Bucket

variable {capacity : ℤ} {rate : ℚ} {state : Option TokenBucketState} {t : ℤ} {ts : List ℤ}

theorem spendToken_allowed :
    (spendToken capacity rate state t).1.allowed = true ↔ 1 ≤ tokensAt capacity rate state t :=
  decide_eq_true_iff

theorem spendToken_state :
    (spendToken capacity rate state t).2 = some ⟨tokensAt capacity rate state t -
      (if (spendToken capacity rate state t).1.allowed then 1 else 0), t⟩ := by
  show some (⟨if _ then _ else _, t⟩ : TokenBucketState) = _
  split
  · rw [if_pos ‹_›]
    rfl
  · rw [if_neg ‹_›, sub_zero]
    rfl

theorem tokensAt_nonneg (hc : 1 ≤ capacity) (hr : 0 < rate) (h : ∀ s ∈ state, 0 ≤ s.tokens) :
    0 ≤ tokensAt capacity rate state t := by
  have hc' : (1 : ℚ) ≤ capacity := by exact_mod_cast hc
  have hstate : 0 ≤ (state.getD ⟨capacity, t⟩).tokens := by
    cases state with
    | none => exact zero_le_one.trans hc'
    | some s => exact h s rfl
  have hflow :
      0 ≤ ((max 0 (t - (state.getD ⟨capacity, t⟩).lastRefillMs) : ℤ) : ℚ) / 1000 * rate := by
    have : (0 : ℚ) ≤ ((max 0 (t - (state.getD ⟨capacity, t⟩).lastRefillMs) : ℤ) : ℚ) := by
      exact_mod_cast le_max_left _ _
    positivity
  exact le_min (zero_le_one.trans hc') (add_nonneg hstate hflow)

/-- Nothing is taken from an empty bucket. -/
theorem taken_le_tokensAt (hc : 1 ≤ capacity) (hr : 0 < rate) (h : ∀ s ∈ state, 0 ≤ s.tokens) :
    (if (spendToken capacity rate state t).1.allowed then (1 : ℚ) else 0) ≤
      tokensAt capacity rate state t := by
  split
  · exact spendToken_allowed.1 ‹_›
  · exact tokensAt_nonneg hc hr h

theorem tokens_nonneg (hc : 1 ≤ capacity) (hr : 0 < rate) (ts : List ℤ) :
    ∀ s ∈ Timed.final (spendToken capacity rate) none ts, 0 ≤ s.tokens := by
  induction ts using List.reverseRecOn with
  | nil => exact fun s hs => by cases hs
  | append_singleton ts t ih =>
    intro s hs
    rw [Timed.final_concat, spendToken_state] at hs
    rw [← Option.mem_some_iff.1 hs]
    exact sub_nonneg.2 (taken_le_tokensAt hc hr ih)

theorem spendToken_levels (capacity : ℤ) (rate : ℚ) (ts : List ℤ) :
    Levels (capacity : ℚ) (fun n => (climb (ts.take (n + 1)) : ℚ) / 1000 * rate)
      (fun n => (takenBefore (spendToken capacity rate) none (·.allowed) ts n : ℚ))
      (levelAt (spendToken capacity rate) none (tokensAt capacity rate) ts) ts.length := by
  refine levels_of_run (fun us => (climb us : ℚ) / 1000 * rate) (fun t => ?_)
    (fun before t u => ?_) ts
  · show min (capacity : ℚ) (capacity + ((max 0 (t - t) : ℤ) : ℚ) / 1000 * rate) = capacity
    rw [sub_self, max_self, Int.cast_zero, zero_div, zero_mul, add_zero, min_self]
  · rw [Timed.final_concat, spendToken_state, climb_concat, Int.cast_add]
    show min (capacity : ℚ) (_ + ((max 0 (u - t) : ℤ) : ℚ) / 1000 * rate) = _
    congr 2
    ring

/-- How many calls a run admits, from a bucket without a state on. -/
def admittedCalls (capacity : ℤ) (rate : ℚ) (ts : List ℤ) : ℕ :=
  (Timed.outputs (spendToken capacity rate) none ts).countP (·.allowed)

/-- What a piece of a run may be admitted: its calls, or a full bucket and the refill of the
forward steps inside it. -/
def allowance (capacity : ℤ) (rate : ℚ) (piece : List ℤ) : ℤ :=
  min piece.length ⌊capacity + (climb piece : ℚ) / 1000 * rate⌋

theorem takenBefore_eq (ts : List ℤ) (n : ℕ) :
    takenBefore (spendToken capacity rate) none (·.allowed) ts n =
      admittedCalls capacity rate (ts.take n) := by
  rw [takenBefore, admittedCalls, Timed.take_outputs]

theorem allowance_nil (hc : 1 ≤ capacity) : allowance capacity rate [] = 0 := by
  show min 0 ⌊(capacity : ℚ) + ((0 : ℤ) : ℚ) / 1000 * rate⌋ = 0
  rw [Int.cast_zero, zero_div, zero_mul, add_zero, Int.floor_intCast]
  omega

/-- The `n`-th call takes no more than it finds. -/
theorem taken_le (hc : 1 ≤ capacity) (hr : 0 < rate) {n : ℕ} (hn : n < ts.length) :
    (takenBefore (spendToken capacity rate) none (·.allowed) ts (n + 1) : ℚ) -
        takenBefore (spendToken capacity rate) none (·.allowed) ts n ≤
      levelAt (spendToken capacity rate) none (tokensAt capacity rate) ts n := by
  rw [takenBefore_succ hn, levelAt_eq hn, Nat.cast_add, add_sub_cancel_left, Nat.cast_ite,
    Nat.cast_one, Nat.cast_zero]
  exact taken_le_tokensAt hc hr (tokens_nonneg hc hr _)

theorem admittedCalls_concat (ts : List ℤ) (t : ℤ) :
    admittedCalls capacity rate (ts ++ [t]) = admittedCalls capacity rate ts +
      if (spendToken capacity rate (Timed.final (spendToken capacity rate) none ts) t).1.allowed
        then 1 else 0 := by
  rw [admittedCalls, admittedCalls, Timed.outputs_append, List.countP_append]
  exact congrArg (_ + ·) List.countP_singleton

/-- A piece of the run is admitted no more than its allowance. -/
theorem admittedCalls_append_le (hc : 1 ≤ capacity) (hr : 0 < rate) (ts piece : List ℤ) :
    (admittedCalls capacity rate (ts ++ piece) : ℤ) ≤
      admittedCalls capacity rate ts + allowance capacity rate piece := by
  rcases eq_or_ne piece [] with rfl | hne
  · rw [List.append_nil, allowance_nil hc, add_zero]
  have hcalls : admittedCalls capacity rate (ts ++ piece) ≤
      admittedCalls capacity rate ts + piece.length := by
    rw [admittedCalls, Timed.outputs_append, List.countP_append]
    exact Nat.add_le_add_left (List.countP_le_length.trans_eq (Timed.length_outputs _ _ _)) _
  have hpos := List.length_pos_iff.2 hne
  have hlen : (ts ++ piece).length - 1 + 1 = (ts ++ piece).length := by
    rw [List.length_append]
    omega
  have hspent := (spendToken_levels capacity rate (ts ++ piece)).spent_le
    (fun n hn => taken_le hc hr hn) (n := (ts ++ piece).length - 1) (by omega) (k := ts.length)
    (by rw [List.length_append]; omega)
  have hclimb := climb_take_add_drop (ts ++ piece) (k := ts.length)
    (by rw [List.length_append]; omega)
  rw [List.drop_left] at hclimb
  rw [hlen, takenBefore_eq, takenBefore_eq, List.take_length, List.take_left, ← hclimb,
    Int.cast_add, add_div, add_mul, add_sub_cancel_left] at hspent
  have hfloor : (admittedCalls capacity rate (ts ++ piece) : ℤ) - admittedCalls capacity rate ts ≤
      ⌊capacity + (climb piece : ℚ) / 1000 * rate⌋ := by
    rw [Int.le_floor]
    push_cast
    exact hspent
  rw [allowance]
  omega

/-- **No cut of the run allows fewer calls than are admitted.** Each cut is therefore a bound. -/
theorem admitted_le (hc : 1 ≤ capacity) (hr : 0 < rate) (pieces : List (List ℤ)) :
    (admittedCalls capacity rate pieces.flatten : ℤ) ≤
      (pieces.map (allowance capacity rate)).sum := by
  induction pieces using List.reverseRecOn with
  | nil => exact le_rfl
  | append_singleton pieces piece ih =>
    rw [List.flatten_append, List.flatten_singleton, List.map_append, List.sum_append,
      List.map_singleton, List.sum_singleton]
    have := admittedCalls_append_le hc hr pieces.flatten piece
    omega

/-- A call that is turned down ends a piece with no tokens to spare. -/
theorem exists_tight_piece (before : List ℤ) (t : ℤ)
    (hd : ¬(spendToken capacity rate (Timed.final (spendToken capacity rate) none before)
      t).1.allowed) :
    ∃ k ≤ before.length, allowance capacity rate ((before ++ [t]).drop k) ≤
      admittedCalls capacity rate before - admittedCalls capacity rate (before.take k) := by
  have hlen : before.length < (before ++ [t]).length := by
    rw [List.length_append, List.length_singleton]
    omega
  have hlevel := mt spendToken_allowed.2 hd
  obtain ⟨⟨k, hk, hleft⟩, -⟩ := (spendToken_levels capacity rate (before ++ [t])).isLeast hlen
  have hclimb := climb_take_add_drop _ (hk.trans_lt hlen)
  have hall : (before ++ [t]).take (before.length + 1) = before ++ [t] :=
    List.take_of_length_le (by rw [List.length_append, List.length_singleton])
  rw [levelAt_eq hlen, leftSince, takenBefore_eq, takenBefore_eq, hall, List.take_left,
    List.take_append_of_le_length hk, List.getElem_concat_length rfl, ← hclimb, Int.cast_add,
    add_div, add_mul, add_sub_cancel_left] at hleft
  rw [hleft, not_le] at hlevel
  refine ⟨k, hk, (min_le_right _ _).trans (Int.lt_add_one_iff.1 (Int.floor_lt.2 ?_))⟩
  push_cast
  linarith

/-- **Some cut of the run allows no more calls than are admitted.**  By induction on the run: an
admitted call is a piece of its own, and a call that is turned down ends a piece with no tokens to
spare. -/
theorem exists_cut (capacity : ℤ) (rate : ℚ) (ts : List ℤ) :
    ∃ pieces : List (List ℤ), pieces.flatten = ts ∧
      (pieces.map (allowance capacity rate)).sum ≤ admittedCalls capacity rate ts := by
  induction hn : ts.length using Nat.strong_induction_on generalizing ts with
  | _ n ih =>
    rcases List.eq_nil_or_concat ts with rfl | ⟨before, t, rfl⟩
    · exact ⟨[], rfl, le_rfl⟩
    · rw [List.concat_eq_append] at hn ⊢
      have hlen : before.length < (before ++ [t]).length := by
        rw [List.length_append, List.length_singleton]
        omega
      by_cases hallowed : (spendToken capacity rate
          (Timed.final (spendToken capacity rate) none before) t).1.allowed
      · obtain ⟨pieces, rfl, hsum⟩ := ih before.length (by omega) before rfl
        refine ⟨pieces ++ [[t]], by rw [List.flatten_append, List.flatten_singleton], ?_⟩
        have hone : allowance capacity rate [t] ≤ 1 := min_le_left _ _
        rw [List.map_append, List.sum_append, List.map_singleton, List.sum_singleton,
          admittedCalls_concat, if_pos hallowed]
        omega
      · obtain ⟨k, hk, hle⟩ := exists_tight_piece before t hallowed
        obtain ⟨pieces, hpieces, hsum⟩ := ih (before.take k).length
          (by rw [List.length_take]; omega) (before.take k) rfl
        have hstart : (before ++ [t]).take k = before.take k := List.take_append_of_le_length hk
        refine ⟨pieces ++ [(before ++ [t]).drop k], ?_, ?_⟩
        · rw [List.flatten_append, List.flatten_singleton, hpieces, ← hstart, List.take_append_drop]
        · rw [List.map_append, List.sum_append, List.map_singleton, List.sum_singleton,
            admittedCalls_concat, if_neg hallowed]
          omega

end Bucket

/-- No more is admitted than a full bucket and the refill between the extreme readings. -/
def WithinSpread (capacity : ℤ) (rate : ℚ) (ts : List ℤ) : Prop :=
  (admittedCalls capacity rate ts : ℚ) ≤ capacity + rate * spread ts / 1000

instance (capacity : ℤ) (rate : ℚ) (ts : List ℤ) : Decidable (WithinSpread capacity rate ts) :=
  inferInstanceAs (Decidable (_ ≤ _))

/-- **When a clock that steps back does no harm**: exactly if the run can be cut into pieces whose
allowances come to no more than that. -/
theorem withinSpread_iff (capacity : ℤ) (rate : ℚ) (ts : List ℤ) (hc : 1 ≤ capacity)
    (hr : 0 < rate) :
    WithinSpread capacity rate ts ↔ ∃ pieces : List (List ℤ), pieces.flatten = ts ∧
      (((pieces.map (allowance capacity rate)).sum : ℤ) : ℚ) ≤
        capacity + rate * spread ts / 1000 := by
  constructor
  · intro h
    obtain ⟨pieces, hpieces, hsum⟩ := exists_cut capacity rate ts
    have hsum' : (((pieces.map (allowance capacity rate)).sum : ℤ) : ℚ) ≤
        admittedCalls capacity rate ts := by exact_mod_cast hsum
    exact ⟨pieces, hpieces, hsum'.trans h⟩
  · rintro ⟨pieces, rfl, hsum⟩
    have hle : (admittedCalls capacity rate pieces.flatten : ℚ) ≤
        ((pieces.map (allowance capacity rate)).sum : ℤ) := by
      exact_mod_cast admitted_le hc hr pieces
    exact hle.trans hsum

/-- A clock that steps back twice, and not far enough to mint a token; with the two steps undone
the same readings would have been worth as much. -/
theorem withinSpread_iff_sample :
    ∃ pieces : List (List ℤ), pieces.flatten = [1000, 2000, 1500, 1800, 1700] ∧
      (((pieces.map (allowance 1 1)).sum : ℤ) : ℚ) ≤
        (1 : ℤ) + 1 * spread [1000, 2000, 1500, 1800, 1700] / 1000 :=
  (withinSpread_iff 1 1 [1000, 2000, 1500, 1800, 1700] le_rfl one_pos).1 (by decide +kernel)

/-- A clock that goes back and forth between two readings a second apart mints a token each time:
three calls are admitted, where a bucket of one token refilled for one second has two. -/
theorem not_withinSpread_sample : ¬WithinSpread 1 1 [1000, 2000, 1000, 2000] := by decide +kernel

/-- A clock that climbs no ground twice mints nothing. -/
theorem withinSpread_of_climb_le {capacity : ℤ} {rate : ℚ} {ts : List ℤ} (hc : 1 ≤ capacity)
    (hr : 0 < rate) (hclimb : climb ts ≤ spread ts) : WithinSpread capacity rate ts := by
  have hle := admittedCalls_append_le hc hr [] ts
  have hfloor : (admittedCalls capacity rate ts : ℤ) ≤
      ⌊capacity + (climb ts : ℚ) / 1000 * rate⌋ := by
    have hnil : admittedCalls capacity rate [] = 0 := rfl
    rw [List.nil_append, hnil, Nat.cast_zero, zero_add] at hle
    exact hle.trans (min_le_right _ _)
  have hcount := Int.le_floor.1 hfloor
  have hclimb' : (climb ts : ℚ) ≤ spread ts := by exact_mod_cast hclimb
  have hflow : (climb ts : ℚ) / 1000 * rate ≤ rate * spread ts / 1000 := by
    rw [div_mul_eq_mul_div, mul_comm]
    gcongr
  rw [WithinSpread]
  push_cast at hcount
  linarith

end RateLimiter
