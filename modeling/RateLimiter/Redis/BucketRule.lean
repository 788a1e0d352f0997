import RateLimiter.Lib.Quota.Levels
import RateLimiter.Redis.Scripts

/-!
# The admission rule of the Redis token bucket

`TOKEN_BUCKET_LUA` run again and again on one key, with whatever `TIME` returns.  The script counts
elapsed time from the latest reading it has seen, so what has flowed in is the refill up to the
running maximum of the readings (`latest`), and the levels of its bucket are those of
`Quota.Levels`.  A request is admitted exactly if no past stretch of readings forbids it
(`token_bucket_admits_iff`).
-/

set_option autoImplicit false

namespace RateLimiter

open Quota

/-- One run of the script for one token, while no key expires. -/
def takeToken (key : String) (capacity : ℤ) (refillPerMs : ℚ) (ttlMs : ℤ) (ks : Keyspace)
    (t : RedisTime) : Except RedisError Reply × Keyspace :=
  eval .ignored t (tokenBucketLua key capacity refillPerMs 1 ttlMs) ks

/-- The reply admits the request. An error admits nobody. -/
def granted : Except RedisError Reply → Bool
  | .ok r => r.allowed = 1
  | .error _ => false

/-- The latest of some readings. -/
def latest (ts : List RedisTime) : ℤ := ts.foldl (fun m t => max m (t.ms : ℤ)) 0

theorem latest_concat (ts : List RedisTime) (t : RedisTime) :
    latest (ts ++ [t]) = max (latest ts) t.ms :=
  List.foldl_concat ..

/-! ## The two fields of the hash -/

/-- The script as a function of the two fields of its hash, without keys and deadlines. -/
def drawToken (capacity : ℤ) (refillPerMs : ℚ) (st : Option (ℚ × ℤ)) (t : RedisTime) :
    Reply × Option (ℚ × ℤ) :=
  (tokenBucketReply capacity refillPerMs 1 t.ms (availableTokens capacity refillPerMs t st),
    some (tokensLeft 1 (availableTokens capacity refillPerMs t st), refillStamp t st))

section Draw

variable {capacity : ℤ} {refillPerMs : ℚ} {st : Option (ℚ × ℤ)} {t : RedisTime}
  {ts : List RedisTime}

theorem drawToken_allowed :
    (drawToken capacity refillPerMs st t).1.allowed = 1 ↔
      1 ≤ availableTokens capacity refillPerMs t st := by
  show (if 1 ≤ _ then (1 : ℤ) else 0) = 1 ↔ _
  split
  · exact iff_of_true rfl ‹_›
  · exact iff_of_false (by decide) ‹_›

/-- The bucket neither overflows nor goes below zero, if it has a state at all. -/
def InRange (capacity : ℤ) (st : Option (ℚ × ℤ)) : Prop := ∀ p ∈ st, 0 ≤ p.1 ∧ p.1 ≤ capacity

theorem InRange.available (h : InRange capacity st) (hc : 1 ≤ capacity) (hr : 0 < refillPerMs) :
    0 ≤ availableTokens capacity refillPerMs t st ∧
      availableTokens capacity refillPerMs t st ≤ capacity := by
  have hc' : (1 : ℚ) ≤ capacity := by exact_mod_cast hc
  cases st with
  | none =>
    simp only [availableTokens, refilledTokens, Option.map_none, Option.getD_none, lt_irrefl,
      if_false, le_refl, and_true]
    linarith
  | some p =>
    obtain ⟨h0, hle⟩ := h p rfl
    simp only [availableTokens, refilledTokens, Option.map_some, Option.getD_some]
    split
    · have hflow : 0 ≤ (((t.ms : ℤ) - p.2 : ℤ) : ℚ) * refillPerMs :=
        mul_nonneg (by exact_mod_cast by omega) hr.le
      exact ⟨le_min (by linarith) (by linarith), min_le_left _ _⟩
    · exact ⟨h0, hle⟩

theorem InRange.draw (h : InRange capacity st) (hc : 1 ≤ capacity) (hr : 0 < refillPerMs) :
    InRange capacity (drawToken capacity refillPerMs st t).2 := by
  obtain ⟨h0, hle⟩ := h.available hc hr (t := t)
  intro p hp
  rw [← Option.mem_some_iff.1 hp, tokensLeft]
  split
  · constructor <;> linarith
  · exact ⟨h0, hle⟩

theorem inRange_final (hc : 1 ≤ capacity) (hr : 0 < refillPerMs) (ts : List RedisTime) :
    InRange capacity (Timed.final (drawToken capacity refillPerMs) none ts) := by
  induction ts using List.reverseRecOn with
  | nil => exact fun p hp => by cases hp
  | append_singleton ts t ih =>
    rw [Timed.final_concat]
    exact ih.draw hc hr

/-- `last_refill_ms` is the latest reading so far. -/
theorem refillStamp_final (ts : List RedisTime) (t : RedisTime) :
    refillStamp t (Timed.final (drawToken capacity refillPerMs) none ts) = latest (ts ++ [t]) := by
  induction ts using List.reverseRecOn generalizing t with
  | nil =>
    show max (t.ms : ℤ) t.ms = max 0 t.ms
    omega
  | append_singleton ts u ih =>
    rw [Timed.final_concat, latest_concat, ← ih]
    exact max_comm _ _

/-- From one run to the next the bucket gives a token, if it did, and fills up. -/
theorem availableTokens_next (hc : 1 ≤ capacity) (hr : 0 < refillPerMs) (before : List RedisTime)
    (t u : RedisTime) :
    let st := Timed.final (drawToken capacity refillPerMs) none before
    availableTokens capacity refillPerMs u
        (Timed.final (drawToken capacity refillPerMs) none (before ++ [t])) =
      min (capacity : ℚ) (availableTokens capacity refillPerMs t st -
        (if (drawToken capacity refillPerMs st t).1.allowed = 1 then 1 else 0) +
          (refillPerMs * latest (before ++ [t] ++ [u]) -
            refillPerMs * latest (before ++ [t]))) := by
  intro st
  have hleft : tokensLeft 1 (availableTokens capacity refillPerMs t st) =
      availableTokens capacity refillPerMs t st -
        if (drawToken capacity refillPerMs st t).1.allowed = 1 then 1 else 0 := by
    simp only [tokensLeft, drawToken_allowed]
    split
    · rfl
    · rw [sub_zero]
  have hrange := (inRange_final hc hr before).draw hc hr (t := t) _ rfl
  have hstamp : refillStamp t st = latest (before ++ [t]) := refillStamp_final before t
  rw [Timed.final_concat, latest_concat (before ++ [t]), ← hstamp, ← hleft]
  show refilledTokens capacity refillPerMs u.ms (tokensLeft 1 _) (refillStamp t st) = _
  rw [refilledTokens]
  split
  · rw [max_eq_right (by omega)]
    push_cast
    congr 2
    ring
  · rw [max_eq_left (by omega), sub_self, add_zero, min_eq_right hrange.2]

theorem drawToken_levels (hc : 1 ≤ capacity) (hr : 0 < refillPerMs) (ts : List RedisTime) :
    Levels (capacity : ℚ) (fun n => refillPerMs * latest (ts.take (n + 1)))
      (fun n =>
        (takenBefore (drawToken capacity refillPerMs) none (fun r => r.allowed = 1) ts n : ℚ))
      (levelAt (drawToken capacity refillPerMs) none
        (fun st t => availableTokens capacity refillPerMs t st) ts) ts.length := by
  refine levels_of_run (fun us => refillPerMs * latest us) (fun t => ?_) (fun before t u => ?_) ts
  · exact if_neg (lt_irrefl _)
  · simpa only [decide_eq_true_eq] using availableTokens_next hc hr before t u

end Draw

section Rule

variable {key : String} {capacity ttlMs : ℤ} {refillPerMs : ℚ} {ks : Keyspace}

/-- The key holds these fields. -/
def HoldsFields (key : String) (ks : Keyspace) (st : Option (ℚ × ℤ)) : Prop :=
  ∃ d, ks key = bucketEntry st d

theorem HoldsFields.step {st : Option (ℚ × ℤ)} {t : RedisTime} (h : HoldsFields key ks st) :
    (takeToken key capacity refillPerMs ttlMs ks t).1 =
        .ok (drawToken capacity refillPerMs st t).1 ∧
      HoldsFields key (takeToken key capacity refillPerMs ttlMs ks t).2
        (drawToken capacity refillPerMs st t).2 := by
  obtain ⟨d, hd⟩ := h
  rw [takeToken, eval, purge, tokenBucketLua_run hd (Or.inl rfl)]
  exact ⟨rfl, _, Function.update_self ..⟩

/-- The script on the keyspace is `drawToken` on the fields. -/
theorem takeToken_simulates (hks : ks key = none) (ts : List RedisTime) :
    List.Forall₂ (fun out r => out = .ok r)
        (Timed.outputs (takeToken key capacity refillPerMs ttlMs) ks ts)
        (Timed.outputs (drawToken capacity refillPerMs) none ts) ∧
      HoldsFields key (Timed.final (takeToken key capacity refillPerMs ttlMs) ks ts)
        (Timed.final (drawToken capacity refillPerMs) none ts) :=
  Timed.simulation_of_step (f := takeToken key capacity refillPerMs ttlMs)
    (g := drawToken capacity refillPerMs) (E := fun out r => out = .ok r) (R := HoldsFields key)
    (fun h _ => h.step) (fun _ _ => trivial) ⟨none, hks⟩

theorem takeToken_outputs (hks : ks key = none) (ts : List RedisTime) :
    Timed.outputs (takeToken key capacity refillPerMs ttlMs) ks ts =
      (Timed.outputs (drawToken capacity refillPerMs) none ts).map .ok := by
  rw [← List.forall₂_eq_eq_eq, List.forall₂_map_right_iff]
  exact (takeToken_simulates hks ts).1

/-- How many of the runs from `k` to before `n` admitted their request. -/
def grantsBetween (outs : List (Except RedisError Reply)) (k n : ℕ) : ℕ :=
  ((outs.take n).drop k).countP granted

theorem grantsBetween_add {outs : List (Except RedisError Reply)} {k n : ℕ} (hk : k ≤ n) :
    (outs.take k).countP granted + grantsBetween outs k n = (outs.take n).countP granted := by
  rw [grantsBetween, ← List.countP_append]
  conv_rhs => rw [← List.take_append_drop k (outs.take n), List.take_take, min_eq_left hk]

/-- **The admission rule of the token bucket.**  A run is admitted exactly if no stretch of runs up
to it would have had more than its refill and a full bucket; and the tokens stay within the
capacity. -/
theorem token_bucket_admits_iff (key : String) (capacity ttlMs : ℤ) (refillPerMs : ℚ)
    (ks : Keyspace) (ts : List RedisTime) (hc : 1 ≤ capacity) (hr : 0 < refillPerMs)
    (hks : ks key = none) :
    let outs := Timed.outputs (takeToken key capacity refillPerMs ttlMs) ks ts
    (∀ i < ts.length, ∃ r, outs[i]? = some (.ok r) ∧
      (r.allowed = 1 ↔ ∀ k ≤ i, (grantsBetween outs k i : ℚ) + 1 ≤ capacity +
        refillPerMs * (latest (ts.take (i + 1)) - latest (ts.take (k + 1))))) ∧
    ∀ n tokens last d, Timed.final (takeToken key capacity refillPerMs ttlMs) ks (ts.take n) key =
      some ⟨.hash tokens last, d⟩ → 0 ≤ tokens ∧ tokens ≤ capacity := by
  intro outs
  have houts : outs = (Timed.outputs (drawToken capacity refillPerMs) none ts).map .ok :=
    takeToken_outputs hks ts
  constructor
  · intro i hi
    refine ⟨(drawToken capacity refillPerMs (Timed.final (drawToken capacity refillPerMs) none
      (ts.take i)) ts[i]).1, ?_, ?_⟩
    · rw [houts, List.getElem?_map, Timed.getElem?_outputs, List.getElem?_eq_getElem hi]
      rfl
    · have htaken : ∀ n, takenBefore (drawToken capacity refillPerMs) none
          (fun r => r.allowed = 1) ts n = (outs.take n).countP granted := by
        intro n
        rw [houts, ← List.map_take, List.countP_map]
        rfl
      have hlevel := (drawToken_levels hc hr ts).le_iff hi 1
      rw [levelAt_eq hi] at hlevel
      rw [drawToken_allowed, hlevel]
      refine forall₂_congr fun k hk => ?_
      rw [htaken, htaken, ← grantsBetween_add hk, Nat.cast_add, add_sub_cancel_left, mul_sub,
        add_comm]
  · intro n tokens last d hfinal
    obtain ⟨d', hd⟩ := (takeToken_simulates hks (ts.take n)).2
    have hrange := inRange_final hc hr (ts.take n)
    rw [hfinal] at hd
    generalize Timed.final (drawToken capacity refillPerMs) none (ts.take n) = st at hd hrange
    cases st with
    | none => cases hd
    | some p =>
      cases hd
      exact hrange _ rfl

end Rule

/-- A clock that steps back gives nothing, and two seconds later there is a token again. -/
theorem token_bucket_admits_iff_sample :
    let ts : List RedisTime := [.atSecond 10, .atSecond 10, .atSecond 9, .atSecond 11]
    let outs := Timed.outputs (takeToken "k" 2 (1 / 1000) 60000) .empty ts
    outs.map granted = [true, true, false, true] ∧
      ∃ r, outs[3]? = some (.ok r) ∧ (r.allowed = 1 ↔ ∀ k ≤ 3, (grantsBetween outs k 3 : ℚ) + 1 ≤
        (2 : ℤ) + 1 / 1000 * (latest (ts.take 4) - latest (ts.take (k + 1)))) :=
  ⟨by decide +kernel, (token_bucket_admits_iff "k" 2 60000 (1 / 1000) .empty _ (by decide)
    (by norm_num) rfl).1 3 (by decide)⟩

end RateLimiter
