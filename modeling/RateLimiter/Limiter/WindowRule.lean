import RateLimiter.Lib.Quota.Forecast
import RateLimiter.Limiter.Agreement
import RateLimiter.Redis.BucketRule

/-!
# The admission rule of the Redis window scripts

`FIXED_WINDOW_LUA` and `SLIDING_WINDOW_LOG_LUA` with any limit and any window, run again and again
on one key.  Neither stores its admissions: the counter of a window counts the calls it turned down
as well, and the log is pruned on every call.  Still each turns a call down exactly if `limit` of
the earlier calls in its window were admitted (`window_scripts_deny_iff`).

The name of a counter ends in the start of its window as Lua prints it, with fourteen significant
digits.  Two windows whose starts agree in these share a counter, so for fixed windows the rule
needs that the starts of the run print apart (`PrintsApart`).
-/

set_option autoImplicit false

namespace RateLimiter

open Quota

/-- One run of `FIXED_WINDOW_LUA` at the `TIME` it reads, while no key expires. -/
def countRequest (key : String) (limit windowMs : ℤ) (ks : Keyspace) (t : RedisTime) :
    Except RedisError Reply × Keyspace :=
  eval .ignored t (fixedWindowLua key limit windowMs) ks

/-- One run of `SLIDING_WINDOW_LOG_LUA` at the `TIME` it reads, while no key expires. -/
def logRequest (key : String) (limit windowMs : ℤ) (ks : Keyspace) (c : Call) :
    Except RedisError Reply × Keyspace :=
  eval .ignored c.time (slidingWindowLogLua key limit windowMs c.member) ks

/-- The times of the admitted calls of a run; a call that raises is not admitted. -/
def admissions {ι : Type} (time : ι → RedisTime) (trace : List (ι × Except RedisError Reply)) :
    List ℤ :=
  (trace.filter fun e => granted e.2).map fun e => ((time e.1).ms : ℤ)

/-- The call is answered, and turned down exactly if `p`. -/
def DeniedIff (out : Except RedisError Reply) (p : Prop) : Prop :=
  ∃ r, out = .ok r ∧ (r.allowed = 0 ↔ p)

/-- Lua prints different starts of windows differently. Numbers of more than fourteen digits are
rounded, so that keys of later windows may coincide. -/
def PrintsApart (windowMs : ℤ) (ts : List RedisTime) : Prop :=
  ∀ t ∈ ts, ∀ u ∈ ts, Lua.toString (windowStart windowMs t.ms).toNat =
    Lua.toString (windowStart windowMs u.ms).toNat →
      windowStart windowMs t.ms = windowStart windowMs u.ms

variable {key : String} {limit windowMs : ℤ} {ks : Keyspace} {t u : RedisTime} {h : List ℤ}

/-! ## The history of a run -/

/-- The ideal rule's history is the list of admissions. -/
theorem final_eq_admissions {σ ι : Type} (time : ι → RedisTime)
    {f : σ → ι → Except RedisError Reply × σ} {step : List ℤ → ι → Verdict × List ℤ}
    (hstep : ∀ h i, (step h i).2 = if (step h i).1.allowed then h ++ [((time i).ms : ℤ)] else h)
    {is : List ι} : ∀ {s : σ} {h : List ℤ},
      List.Forall₂ (fun out v => granted out = v.allowed) (Timed.outputs f s is)
        (Timed.outputs step h is) →
      Timed.final step h is = h ++ admissions time (Timed.trace f s is) := by
  induction is with
  | nil => exact fun _ => (List.append_nil _).symm
  | cons i is ih =>
    intro s h hout
    obtain ⟨hi, his⟩ := List.forall₂_cons.1 hout
    have htail := ih his
    show Timed.final step (step h i).2 is = _
    rw [htail, hstep, ← hi]
    show _ = h ++ (List.filter _ ((i, (f s i).1) :: Timed.trace f (f s i).2 is)).map _
    rw [List.filter_cons]
    split
    · rw [List.append_assoc, admissions]
      rfl
    · rfl

/-- The reply carries the verdict's decision. -/
def Shows (out : Except RedisError Reply) (v : Verdict) : Prop :=
  ∃ r, out = .ok r ∧ r.allowed = if v.allowed then 1 else 0

theorem Shows.granted_eq {out : Except RedisError Reply} {v : Verdict} (h : Shows out v) :
    granted out = v.allowed := by
  obtain ⟨r, rfl, hr⟩ := h
  rw [granted, hr]
  cases v.allowed <;> rfl

theorem Shows.deniedIff {out : Except RedisError Reply} {v : Verdict} {p : Prop} (h : Shows out v)
    (hp : v.allowed = false ↔ p) : DeniedIff out p := by
  obtain ⟨r, rfl, hr⟩ := h
  refine ⟨r, rfl, ?_⟩
  rw [hr, ← hp]
  cases v.allowed <;> decide

/-! ## Fixed windows -/

/-- One call of the script, on the counter of a window with `used` admissions. -/
theorem CounterShows.run {used : ℤ} (hl : 1 ≤ limit)
    (hcell : CounterShows .ignored limit 0 (ks (counterKey key windowMs t.ms)) used) :
    ∃ r e, countRequest key limit windowMs ks t =
        (.ok r, Function.update ks (counterKey key windowMs t.ms) e) ∧
      r.allowed = (if used < limit then 1 else 0) ∧
      CounterShows .ignored limit 0 e (if used < limit then used + 1 else used) := by
  generalize hk : ks (counterKey key windowMs t.ms) = e at hcell
  cases hcell with
  | absent =>
    refine ⟨_, _, fixedWindowLua_run_fresh hk (Or.inl rfl), ?_, ?_⟩
    · rw [if_pos (by omega)]
      exact if_pos hl
    · rw [if_pos (by omega), show (0 : ℤ) + 1 = min 1 limit by omega]
      exact .counts one_pos fun hx => by cases hx
  | @counts n d pos covers =>
    refine ⟨_, _, fixedWindowLua_run_counter pos hk, ?_, ?_⟩
    · show (if n + 1 ≤ limit then (1 : ℤ) else 0) = _
      split <;> split <;> omega
    · have hnext : (if min n limit < limit then min n limit + 1 else min n limit) =
          min (n + 1) limit := by
        split <;> omega
      rw [hnext]
      exact .counts (by omega) fun hx => by cases hx

/-- The counters show the ideal rule's history, as far as the windows of the run go. -/
structure CountersShow (key : String) (limit windowMs : ℤ) (run : List RedisTime) (ks : Keyspace)
    (h : List ℤ) : Prop where
  /-- The counter of each window. -/
  counter : ∀ u ∈ run, CounterShows .ignored limit 0 (ks (counterKey key windowMs u.ms))
    (FixedWindow.used windowMs h u.ms)
  /-- No window is overfull. -/
  bounded : FixedWindow.Bounded limit windowMs h

theorem CountersShow.step {run : List RedisTime} (hl : 1 ≤ limit) (hW : 1 ≤ windowMs)
    (hp : PrintsApart windowMs run) (hc : CountersShow key limit windowMs run ks h) (ht : t ∈ run) :
    Shows (countRequest key limit windowMs ks t).1 (FixedWindow.step limit windowMs h t.ms).1 ∧
      CountersShow key limit windowMs run (countRequest key limit windowMs ks t).2
        (FixedWindow.step limit windowMs h t.ms).2 := by
  obtain ⟨r, e, hrun, hr, he⟩ := (hc.counter t ht).run hl
  rw [hrun]
  refine ⟨⟨r, rfl, ?_⟩, fun u hu => ?_, hc.bounded.step hW⟩
  · rw [hr]
    rcases lt_or_ge (FixedWindow.used windowMs h t.ms) limit with hu | hu
    · rw [FixedWindow.step_of_lt hu, if_pos hu]
      rfl
    · rw [FixedWindow.step_of_ge hu, if_neg (not_lt.2 hu)]
      rfl
  · show CounterShows .ignored limit 0 (Function.update ks (counterKey key windowMs t.ms) e
      (counterKey key windowMs u.ms)) _
    rw [FixedWindow.used_step hW]
    by_cases hs : FixedWindow.start windowMs t.ms = FixedWindow.start windowMs u.ms
    · have hkey : counterKey key windowMs u.ms = counterKey key windowMs t.ms :=
        congrArg (fun n : ℤ => windowKey key n.toNat) hs.symm
      rw [hkey, Function.update_self]
      simpa [hs, FixedWindow.used_congr h hs] using he
    · have hkey : counterKey key windowMs u.ms ≠ counterKey key windowMs t.ms := fun hk =>
        hs (hp t ht u hu ((String.append_right_inj _).1 hk).symm)
      rw [Function.update_of_ne hkey, if_neg fun hh => hs hh.1]
      exact hc.counter u hu

theorem fixedWindow_denied_iff (hl : 1 ≤ limit) (hW : 1 ≤ windowMs) {before : List RedisTime}
    (hks : ∀ n, ks (windowKey key n) = none) (hp : PrintsApart windowMs (before ++ [t])) :
    let f := countRequest key limit windowMs
    DeniedIff (f (Timed.final f ks before) t).1
      (FixedWindow.used windowMs (admissions id (Timed.trace f ks before)) t.ms = limit) := by
  intro f
  have hstart : CountersShow key limit windowMs (before ++ [t]) ks [] := by
    refine ⟨fun u _ => ?_, FixedWindow.bounded_nil (by omega)⟩
    rw [counterKey, hks]
    exact .absent
  obtain ⟨houts, hend⟩ := Timed.simulation_of_step (f := f)
    (g := fun h (t : RedisTime) => FixedWindow.step limit windowMs h t.ms) (E := Shows)
    (P := (· ∈ before ++ [t])) (fun hc ht => hc.step hl hW hp ht)
    (fun u hu => List.mem_append_left [t] hu) hstart
  have hadmitted := final_eq_admissions id
    (fun h (t : RedisTime) => FixedWindow.step_snd limit windowMs h t.ms)
    (houts.imp fun _ _ h => h.granted_eq)
  rw [List.nil_append] at hadmitted
  rw [hadmitted] at hend
  refine (hend.step hl hW hp (t := t) (by simp)).1.deniedIff ?_
  have hle := hend.bounded.used_le t.ms
  rw [← Bool.not_eq_true, FixedWindow.allowed_iff, FixedWindow.available]
  omega

/-! ## The sliding log -/

/-- The log shows the ideal rule's history: what both of them count is the same from now on. -/
structure LogShowsHistory (key : String) (limit windowMs : ℤ) (members : List String) (now : ℤ)
    (ks : Keyspace) (h : List ℤ) : Prop where
  /-- The sorted set under the key. -/
  log : ∃ ms d, ks key = zentry ms d ∧ LogShows .ignored windowMs members now ms d h
  /-- No window is overfull. -/
  bounded : SlidingLog.Bounded limit windowMs h
  /-- Admissions lie in the past. -/
  past : ∀ s ∈ h, s ≤ now

variable {members : List String} {now : ℤ} {c : Call}

theorem LogShowsHistory.step (hs : LogShowsHistory key limit windowMs members now ks h)
    (hst : now ≤ c.time.ms) (hm : c.member ∉ members) :
    Shows (logRequest key limit windowMs ks c).1 (SlidingLog.step limit windowMs h c.time.ms).1 ∧
      LogShowsHistory key limit windowMs (c.member :: members) c.time.ms
        (logRequest key limit windowMs ks c).2 (SlidingLog.step limit windowMs h c.time.ms).2 := by
  obtain ⟨ms, d, hk, hl⟩ := hs.log
  have hl := hl.later hst
  have hlen := length_prunedLog hl
  have hpast : ∀ s ∈ h, s ≤ c.time.ms := fun s hmem => (hs.past s hmem).trans hst
  rcases lt_or_ge ((prunedLog windowMs c.time ms).length : ℤ) limit with hc | hc
  · have hbounded := hs.bounded.step (t := c.time.ms)
    rw [SlidingLog.step_of_lt (by omega)] at hbounded ⊢
    have hrun : logRequest key limit windowMs ks c = _ :=
      slidingWindowLogLua_run_allowed hk hc (Or.inl rfl)
    rw [hrun]
    refine ⟨⟨_, rfl, rfl⟩, ⟨extendedLog windowMs c.time c.member ms,
      zexpiry (prunedLog windowMs c.time ms) d, ?_, hl.extended hm fun _ _ hx => by cases hx⟩,
      hbounded, forall_le_concat hpast⟩
    rw [extendedLog, zentry_of_ne (withMember_ne_nil _ _ _)]
    exact Function.update_self ..
  · rw [SlidingLog.step_of_ge (by omega)]
    have hrun : logRequest key limit windowMs ks c = _ := slidingWindowLogLua_run_denied hk hc
    rw [hrun]
    refine ⟨⟨_, rfl, rfl⟩, ⟨_, _, Function.update_self .., ?_⟩, hs.bounded, hpast⟩
    have hpruned := hl.pruned
    exact { hpruned with member := fun m hmem => List.mem_cons_of_mem _ (hpruned.member m hmem) }

theorem slidingWindow_denied_iff (hl : 1 ≤ limit) {before : List Call} (hks : ks key = none)
    (ht : (before ++ [c]).Pairwise fun a b => a.time.ms ≤ b.time.ms)
    (hm : ((before ++ [c]).map Call.member).Nodup) :
    let f := logRequest key limit windowMs
    DeniedIff (f (Timed.final f ks before) c).1
      ((countIoc (admissions Call.time (Timed.trace f ks before)) (c.time.ms - windowMs)
        c.time.ms : ℤ) = limit) := by
  intro f
  have ho : Timed.InOrder (fun c : Call => (c.time.ms : ℤ)) (fun c => some c.member) [] 0
      (before ++ [c]) := by
    refine Timed.inOrder_of_pairwise (ht.imp fun hab => Int.ofNat_le.2 hab) ?_
      (fun _ _ => Int.natCast_nonneg _) fun _ _ => List.not_mem_nil
    rwa [List.filterMap_eq_map']
  obtain ⟨hbefore, hlast⟩ := Timed.inOrder_append.1 ho
  have hstart : LogShowsHistory key limit windowMs [] 0 ks [] :=
    ⟨⟨[], none, hks, .nil _⟩, SlidingLog.bounded_nil (by omega), fun s hs => by cases hs⟩
  obtain ⟨houts, hend⟩ := Timed.simulation_after (f := f)
    (g := fun h (c : Call) => SlidingLog.step limit windowMs h c.time.ms) (E := Shows)
    (P := fun _ => True) (R := LogShowsHistory key limit windowMs)
    (fun hs hst hfresh _ => hs.step hst (hfresh _ rfl)) (fun _ _ => trivial) hstart hbefore
  have hadmitted := final_eq_admissions Call.time
    (fun h (c : Call) => SlidingLog.step_snd limit windowMs h c.time.ms)
    (houts.imp fun _ _ h => h.granted_eq)
  rw [List.nil_append] at hadmitted
  rw [hadmitted] at hend
  refine (hend.step hlast.1 (hlast.2.1 _ rfl)).1.deniedIff ?_
  have hpast : ∀ s ∈ admissions Call.time (Timed.trace f ks before), s ≤ (c.time.ms : ℤ) :=
    fun s hs => (hend.past s hs).trans hlast.1
  have hle := hend.bounded.length_live_le hpast
  rw [← SlidingLog.length_live hpast, ← Bool.not_eq_true, SlidingLog.allowed_iff,
    SlidingLog.available]
  omega

/-! ## The rule -/

/-- Starts that Lua prints exactly print apart. -/
theorem printsApart_of_exact (hW : 1 ≤ windowMs) {ts : List RedisTime}
    (he : ∀ t ∈ ts, Lua.Exact (windowStart windowMs t.ms).toNat) : PrintsApart windowMs ts := by
  intro t ht u hu h
  have hn := Lua.toString_injOn (he t ht) (he u hu) h
  rw [windowStart_eq, windowStart_eq, ← toNat_windowStart hW, ← toNat_windowStart hW, hn]

theorem printsApart (hW : 1 ≤ windowMs) {ts : List RedisTime}
    (h : (∀ t ∈ ts, t.ms < 10 ^ 14) ∨ 1000 ∣ windowMs) : PrintsApart windowMs ts := by
  refine printsApart_of_exact hW fun t ht => ?_
  have hn := toNat_windowStart hW t.ms
  have hle := FixedWindow.start_le hW t.ms
  rcases h with h | h
  · have := h t ht
    exact Or.inl (by omega)
  · refine Lua.exact_of_thousand_dvd ?_ ?_
    · rw [← Int.natCast_dvd_natCast, hn, FixedWindow.start_eq]
      exact Dvd.dvd.mul_left h _
    · have := t.ms_lt
      omega

/-- With a limit of one, a second window that shares the counter of the first admits nothing. -/
theorem not_deniedIff_of_shared
    (hkey : counterKey key windowMs u.ms = counterKey key windowMs t.ms)
    (hunused : FixedWindow.used windowMs [(t.ms : ℤ)] u.ms = 0) :
    let f := countRequest key 1 windowMs
    ¬DeniedIff (f (Timed.final f .empty [t]) u).1
      (FixedWindow.used windowMs (admissions id (Timed.trace f .empty [t])) u.ms = 1) := by
  intro f
  have hfirst : f .empty t = _ := fixedWindowLua_run_fresh rfl (Or.inl rfl)
  have hstored : (f .empty t).2 (counterKey key windowMs u.ms) = some ⟨.counter 1, none⟩ := by
    rw [hfirst, hkey]
    exact Function.update_self ..
  have hsecond : f (f .empty t).2 u = _ := fixedWindowLua_run_counter one_pos hstored
  rintro ⟨r, hr, hdenied⟩
  have hr' : fixedWindowReply 1 windowMs u.ms 2 = r := by
    refine Except.ok.inj (?_ : (.ok _ : Except RedisError Reply) = _)
    rw [← hr]
    show _ = (f (f .empty t).2 u).1
    rw [hsecond]
    rfl
  have hadmitted : admissions id (Timed.trace f .empty [t]) = [(t.ms : ℤ)] := by
    rw [Timed.trace, Timed.outputs, hfirst]
    rfl
  rw [hadmitted, hunused, ← hr'] at hdenied
  exact absurd (hdenied.1 rfl) zero_ne_one

end RateLimiter
