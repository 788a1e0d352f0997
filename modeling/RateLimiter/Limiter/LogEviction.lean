import RateLimiter.Limiter.LocalServer

/-!
# When the local limiter evicts a log too early

`_apply_sliding_window` lets a log live until its oldest event leaves the window or the configured
time has passed since the last call, whichever is later.  Its newest event may stay in the window
longer than that, and then the next call finds no log at all and admits more than the policy allows.
This cannot happen if the configured time is at least the window, or if a log never holds more than
one event; in every other case it does happen (`log_eviction_safe_iff`).
-/

set_option autoImplicit false

namespace RateLimiter

open Quota

theorem StateDict.evict_of_lt {α : Type} {dict : StateDict α} {key : String} {e : StoredState α}
    {t : ℤ} (hk : dict key = some e) (ht : t < e.expiresAtMs) :
    dict.evict .enforced t key = some e := by
  show (dict key).filter _ = _
  simp [hk, ht]

theorem StateDict.evict_of_le {α : Type} {dict : StateDict α} {key : String} {e : StoredState α}
    {t : ℤ} (hk : dict key = some e) (ht : e.expiresAtMs ≤ t) :
    dict.evict .enforced t key = none := by
  show (dict key).filter _ = _
  simp [hk, ht]

/-- What may be stored for a log with admissions `h`, if states are kept for so long that no event
is evicted while it counts. -/
structure LogStored (policy : PolicyBase) (now : ℤ) (st : Option (StoredState (List ℤ)))
    (h : List ℤ) : Prop where
  /-- From now on the log holds the admissions that count. -/
  live : ∀ t, now ≤ t → SlidingLog.live policy.windowMs ((st.map (·.value)).getD []) t =
    SlidingLog.live policy.windowMs h t
  /-- It is stored for as long as any of its events counts. -/
  covers : ∀ e ∈ st, ∀ s ∈ e.value, s + policy.windowMs ≤ e.expiresAtMs

variable {policy : PolicyBase} {now t : ℤ} {h : List ℤ} {ttlMs : ℤ}

theorem LogStored.evict {dict : StateDict (List ℤ)} {key : String}
    (hl : LogStored policy now (dict key) h) (hst : now ≤ t) :
    LogStored policy t (dict.evict .enforced t key) h := by
  rcases dict.evict_eq_or .enforced t key with he | ⟨he, -, hgone⟩ <;> rw [he]
  · exact ⟨fun u hu => hl.live u (hst.trans hu), hl.covers⟩
  · refine ⟨fun u hu => ?_, fun e he => by cases he⟩
    rw [← hl.live u (hst.trans hu)]
    cases hk : dict key with
    | none => rfl
    | some e =>
      refine (SlidingLog.live_eq_nil fun s hs => ?_).symm
      have h1 := hl.covers e hk s hs
      have h2 := hgone e hk
      omega

/-- The log is stored long enough: it has one event only, or the configured time is at least the
window. -/
def StoredLongEnough (policy : PolicyBase) (ttlMs : ℤ) : Prop :=
  policy.rate = 1 ∨ policy.windowMs ≤ ttlMs

/-- The event that leaves the window last leaves it before the log expires. -/
theorem StoredLongEnough.le_expiry {log : List ℤ} (hlong : StoredLongEnough policy ttlMs)
    (hlen : (log.length : ℤ) ≤ policy.rate) (hpast : ∀ s ∈ log, s ≤ t) :
    ∀ s ∈ log,
      s + policy.windowMs ≤ max (SlidingLog.resetAt policy.windowMs log t) (t + ttlMs) := by
  intro s hs
  rcases hlong with hone | hwindow
  · refine le_max_of_le_left ?_
    cases log with
    | nil => cases hs
    | cons a log =>
      obtain rfl : log = [] := by
        rw [hone, List.length_cons] at hlen
        exact List.length_eq_zero_iff.1 (by omega)
      rw [List.mem_singleton.1 hs]
      exact le_rfl
  · refine le_max_of_le_right ?_
    have := hpast s hs
    omega

/-- The reset is that of the log that stays. -/
theorem resetAtMs_eq (policy : PolicyBase) (nowMs : ℤ) (events : List ℤ) :
    let out := applySlidingWindowLog nowMs events policy.rate policy.windowSeconds
    out.2.resetAtMs = SlidingLog.resetAt policy.windowMs out.1 nowMs := rfl

/-- What holds of the log under a key after some calls, whatever the calls under other keys have
evicted. -/
structure LogKept (policy : PolicyBase) (key : String) (es : List (ℤ × LocalFallbackDecision))
    (now : ℤ) (limiter : LocalFallbackLimiter) : Prop where
  /-- The log is stored, and long enough. -/
  stored : LogStored policy now (limiter.slidingWindows key) (admittedOf es)
  /-- The quota is kept. -/
  bounded : SlidingLog.Bounded policy.rate policy.windowMs (admittedOf es)
  /-- Admissions lie in the past. -/
  past : ∀ s ∈ admittedOf es, s ≤ now

/-- What `apply_sliding_window_log` returns is a log of the next history. -/
theorem LogStored.next {events : List ℤ} {expiresAtMs : ℤ}
    (hl : SlidingLog.live policy.windowMs events t = SlidingLog.live policy.windowMs h t)
    (hb : SlidingLog.Bounded policy.rate policy.windowMs h) (hpast : ∀ s ∈ h, s ≤ t)
    (hlong : StoredLongEnough policy ttlMs) :
    let out := applySlidingWindowLog t events policy.rate policy.windowSeconds
    expiresAtMs = max out.2.resetAtMs (t + ttlMs) →
      LogStored policy t (some ⟨out.1, expiresAtMs⟩)
        (SlidingLog.step policy.rate policy.windowMs h t).2 := by
  rintro out rfl
  obtain ⟨-, hlog⟩ := applySlidingWindowLog_eq hl
  have hlive : ∀ s ∈ SlidingLog.live policy.windowMs h t, s ≤ t := fun s hs =>
    hpast s (List.mem_of_mem_filter hs)
  constructor
  · intro u hu
    show SlidingLog.live policy.windowMs out.1 u = _
    rw [hlog, SlidingLog.live_step _ hu]
  · intro e he
    rw [← Option.mem_some_iff.1 he, resetAtMs_eq]
    refine hlong.le_expiry ?_ ?_
    · rw [hlog]
      split
      · have := SlidingLog.allowed_iff.1 ‹_›
        rw [SlidingLog.available] at this
        rw [List.length_append, List.length_singleton]
        omega
      · exact hb.length_live_le hpast
    · rw [hlog]
      split
      · exact forall_le_concat hlive
      · exact hlive

theorem LogKept.own {policy : PolicyRead} {identity : RequestIdentity} {stateTtlSeconds : ℤ}
    {es : List (ℤ × LocalFallbackDecision)} {self : LocalFallbackLimiter}
    (hk : LogKept policy.toPolicyBase (buildRateLimitKey policy identity) es now self)
    (ha : policy.algorithm = .slidingWindowLog)
    (hlong : StoredLongEnough policy.toPolicyBase (max 1 stateTtlSeconds * 1000)) (hst : now ≤ t) :
    let out := self.apply .enforced stateTtlSeconds policy identity t
    LogKept policy.toPolicyBase (buildRateLimitKey policy identity) (es ++ [(t, out.1)]) t
      out.2 := by
  intro out
  have hl := (hk.stored.evict hst).live t le_rfl
  have hpast : ∀ s ∈ admittedOf es, s ≤ t := fun s hs => (hk.past s hs).trans hst
  have hout : out =
      (self.evictExpired .enforced t).applySlidingWindow (max 1 stateTtlSeconds * 1000)
      policy.toPolicyBase (buildRateLimitKey policy identity) t := by
    simp only [out, LocalFallbackLimiter.apply, ha]
  have hallowed : out.1.allowed =
      (SlidingLog.step policy.rate policy.windowMs (admittedOf es) t).1.allowed := by
    rw [hout, ← (applySlidingWindowLog_eq hl).1]
    rfl
  have hnext : admittedOf (es ++ [(t, out.1)]) =
      (SlidingLog.step policy.rate policy.windowMs (admittedOf es) t).2 := by
    rw [admittedOf_concat, SlidingLog.step_snd, hallowed]
  constructor
  · rw [hnext, hout]
    simp only [LocalFallbackLimiter.applySlidingWindow, Function.update_self]
    exact LogStored.next hl hk.bounded hpast hlong rfl
  · rw [hnext]
    exact hk.bounded.step
  · rw [hnext]
    exact SlidingLog.past_step _ _ hpast

theorem LogKept.other {key : String} {stateTtlSeconds : ℤ} {q : PolicyRead} {b : RequestIdentity}
    {es : List (ℤ × LocalFallbackDecision)} {self : LocalFallbackLimiter}
    (hk : LogKept policy key es now self) (hst : now ≤ t) (hne : key ≠ buildRateLimitKey q b) :
    LogKept policy key es t (self.apply .enforced stateTtlSeconds q b t).2 := by
  refine ⟨?_, hk.bounded, fun s hs => (hk.past s hs).trans hst⟩
  rw [(self.apply_of_ne .enforced stateTtlSeconds t hne).2.1]
  exact hk.stored.evict hst

/-- A call that finds `log` with room in it is admitted. -/
theorem LocalFallbackLimiter.apply_log {policy : PolicyRead} {identity : RequestIdentity}
    {stateTtlSeconds : ℤ} {self : LocalFallbackLimiter} {log : List ℤ}
    (ha : policy.algorithm = .slidingWindowLog)
    (hlog : SlidingLog.live policy.windowMs ((((self.slidingWindows.evict .enforced t)
      (buildRateLimitKey policy identity)).map (·.value)).getD []) t = log)
    (hlt : (log.length : ℤ) < policy.rate) :
    let out := self.apply .enforced stateTtlSeconds policy identity t
    out.1.allowed = true ∧ out.2.slidingWindows (buildRateLimitKey policy identity) =
      some ⟨log ++ [t], max (SlidingLog.resetAt policy.windowMs (log ++ [t]) t)
        (t + max 1 stateTtlSeconds * 1000)⟩ := by
  intro out
  have hself : SlidingLog.live policy.windowMs log t = log := by
    rw [← hlog, SlidingLog.live_live le_rfl]
  have hout : out =
      (self.evictExpired .enforced t).applySlidingWindow (max 1 stateTtlSeconds * 1000)
      policy.toPolicyBase (buildRateLimitKey policy identity) t := by
    simp only [out, apply, ha]
  obtain ⟨hv, hnext⟩ := applySlidingWindowLog_eq (hlog.trans hself.symm)
  rw [SlidingLog.step_of_lt (by rwa [hself]), hself] at hv hnext
  rw [hout]
  refine ⟨congrArg Verdict.allowed hv, ?_⟩
  simp only [applySlidingWindow, Function.update_self]
  rw [resetAtMs_eq]
  exact congrArg (fun l => some (⟨l, max (SlidingLog.resetAt policy.windowMs l t)
    (t + max 1 stateTtlSeconds * 1000)⟩ : StoredState (List ℤ))) hnext

section Catalog

variable {ι : Type} {C : Catalog ι} {stateTtlSeconds : ℤ} {i : ι} {a : RequestIdentity}
  {calls : List (LocalCall ι)}

theorem logKept (ha : (C.policy i).algorithm = .slidingWindowLog)
    (hlong : StoredLongEnough (C.policy i).toPolicyBase (max 1 stateTtlSeconds * 1000))
    (ho : Steady calls) :
    LogKept (C.policy i).toPolicyBase (buildRateLimitKey (C.policy i) a)
      (callsUnder C stateTtlSeconds (buildRateLimitKey (C.policy i) a) calls)
      (Timed.timeAfter LocalCall.nowMs 0 calls)
      (Timed.final (serveLocal C stateTtlSeconds) .empty calls) := by
  refine callsUnder_rule ?_ (fun hk hst => hk.own ha hlong hst)
    (fun hk hst hne => hk.other hst hne) ho
  exact ⟨⟨fun _ _ => rfl, fun e he => by cases he⟩,
    SlidingLog.bounded_nil (C.policy i).rate_pos.le, fun s hs => by cases hs⟩

/-! ## The run that goes wrong -/

/-- A call under the key. -/
def callAt (i : ι) (a : RequestIdentity) (t : ℤ) (ht : 0 < t) : LocalCall ι := ⟨i, a, t, ht⟩

theorem admitted_concat (stateTtlSeconds : ℤ) (a : RequestIdentity) (calls : List (LocalCall ι))
    (ha : (C.policy i).algorithm = .slidingWindowLog) {t : ℤ} (ht : 0 < t) (log : List ℤ)
    (hlog : SlidingLog.live (C.policy i).windowMs ((((((Timed.final (serveLocal C stateTtlSeconds)
      .empty calls).slidingWindows.evict .enforced t) (buildRateLimitKey (C.policy i) a)).map
        (·.value)).getD [])) t = log)
    (hlt : (log.length : ℤ) < (C.policy i).rate) :
    let key := buildRateLimitKey (C.policy i) a
    let calls' := calls ++ [callAt i a t ht]
    admittedOf (callsUnder C stateTtlSeconds key calls') =
        admittedOf (callsUnder C stateTtlSeconds key calls) ++ [t] ∧
      (Timed.final (serveLocal C stateTtlSeconds) .empty calls').slidingWindows key =
        some ⟨log ++ [t], max (SlidingLog.resetAt (C.policy i).windowMs (log ++ [t]) t)
          (t + max 1 stateTtlSeconds * 1000)⟩ := by
  intro key calls'
  obtain ⟨hallowed, hstored⟩ := LocalFallbackLimiter.apply_log ha hlog hlt
  have hkey : LocalCall.key C (callAt i a t ht) = key := rfl
  rw [callsUnder_concat, if_pos hkey, admittedOf_concat, Timed.final_concat]
  exact ⟨if_pos hallowed, hstored⟩

/-- The log is filled: one call at the first millisecond, the others when it is about to leave the
window. -/
def fillLog (C : Catalog ι) (i : ι) (a : RequestIdentity) (k : ℕ) : List (LocalCall ι) :=
  callAt i a 1 one_pos ::
    List.replicate k (callAt i a (C.policy i).windowMs (C.policy i).windowMs_pos)

theorem fillLog_succ (C : Catalog ι) (i : ι) (a : RequestIdentity) (k : ℕ) :
    fillLog C i a (k + 1) =
      fillLog C i a k ++ [callAt i a (C.policy i).windowMs (C.policy i).windowMs_pos] :=
  congrArg (_ :: ·) List.replicate_succ'

theorem nowMs_le_of_mem_fillLog {k : ℕ} {c : LocalCall ι} (hc : c ∈ fillLog C i a k) :
    c.nowMs ≤ (C.policy i).windowMs := by
  rcases List.mem_cons.1 hc with rfl | hc
  · exact (C.policy i).windowMs_pos
  · rw [List.eq_of_mem_replicate hc]
    exact le_rfl

theorem Steady.concat {c : LocalCall ι} (h : Steady calls) (hc : ∀ d ∈ calls, d.nowMs ≤ c.nowMs) :
    Steady (calls ++ [c]) :=
  List.pairwise_append.2 ⟨h, List.pairwise_singleton _ _,
    fun d hd _ he => List.mem_singleton.1 he ▸ hc d hd⟩

theorem steady_fillLog (C : Catalog ι) (i : ι) (a : RequestIdentity) (k : ℕ) :
    Steady (fillLog C i a k) := by
  induction k with
  | zero => exact List.pairwise_singleton _ _
  | succ k ih =>
    rw [fillLog_succ]
    exact ih.concat fun d hd => nowMs_le_of_mem_fillLog hd

theorem fillLog_stored (stateTtlSeconds : ℤ) (a : RequestIdentity)
    (ha : (C.policy i).algorithm = .slidingWindowLog) {k : ℕ} (hk : (k : ℤ) < (C.policy i).rate) :
    admittedOf (callsUnder C stateTtlSeconds (buildRateLimitKey (C.policy i) a) (fillLog C i a k)) =
        1 :: List.replicate k (C.policy i).windowMs ∧
      ∃ e, (Timed.final (serveLocal C stateTtlSeconds) .empty (fillLog C i a k)).slidingWindows
          (buildRateLimitKey (C.policy i) a) =
            some ⟨1 :: List.replicate k (C.policy i).windowMs, e⟩ ∧ 1 + (C.policy i).windowMs ≤ e ∧
        (0 < k → e = (C.policy i).windowMs + max 1 stateTtlSeconds * 1000) := by
  have hW := (C.policy i).windowMs_pos
  induction k with
  | zero =>
    obtain ⟨hadmitted, hstored⟩ := admitted_concat stateTtlSeconds a [] ha one_pos [] rfl
      (C.policy i).rate_pos
    exact ⟨hadmitted, _, hstored, le_max_left _ _, fun h => absurd h (lt_irrefl 0)⟩
  | succ k ih =>
    obtain ⟨hadmitted, _, hstored, he, -⟩ := ih (by omega)
    have hlive : SlidingLog.live (C.policy i).windowMs (1 :: List.replicate k (C.policy i).windowMs)
        (C.policy i).windowMs = 1 :: List.replicate k (C.policy i).windowMs := by
      refine List.filter_eq_self.2 fun s hs => ?_
      rcases List.mem_cons.1 hs with rfl | hs
      · simp
      · rw [List.eq_of_mem_replicate hs]
        simpa using hW
    have hlog := StateDict.evict_of_lt (t := (C.policy i).windowMs) hstored
      (Int.add_one_le_iff.1 (by rwa [add_comm]))
    obtain ⟨hadmitted', hstored'⟩ := admitted_concat stateTtlSeconds a (fillLog C i a k) ha hW
      (1 :: List.replicate k (C.policy i).windowMs) (by rw [hlog]; exact hlive)
      (by rw [List.length_cons, List.length_replicate]; omega)
    rw [fillLog_succ, hadmitted', hadmitted, hstored', List.replicate_succ', List.cons_append]
    refine ⟨rfl, _, rfl, le_max_left _ _, fun _ => max_eq_right ?_⟩
    show 1 + (C.policy i).windowMs ≤ _
    omega

/-- Two more events are too many for the window that begins with the last events of the full log. -/
theorem not_bounded_overfilled {rate W t : ℤ} {k : ℕ} (hk : (k : ℤ) + 2 = rate) (hWt : W ≤ t)
    (ht : t < W + W) :
    ¬SlidingLog.Bounded rate W (1 :: List.replicate (k + 1) W ++ [t] ++ [t]) := by
  intro hb
  have hwindow := (hb W).1
  have hfill : k + 1 ≤ countIco (1 :: List.replicate (k + 1) W) W (W + W) := by
    have hin : W ≤ W ∧ W < W + W := by omega
    rw [countIco, List.countP_cons, List.countP_replicate, if_pos (decide_eq_true hin)]
    omega
  rw [countIco_append, countIco_append, if_pos ⟨hWt, ht⟩] at hwindow
  omega

/-- The run goes on as soon as the log has expired, while most of its events still count. -/
theorem overfill (stateTtlSeconds : ℤ) (a : RequestIdentity)
    (ha : (C.policy i).algorithm = .slidingWindowLog) (hr : 1 < (C.policy i).rate)
    (hW : max 1 stateTtlSeconds * 1000 < (C.policy i).windowMs) :
    ∃ (k : ℕ) (c : LocalCall ι), (k : ℤ) + 2 = (C.policy i).rate ∧
      c.nowMs = (C.policy i).windowMs + max 1 stateTtlSeconds * 1000 ∧
      Steady (fillLog C i a (k + 1) ++ [c] ++ [c]) ∧
      admittedOf (callsUnder C stateTtlSeconds (buildRateLimitKey (C.policy i) a)
        (fillLog C i a (k + 1) ++ [c] ++ [c])) =
          1 :: List.replicate (k + 1) (C.policy i).windowMs ++ [c.nowMs] ++ [c.nowMs] ∧
      (Timed.final (serveLocal C stateTtlSeconds) .empty (fillLog C i a (k + 1))).slidingWindows
        (buildRateLimitKey (C.policy i) a) =
          some ⟨1 :: List.replicate (k + 1) (C.policy i).windowMs, c.nowMs⟩ := by
  obtain ⟨k, hk⟩ : ∃ k : ℕ, (k : ℤ) + 2 = (C.policy i).rate :=
    ⟨((C.policy i).rate - 2).toNat, by omega⟩
  have hpos : 0 < (C.policy i).windowMs + max 1 stateTtlSeconds * 1000 := by omega
  obtain ⟨hadmitted, e, hstored, -, he⟩ := fillLog_stored stateTtlSeconds a ha
    (show ((k + 1 : ℕ) : ℤ) < (C.policy i).rate by push_cast; omega)
  obtain rfl := he k.succ_pos
  generalize ht : (C.policy i).windowMs + max 1 stateTtlSeconds * 1000 = t at *
  have hgone := StateDict.evict_of_le hstored le_rfl
  obtain ⟨hadmitted₁, hstored₁⟩ :=
    admitted_concat stateTtlSeconds a (fillLog C i a (k + 1)) ha hpos []
    (by rw [hgone]; rfl) (C.policy i).rate_pos
  have hkept := StateDict.evict_of_lt (t := t) hstored₁
    (lt_max_of_lt_left (lt_add_of_pos_right t (C.policy i).windowMs_pos))
  have hlive : SlidingLog.live (C.policy i).windowMs [t] t = [t] :=
    List.filter_eq_self.2 fun s hs => by
      rw [List.mem_singleton.1 hs]
      simpa using (C.policy i).windowMs_pos
  obtain ⟨hadmitted₂, -⟩ := admitted_concat stateTtlSeconds a
    (fillLog C i a (k + 1) ++ [callAt i a t hpos]) ha hpos [t] (by rw [hkept]; exact hlive) hr
  refine ⟨k, callAt i a t hpos, hk, rfl, ?_, ?_, hstored⟩
  · have hle : ∀ d ∈ fillLog C i a (k + 1), d.nowMs ≤ t := fun d hd =>
      (nowMs_le_of_mem_fillLog hd).trans (by omega)
    refine ((steady_fillLog C i a (k + 1)).concat hle).concat fun d hd => ?_
    rcases List.mem_append.1 hd with hd | hd
    · exact hle d hd
    · exact List.mem_singleton.1 hd ▸ le_rfl
  · rw [hadmitted₂, hadmitted₁, hadmitted]
    rfl

/-- No call of the run evicts a log that holds an event of its window. -/
def EvictsNoLiveEvent (C : Catalog ι) (stateTtlSeconds : ℤ) (policy : PolicyBase) (key : String)
    (calls : List (LocalCall ι)) : Prop :=
  ∀ before c after, calls = before ++ c :: after →
    ∀ e ∈ (Timed.final (serveLocal C stateTtlSeconds) .empty before).slidingWindows key,
      e.expiresAtMs ≤ c.nowMs → ∀ s ∈ e.value, s ≤ c.nowMs - policy.windowMs

/-- **When eviction is safe for a sliding log**: exactly if the policy admits one request, or the
configured time is at least its window.  Then the quota is kept and no live event is evicted, and
otherwise some run breaks the quota and evicts a live event. -/
theorem log_eviction_safe_iff (C : Catalog ι) (stateTtlSeconds : ℤ) (i : ι) (a : RequestIdentity)
    (ha : (C.policy i).algorithm = .slidingWindowLog) :
    let policy := (C.policy i).toPolicyBase
    let key := buildRateLimitKey (C.policy i) a
    ((∀ calls, Steady calls → SlidingLog.Bounded policy.rate policy.windowMs
        (admittedOf (callsUnder C stateTtlSeconds key calls))) ↔
      policy.rate = 1 ∨ policy.windowSeconds ≤ max 1 stateTtlSeconds) ∧
    ((∀ calls, Steady calls → EvictsNoLiveEvent C stateTtlSeconds policy key calls) ↔
      policy.rate = 1 ∨ policy.windowSeconds ≤ max 1 stateTtlSeconds) := by
  intro policy key
  have hWs : policy.windowMs = policy.windowSeconds * 1000 := rfl
  have hWi : (C.policy i).windowMs = policy.windowMs := rfl
  have hlong : policy.rate = 1 ∨ policy.windowSeconds ≤ max 1 stateTtlSeconds →
      StoredLongEnough policy (max 1 stateTtlSeconds * 1000) := fun h =>
    h.imp_right fun hle => by omega
  have hfail : ¬(policy.rate = 1 ∨ policy.windowSeconds ≤ max 1 stateTtlSeconds) →
      1 < policy.rate ∧ max 1 stateTtlSeconds * 1000 < policy.windowMs := fun h => by
    have := policy.rate_pos
    omega
  refine ⟨⟨fun hsafe => ?_, fun h calls ho => (logKept ha (hlong h) ho).bounded⟩,
    fun hsafe => ?_, fun h calls ho before c after hc e he hgone s hs => ?_⟩
  · by_contra hnot
    obtain ⟨hr, hW⟩ := hfail hnot
    obtain ⟨k, c, hk, hc, ho, hadmitted, -⟩ := overfill stateTtlSeconds a ha hr hW
    have hb := hsafe _ ho
    rw [hadmitted, hWi] at hb
    exact not_bounded_overfilled hk (by omega) (by omega) hb
  · by_contra hnot
    obtain ⟨hr, hW⟩ := hfail hnot
    obtain ⟨k, c, hk, hc, ho, -, hstored⟩ := overfill stateTtlSeconds a ha hr hW
    have hlive := hsafe _ ho _ c [c] (List.append_assoc ..) _ hstored le_rfl policy.windowMs
      (List.mem_cons_of_mem _ (List.mem_replicate.2 ⟨k.succ_ne_zero, rfl⟩))
    omega
  · have hbefore : Steady before := (List.pairwise_append.1 (hc ▸ ho)).1
    have := (logKept ha (hlong h) hbefore).stored.covers e he s hs
    omega

end Catalog

/-- A window of a minute and state that is kept for half of it. -/
theorem log_eviction_safe_iff_sample :
    ¬∀ calls, Steady calls → SlidingLog.Bounded 2 60000 (admittedOf
      (callsUnder Catalog.sample 30 (buildRateLimitKey (.sample .slidingWindowLog 2) .sample)
        calls)) :=
  fun h => absurd ((log_eviction_safe_iff Catalog.sample 30 .slidingWindowLog .sample rfl).1.1 h)
    (by decide)

/-- Two requests a minute are allowed, and three are admitted within half a minute: the log of the
first two is evicted when the second is thirty seconds old. -/
theorem log_evicted_early_sample :
    let calls : List (LocalCall RateLimitAlgorithm) := [.sample .slidingWindowLog 30,
      .sample .slidingWindowLog 89, .sample .slidingWindowLog 119, .sample .slidingWindowLog 119]
    Steady calls ∧ ¬SlidingLog.Bounded 2 60000 (admittedOf
      (callsUnder Catalog.sample 30 (buildRateLimitKey (.sample .slidingWindowLog 2) .sample)
        calls)) := by
  intro calls
  have hadmitted : admittedOf (callsUnder Catalog.sample 30
      (buildRateLimitKey (.sample .slidingWindowLog 2) .sample) calls) =
        [30000, 89000, 119000, 119000] := by decide +kernel
  refine ⟨by decide, fun hb => ?_⟩
  rw [hadmitted] at hb
  exact absurd (hb 89000).1 (by decide)

end RateLimiter
