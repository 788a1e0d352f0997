import RateLimiter.Redis.Represents

/-!
# The scripts refine the ideal limiter

One evaluation of a policy's script is one step of the ideal limiter of the policy
(`refines_eval`): the reply carries its verdict, the keys represent its next state, and no key
of another policy changes.  The only other outcome is an error of `PEXPIRE`, and even then the keys
represent the next state, since the scripts count the request before they set the deadline.
-/

set_option autoImplicit false

namespace RateLimiter

open Quota

variable {x : Expiry} {t u : RedisTime} {ks : Keyspace} {key member : String}
  {members : List String} {policy : PolicyBase} {s : Ideal} {now : ℤ}

/-- The reply to a request on which the ideal limiter's verdict is `v`, and an error only where
`PEXPIRE` is not accepted. -/
def Answers (policy : PolicyBase) (v : Verdict) (accepted : Prop) : Except RedisError Reply → Prop
  | .ok r => r.limit = policy.headerLimit ∧ r.verdict = v ∧ (r.allowed = 0 ∨ r.allowed = 1)
  | .error _ => ¬accepted

theorem Answers.ok_of_accepted {policy : PolicyBase} {v : Verdict} {p : Prop}
    {out : Except RedisError Reply} (h : Answers policy v p out) (hp : p) : ∃ r, out = .ok r := by
  cases out with
  | ok r => exact ⟨r, rfl⟩
  | error e => exact absurd hp h

theorem ite_eq_zero_or_one (c : Prop) [Decidable c] :
    (if c then (1 : ℤ) else 0) = 0 ∨ (if c then (1 : ℤ) else 0) = 1 := by
  split
  · exact Or.inr rfl
  · exact Or.inl rfl

/-- The member a request adds to a log, if the policy keeps one. -/
def logMember (policy : PolicyBase) (member : String) : Option String :=
  if policy.algorithm = .slidingWindowLog then some member else none

/-- One key of the policy changes, and if it had a deadline it has one afterwards. -/
def ChangesOne (x : Expiry) (policy : PolicyBase) (key : String) (accepted : Prop)
    (ks ks' : Keyspace) : Prop :=
  ∃ k ∈ scriptKeys policy key, ∃ e, ks' = Function.update ks k e ∧
    (x = .enforced → accepted → (∀ e₀ ∈ ks k, e₀.expireAt.isSome) → ∀ e₁ ∈ e, e₁.expireAt.isSome)

/-- What one run of a policy's script comes to: the ideal limiter's verdict, its next state, and no
other policy's key touched. -/
structure Refines (x : Expiry) (t : RedisTime) (policy : PolicyBase) (key member : String)
    (members : List String) (ks : Keyspace) (s : Ideal)
    (out : Except RedisError Reply × Keyspace) : Prop where
  /-- The reply is the ideal limiter's verdict. -/
  answer : Answers policy (s.verdict policy t.ms) (Accepted x t policy.expiryMs) out.1
  /-- The keys represent its next state. -/
  represents : Represents x policy key ((logMember policy member).toList ++ members) t.ms out.2
    (s.next policy t.ms)
  /-- Only a key of the policy changes. -/
  changes : ChangesOne x policy key (Accepted x t policy.expiryMs) ks out.2

/-- A run that sets the deadline of its key. -/
theorem changesOne_expiryAfter {k : String} (hk : k ∈ scriptKeys policy key) (p : Prop) (v : Value)
    (ms : ℤ) (d : Option ℤ) :
    ChangesOne x policy key p ks (Function.update ks k (some ⟨v, expiryAfter x t ms d⟩)) := by
  refine ⟨k, hk, _, rfl, ?_⟩
  rintro rfl - - e₁ he₁
  rw [← Option.mem_some_iff.1 he₁]
  rfl

theorem changesOne_rejected {k : String} (hk : k ∈ scriptKeys policy key) {p : Prop} (hp : ¬p)
    (e : Option Entry) : ChangesOne x policy key p ks (Function.update ks k e) :=
  ⟨k, hk, e, rfl, fun _ hacc => absurd hacc hp⟩

/-! ## Fixed windows -/

theorem windowStart_eq (W t : ℤ) : windowStart W t = FixedWindow.start W t := rfl

theorem toNat_windowStart {W : ℤ} (hW : 0 < W) (n : ℕ) :
    ((windowStart W n).toNat : ℤ) = FixedWindow.start W n := by
  refine Int.toNat_of_nonneg ?_
  show 0 ≤ FixedWindow.start W n
  rw [FixedWindow.start_eq]
  exact Int.mul_nonneg (Int.ediv_nonneg (Int.natCast_nonneg n) hW.le) hW.le

/-- Lua prints the start of a window exactly. -/
theorem exact_windowStart (policy : PolicyBase) (t : RedisTime) :
    Lua.Exact (windowStart policy.windowMs t.ms).toNat := by
  have hW := policy.windowMs_pos
  have hn := toNat_windowStart hW t.ms
  refine Lua.exact_of_thousand_dvd ?_ ?_
  · rw [← Int.natCast_dvd_natCast, hn, FixedWindow.start_eq]
    exact Dvd.dvd.mul_left (Dvd.intro_left _ rfl) _
  · have h1 := FixedWindow.start_le hW t.ms
    have h2 := t.ms_lt
    have h3 : (windowStart policy.windowMs t.ms).toNat ≤ t.ms := by omega
    exact lt_of_le_of_lt h3 (h2.trans (by norm_num))

/-- Two times have one counter exactly if they lie in one window. -/
theorem counterKey_eq_iff :
    counterKey key policy.windowMs t.ms = counterKey key policy.windowMs u.ms ↔
      FixedWindow.start policy.windowMs t.ms = FixedWindow.start policy.windowMs u.ms := by
  constructor
  · intro h
    have he := windowKey_injOn (exact_windowStart policy t) (exact_windowStart policy u) h
    rw [← toNat_windowStart policy.windowMs_pos, ← toNat_windowStart policy.windowMs_pos, he]
  · intro h
    rw [counterKey, counterKey]
    exact congrArg (fun n : ℤ => windowKey key n.toNat) h

/-- What the counters of the other windows show does not change. -/
theorem counterShows_next (ha : policy.algorithm = .fixedWindow)
    (h : Represents x policy key members t.ms ks s) {n : ℤ} {d : Option ℤ} (hn : 0 < n)
    (hc : Covers x (FixedWindow.start policy.windowMs t.ms + policy.windowMs) d)
    (hu : min n policy.rate =
      if FixedWindow.used policy.windowMs s.admitted t.ms < policy.rate then
        FixedWindow.used policy.windowMs s.admitted t.ms + 1
      else FixedWindow.used policy.windowMs s.admitted t.ms) :
    Represents x policy key ((logMember policy member).toList ++ members) t.ms
      (Function.update ks (counterKey key policy.windowMs t.ms) (some ⟨.counter n, d⟩))
      (s.next policy t.ms) := by
  rw [represents_fixedWindow ha] at h ⊢
  intro u hu'
  rw [Ideal.used_next ha]
  by_cases hs : FixedWindow.start policy.windowMs t.ms = FixedWindow.start policy.windowMs u.ms
  · rw [← counterKey_eq_iff.2 hs, Function.update_self, ← hs]
    have hsame := FixedWindow.used_congr s.admitted hs
    have : CounterShows x policy.rate _ _ _ := .counts hn hc
    rw [hu] at this
    simpa [hsame] using this
  · rw [Function.update_of_ne fun he => hs (counterKey_eq_iff.1 he.symm), if_neg fun h => hs h.1]
    exact h u hu'

/-- The reply that goes with a count. -/
theorem fixedWindowReply_verdict (ha : policy.algorithm = .fixedWindow) {n : ℤ}
    (hu : FixedWindow.used policy.windowMs s.admitted t.ms = min (n - 1) policy.rate) :
    Answers policy (s.verdict policy t.ms) (Accepted x t policy.expiryMs)
      (.ok (fixedWindowReply policy.rate policy.windowMs t.ms n)) := by
  have hreset := FixedWindow.lt_start_add policy.windowMs_pos t.ms
  have hretry : max 0 (FixedWindow.start policy.windowMs t.ms + policy.windowMs - t.ms) =
      FixedWindow.start policy.windowMs t.ms + policy.windowMs - t.ms := max_eq_right (by omega)
  refine ⟨(policy.headerLimit_eq_rate (by rw [ha]; decide)).symm, ?_, ite_eq_zero_or_one _⟩
  rw [Ideal.verdict_fixedWindow ha]
  by_cases hle : n ≤ policy.rate
  · rw [FixedWindow.step_of_lt (by omega), hu, min_eq_left (by omega)]
    simp [Reply.verdict, fixedWindowReply, windowStart_eq, hretry, hle]
  · rw [FixedWindow.step_of_ge (by omega)]
    simp only [Reply.verdict, fixedWindowReply, windowStart_eq, hretry, hle]
    rfl

theorem Represents.runFixedWindow (ha : policy.algorithm = .fixedWindow)
    (h : Represents x policy key members t.ms ks s) :
    Refines x t policy key member members ks s
      ((fixedWindowLua key policy.rate policy.windowMs).run x t ks) := by
  have hW := policy.windowMs_pos
  have hpos := policy.rate_pos
  have hmem : counterKey key policy.windowMs t.ms ∈ scriptKeys policy key := by
    simp only [scriptKeys, ha]
    exact ⟨_, rfl⟩
  have hexp : policy.expiryMs = policy.windowMs + 1000 := by simp only [PolicyBase.expiryMs, ha]
  have hcell := (represents_fixedWindow ha).1 h t le_rfl
  generalize hk : ks (counterKey key policy.windowMs t.ms) = e at hcell
  generalize hused : FixedWindow.used policy.windowMs s.admitted t.ms = used at hcell
  cases hcell with
  | absent =>
    have hnext : min 1 policy.rate = if FixedWindow.used policy.windowMs s.admitted t.ms <
        policy.rate then FixedWindow.used policy.windowMs s.admitted t.ms + 1
        else FixedWindow.used policy.windowMs s.admitted t.ms := by
      rw [hused, if_pos hpos]
      omega
    by_cases hacc : Accepted x t (policy.windowMs + 1000)
    · rw [fixedWindowLua_run_fresh hk hacc]
      refine ⟨fixedWindowReply_verdict ha (by omega), ?_, changesOne_expiryAfter hmem _ _ _ _⟩
      refine counterShows_next ha h (by decide) (covers_expiryAfter ?_) hnext
      have := FixedWindow.start_le hW t.ms
      omega
    · rw [fixedWindowLua_run_rejected hk hacc]
      rw [← hexp] at hacc
      exact ⟨hacc, counterShows_next ha h (by decide) covers_none hnext,
        changesOne_rejected hmem hacc _⟩
  | @counts n d pos covers =>
    rw [fixedWindowLua_run_counter pos hk]
    refine ⟨fixedWindowReply_verdict ha (by rw [hused]; congr 1; omega), ?_, _, hmem, _,
      rfl, ?_⟩
    · refine counterShows_next ha h (by omega) covers ?_
      rw [hused]
      split <;> omega
    · intro _ _ hold e₁ he₁
      rw [← Option.mem_some_iff.1 he₁]
      have := hold _ hk
      exact this

/-! ## Sliding logs -/

section Log

variable {ms : List (ℤ ×ₗ String)} {d : Option ℤ}

/-- The oldest score of a log decides when the quota resets. -/
theorem slidingWindowReply_reset (limit W : ℤ) (n : ℤ) (allowed : Bool) (count : ℤ) (l : List ℤ) :
    (slidingWindowReply limit W n allowed count l.head?).verdict =
      ⟨allowed, if allowed then limit - count else 0, SlidingLog.resetAt W l n,
        max 0 (SlidingLog.resetAt W l n - n)⟩ := by
  have hr : l.head?.elim (n + W) (fun score => score + W) = SlidingLog.resetAt W l n := by
    cases l <;> rfl
  cases allowed <;> simp [Reply.verdict, slidingWindowReply, hr]

theorem zentry_expires {ms' : List (ℤ ×ₗ String)} (he : ∀ e₀ ∈ zentry ms d, e₀.expireAt.isSome)
    (hsub : ms'.Sublist ms) : ∀ e₁ ∈ zentry ms' d, e₁.expireAt.isSome := by
  intro e₁ he₁
  rcases eq_or_ne ms' [] with rfl | hne
  · cases he₁
  · have hne' : ms ≠ [] := by
      rintro rfl
      exact hne (List.sublist_nil.1 hsub)
    have hd := he ⟨.zset ms, d⟩ (zentry_of_ne hne' d)
    rw [zentry_of_ne hne, Option.mem_some_iff] at he₁
    rw [← he₁]
    exact hd

theorem slidingWindowReply_allowed (ha : policy.algorithm = .slidingWindowLog)
    (hl : LogShows x policy.windowMs members t.ms ms d s.admitted) (hm : member ∉ members)
    (hc : ((prunedLog policy.windowMs t ms).length : ℤ) < policy.rate) :
    (s.verdict policy t.ms).allowed = true ∧
      Answers policy (s.verdict policy t.ms) (Accepted x t policy.expiryMs)
        (.ok (slidingWindowReply policy.rate policy.windowMs t.ms true
          ((prunedLog policy.windowMs t ms).length + 1)
          (firstScore (extendedLog policy.windowMs t member ms)))) := by
  have hlen := length_prunedLog hl
  have hv := Ideal.verdict_slidingWindowLog (s := s) ha t.ms
  rw [SlidingLog.step_of_lt (by omega)] at hv
  refine ⟨by rw [hv], (policy.headerLimit_eq_rate (by rw [ha]; decide)).symm, ?_, Or.inr rfl⟩
  rw [firstScore_eq, slidingWindowReply_reset, scores_extendedLog hl hm, hv, hlen]
  rfl

/-- The reply that turns a request down. -/
theorem slidingWindowReply_denied (ha : policy.algorithm = .slidingWindowLog)
    (hl : LogShows x policy.windowMs members t.ms ms d s.admitted)
    (hc : policy.rate ≤ ((prunedLog policy.windowMs t ms).length : ℤ)) :
    (s.verdict policy t.ms).allowed = false ∧
      Answers policy (s.verdict policy t.ms) (Accepted x t policy.expiryMs)
        (.ok (slidingWindowReply policy.rate policy.windowMs t.ms false
          (prunedLog policy.windowMs t ms).length
          (firstScore (prunedLog policy.windowMs t ms)))) := by
  have hlen := length_prunedLog hl
  have hv := Ideal.verdict_slidingWindowLog (s := s) ha t.ms
  rw [SlidingLog.step_of_ge (by omega)] at hv
  refine ⟨by rw [hv], (policy.headerLimit_eq_rate (by rw [ha]; decide)).symm, ?_, Or.inl rfl⟩
  rw [firstScore_eq, slidingWindowReply_reset, hl.scores_pruned, hv]
  rfl

/-- The next state of the log, whose key the script writes. -/
theorem represents_nextLog (ha : policy.algorithm = .slidingWindowLog)
    (hl : LogShows x policy.windowMs (member :: members) t.ms ms d
      (s.next policy t.ms).admitted) :
    Represents x policy key ((logMember policy member).toList ++ members) t.ms
      (Function.update ks key (zentry ms d)) (s.next policy t.ms) := by
  have hdrawn : (logMember policy member).toList ++ members = member :: members := by
    rw [logMember, if_pos ha]
    rfl
  rw [represents_slidingWindowLog ha, hdrawn]
  exact ⟨ms, d, Function.update_self .., hl⟩

theorem Represents.runSlidingWindowLog (ha : policy.algorithm = .slidingWindowLog)
    (h : Represents x policy key members t.ms ks s) (hm : member ∉ members) :
    Refines x t policy key member members ks s
      ((slidingWindowLogLua key policy.rate policy.windowMs member).run x t ks) := by
  have hW := policy.windowMs_pos
  have hmem : key ∈ scriptKeys policy key := by simp only [scriptKeys, ha]; rfl
  have hexp : policy.expiryMs = policy.windowMs + 1000 := by simp only [PolicyBase.expiryMs, ha]
  obtain ⟨ms, d, hk, hl⟩ := (represents_slidingWindowLog ha).1 h
  rcases lt_or_ge ((prunedLog policy.windowMs t ms).length : ℤ) policy.rate with hc | hc
  · obtain ⟨hallowed, hanswer⟩ := slidingWindowReply_allowed ha hl hm hc
    have hnext : (s.next policy t.ms).admitted = s.admitted ++ [(t.ms : ℤ)] := if_pos hallowed
    have hrep : ∀ d', (∀ m ∈ extendedLog policy.windowMs t member ms,
        Covers x ((ofLex m).1 + policy.windowMs) d') →
        Represents x policy key ((logMember policy member).toList ++ members) t.ms
          (Function.update ks key (some ⟨.zset (extendedLog policy.windowMs t member ms), d'⟩))
          (s.next policy t.ms) := by
      intro d' hd'
      have hne : extendedLog policy.windowMs t member ms ≠ [] := withMember_ne_nil _ _ _
      rw [← zentry_of_ne hne]
      exact represents_nextLog ha (hnext ▸ hl.extended hm hd')
    by_cases hacc : Accepted x t (policy.windowMs + 1000)
    · rw [slidingWindowLogLua_run_allowed hk hc hacc]
      refine ⟨hanswer, hrep _ fun m hmem => covers_expiryAfter ?_,
        changesOne_expiryAfter hmem _ _ _ _⟩
      have := (hl.extended hm fun _ _ => covers_none).score m hmem
      omega
    · rw [slidingWindowLogLua_run_rejected hk hc hacc]
      have hacc' : ¬Accepted x t policy.expiryMs := hexp ▸ hacc
      refine ⟨hacc', hrep _ fun m hmem => ?_, changesOne_rejected hmem hacc' _⟩
      rw [zexpiry]
      split
      · exact covers_none
      · rename_i hne
        obtain ⟨m₀, hm₀⟩ := List.exists_mem_of_ne_nil _ hne
        have hs := hl.pruned.score m₀ hm₀
        exact (hl.pruned.covers m₀ hm₀).of_rejected hacc (by omega)
  · obtain ⟨hdenied, hanswer⟩ := slidingWindowReply_denied ha hl hc
    have hnext : (s.next policy t.ms).admitted = s.admitted :=
      if_neg (by rw [hdenied]; exact Bool.false_ne_true)
    rw [slidingWindowLogLua_run_denied hk hc]
    refine ⟨hanswer, represents_nextLog ha ?_, _, hmem, _, rfl, ?_⟩
    · rw [hnext]
      exact { hl.pruned with
        member := fun m hm' => List.mem_cons_of_mem _ (hl.pruned.member m hm') }
    · exact fun _ _ he => zentry_expires (hk ▸ he) (prunedLog_sublist _ _ _)

end Log

/-! ## Token buckets -/

/-- The reply to a request that finds `level` tokens. -/
theorem tokenBucketReply_verdict (b : Bucket.State ℚ) (n : ℤ) :
    (tokenBucketReply policy.headerLimit policy.refillPerMs 1 n
      (Bucket.level policy.bucketParams b n)).verdict =
      (Bucket.step policy.bucketParams b n).1 := by
  rcases le_or_gt 1 (Bucket.level policy.bucketParams b n) with hx | hx
  · rw [Bucket.step_of_le hx]
    simp [Reply.verdict, tokenBucketReply, tokensLeft, hx, Bucket.fullAt]
  · rw [Bucket.step_of_lt hx]
    simp [Reply.verdict, tokenBucketReply, tokensLeft, not_le.2 hx, Bucket.fullAt]

/-- The bucket the script writes is the ideal one. -/
theorem bucketAfter_eq {st : Option (ℚ × ℤ)} {d : Option ℤ} {b : Bucket.State ℚ}
    (hb : BucketShows x policy t.ms st d b) :
    ∃ p, bucketAfter policy.headerLimit policy.refillPerMs 1 t st = .hash p.1 p.2 ∧
      (Bucket.step policy.bucketParams b t.ms).2 = some p ∧ p.2 = t.ms := by
  rw [bucketAfter, availableTokens_eq hb.wf, refillStamp_of_wf hb.wf, hb.level]
  rcases le_or_gt 1 (Bucket.level policy.bucketParams b t.ms) with hx | hx
  · rw [Bucket.step_of_le hx, tokensLeft, if_pos hx]
    exact ⟨_, rfl, rfl, rfl⟩
  · rw [Bucket.step_of_lt hx, tokensLeft, if_neg (not_le.2 hx)]
    exact ⟨_, rfl, rfl, rfl⟩

theorem Represents.runTokenBucket (ha : policy.algorithm = .tokenBucket)
    (h : Represents x policy key members t.ms ks s) :
    Refines x t policy key member members ks s
      ((tokenBucketLua key policy.headerLimit policy.refillPerMs 1 policy.ttlMs).run x t ks) := by
  have hmem : key ∈ scriptKeys policy key := by simp only [scriptKeys, ha]; rfl
  have hexp : policy.expiryMs = policy.ttlMs := by simp only [PolicyBase.expiryMs, ha]
  obtain ⟨st, d, hk, hb⟩ := (represents_tokenBucket ha).1 h
  obtain ⟨⟨tokens, last⟩, hafter, hnext, rfl⟩ := bucketAfter_eq hb
  have hbucket : (s.next policy t.ms).bucket = some (tokens, (t.ms : ℤ)) := by
    simp only [Ideal.next, ha]
    exact hnext
  have hrep : ∀ d', Covers x (t.ms + policy.ttlMs) d' →
      Represents x policy key ((logMember policy member).toList ++ members) t.ms
        (Function.update ks key
        (some ⟨.hash tokens t.ms, d'⟩)) (s.next policy t.ms) := by
    intro d' hd'
    rw [represents_tokenBucket ha, hbucket]
    refine ⟨some (tokens, t.ms), d', Function.update_self .., ?_, rfl, ?_⟩
    · have hwf := hb.wf.step (t := t.ms) le_rfl
      rwa [Bucket.step_congr hb.level, hnext] at hwf
    · intro tokens' last' he
      cases he
      exact ⟨Int.natCast_nonneg _, hd'⟩
  by_cases hacc : Accepted x t policy.ttlMs
  · rw [tokenBucketLua_run hk hacc, hafter, availableTokens_eq hb.wf, hb.level]
    refine ⟨⟨rfl, ?_, ite_eq_zero_or_one _⟩, hrep _ (covers_expiryAfter le_rfl),
      changesOne_expiryAfter hmem _ _ _ _⟩
    rw [Ideal.verdict_tokenBucket ha]
    exact tokenBucketReply_verdict _ _
  · rw [tokenBucketLua_run_rejected hk hacc, hafter]
    have hacc' : ¬Accepted x t policy.expiryMs := hexp ▸ hacc
    refine ⟨hacc', hrep _ ?_, changesOne_rejected hmem hacc' _⟩
    cases st with
    | none => exact covers_none
    | some p =>
      obtain ⟨hlast, hc⟩ := hb.covers p.1 p.2 rfl
      exact hc.of_rejected hacc (by omega)

/-! ## Any policy -/

/-- One run of a policy's script on a keyspace without expired keys. -/
theorem Represents.run (h : Represents x policy key members t.ms ks s)
    (hm : ∀ m ∈ logMember policy member, m ∉ members) :
    Refines x t policy key member members ks s ((policyScript policy key member).run x t ks) := by
  rw [policyScript]
  split
  · exact h.runFixedWindow ‹_›
  · exact h.runSlidingWindowLog ‹_› (hm member (if_pos ‹_›))
  · exact h.runTokenBucket ‹_›

/-- **One evaluation of a policy's script is one step of its ideal limiter**, with expiry enforced
or ignored. -/
theorem refines_eval (h : Represents x policy key members now ks s) (hst : now ≤ t.ms)
    (hm : ∀ m ∈ logMember policy member, m ∉ members) :
    Refines x t policy key member members (purge x t.ms ks) s
      (eval x t (policyScript policy key member) ks) :=
  (h.purge hst).run hm

end RateLimiter
