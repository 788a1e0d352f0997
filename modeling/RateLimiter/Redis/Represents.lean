import RateLimiter.Limiter.Ideal
import Mathlib.Tactic.FieldSimp

/-!
# What the keys of a policy say about the ideal limiter

`Represents x policy key members now ks s` relates a keyspace to the ideal limiter of the policy:
seen from `now` on, the keys of the policy hold what the ideal limiter remembers.  Each algorithm
has a relation of its own on the value under one key,

* `CounterShows` for the counter of one window, which also counts requests it turned down,
* `LogShows` for a sorted set, whose scores agree with the admissions inside the window,
* `BucketShows` for a hash, which has the same level as the ideal bucket,

and each says of the deadline of the key that it `Covers` the time the value still matters.  That is
why expiry needs no case of its own later: deleting an expired key keeps the relation
(`Represents.purge`).
-/

set_option autoImplicit false

namespace RateLimiter

open Quota

/-! ## Deadlines -/

/-- No clock of Redis reads this many milliseconds, since the microseconds since the epoch are a
signed number of 64 bits. -/
def clockBound : ℤ := 10 ^ 16

theorem RedisTime.ms_lt_clockBound (t : RedisTime) : (t.ms : ℤ) < clockBound := by
  have := t.ms_lt
  rw [clockBound]
  exact_mod_cast this

/-- A key with deadline `d` lives until `til`, or longer than Redis can tell the time. -/
def Covers (x : Expiry) (til : ℤ) (d : Option ℤ) : Prop :=
  x = .enforced → ∀ e ∈ d, til ≤ e ∨ clockBound ≤ e

variable {x : Expiry} {t : RedisTime} {ks ks' : Keyspace} {k key : String} {til now : ℤ}
  {d : Option ℤ} {v : Value}

theorem covers_none : Covers x til none := fun _ e he => by cases he

/-- A key that `PEXPIRE` has just touched. -/
theorem covers_expiryAfter {ms : ℤ} (hms : til ≤ t.ms + ms) :
    Covers x til (expiryAfter x t ms d) := by
  rintro rfl e he
  left
  rwa [← Option.mem_some_iff.1 he]

/-- A key on which `PEXPIRE` failed: the window is so long that the old deadline is out of reach. -/
theorem Covers.of_rejected {ms u : ℤ} (hc : Covers x u d) (ha : ¬Accepted x t ms)
    (hu : ms - 1000 ≤ u) : Covers x til d := by
  rintro rfl e he
  right
  have ht := t.ms_lt_clockBound
  have hlegal : ¬LegalExpiry t.ms ms := fun h => ha (Or.inr h)
  have hdigits := RedisRelease.le_digitsUpTo
  -- Whatever the reason is, the expiry is longer than Redis can tell the time.
  have hm : clockBound + 1000 ≤ ms := by
    by_contra hlt
    rw [clockBound] at hlt ht
    exact hlegal ⟨by omega, by rw [maxDeadline]; omega⟩
  rcases hc rfl e he with h | h
  · linarith
  · exact h

/-- `eval` keeps a key that is still covered. -/
theorem purge_of_covers (hk : ks k = some ⟨v, d⟩) (hc : Covers x til d) (ht : t.ms < til) :
    purge x t.ms ks k = some ⟨v, d⟩ := by
  cases x with
  | ignored => exact hk
  | enforced =>
    show (ks k).filter (Entry.alive t.ms) = _
    rw [hk]
    cases d with
    | none => rfl
    | some e =>
      have he : (t.ms : ℤ) < e := by
        rcases hc rfl e rfl with h | h
        · omega
        · exact lt_of_lt_of_le t.ms_lt_clockBound h
      simp [Entry.alive, he]

/-- A key `eval` deletes is no longer covered. -/
theorem le_of_purge_eq_none (hk : ks k = some ⟨v, d⟩) (hp : purge x t.ms ks k = none)
    (hc : Covers x til d) : til ≤ t.ms := by
  by_contra hlt
  rw [purge_of_covers hk hc (not_le.1 hlt)] at hp
  cases hp

theorem purge_eq_or (x : Expiry) (now : ℤ) (ks : Keyspace) (k : String) :
    purge x now ks k = ks k ∨ purge x now ks k = none := by
  cases x with
  | ignored => exact Or.inl rfl
  | enforced =>
    show (ks k).filter _ = _ ∨ (ks k).filter _ = _
    rcases hk : ks k with _ | e
    · exact Or.inl rfl
    · by_cases ha : Entry.alive now e = true <;> simp [ha]

/-! ## Counters -/

/-- What the counter of a window with `used` admissions may be; the window ends at `reset`. -/
inductive CounterShows (x : Expiry) (limit reset : ℤ) : Option Entry → ℤ → Prop
  | absent : CounterShows x limit reset none 0
  | counts {n : ℤ} {d : Option ℤ} (pos : 0 < n) (covers : Covers x reset d) :
      CounterShows x limit reset (some ⟨.counter n, d⟩) (min n limit)

theorem CounterShows.purge {limit reset used : ℤ} (h : CounterShows x limit reset (ks k) used)
    (ht : t.ms < reset) : CounterShows x limit reset (purge x t.ms ks k) used := by
  generalize hk : ks k = e at h
  cases h with
  | absent =>
    rcases purge_eq_or x t.ms ks k with hp | hp <;> rw [hp]
    · rw [hk]; exact .absent
    · exact .absent
  | counts pos covers =>
    rw [purge_of_covers hk covers ht]
    exact .counts pos covers

/-! ## Sorted sets -/

/-- The scores of a sorted set. -/
def scores (ms : List (ℤ ×ₗ String)) : List ℤ := ms.map fun m => (ofLex m).1

/-- What the sorted set of a log with admissions `h` may be. -/
structure LogShows (x : Expiry) (W : ℤ) (members : List String) (now : ℤ)
    (ms : List (ℤ ×ₗ String)) (d : Option ℤ) (h : List ℤ) : Prop where
  /-- Redis keeps the members in order. -/
  sorted : ms.Pairwise (· ≤ ·)
  /-- Scores are times of the past. -/
  score : ∀ m ∈ ms, 0 ≤ (ofLex m).1 ∧ (ofLex m).1 ≤ now
  /-- Members come from earlier requests. -/
  member : ∀ m ∈ ms, (ofLex m).2 ∈ members
  /-- From now on the set holds the admissions that count. -/
  live : ∀ t, now ≤ t → SlidingLog.live W (scores ms) t = SlidingLog.live W h t
  /-- The key outlives each of its members. -/
  covers : ∀ m ∈ ms, Covers x ((ofLex m).1 + W) d

section Log

variable {W : ℤ} {members : List String} {ms : List (ℤ ×ₗ String)} {h : List ℤ} {member : String}

theorem LogShows.nil (W : ℤ) : LogShows x W members now [] d [] where
  sorted := .nil
  score m hm := by cases hm
  member m hm := by cases hm
  live _ _ := rfl
  covers m hm := by cases hm

theorem LogShows.later (hl : LogShows x W members now ms d h) (hst : now ≤ t.ms) :
    LogShows x W members t.ms ms d h where
  sorted := hl.sorted
  score m hm := ⟨(hl.score m hm).1, (hl.score m hm).2.trans hst⟩
  member := hl.member
  live u hu := hl.live u (hst.trans hu)
  covers := hl.covers

/-- A log that has expired holds nothing that counts. -/
theorem LogShows.expired (hl : LogShows x W members now ms d h) (hst : now ≤ t.ms)
    (hgone : ∀ m ∈ ms, (ofLex m).1 + W ≤ t.ms) : LogShows x W members t.ms [] d h where
  sorted := .nil
  score m hm := by cases hm
  member m hm := by cases hm
  live u hu := by
    rw [← hl.live u (hst.trans hu), SlidingLog.live_eq_nil (h := scores ms)]
    · rfl
    · intro s hs
      obtain ⟨m, hm, rfl⟩ := List.mem_map.1 hs
      have := hgone m hm
      omega
  covers m hm := by cases hm

theorem LogShows.purge (hl : LogShows x W members now ms d h) (hst : now ≤ t.ms)
    (hk : ks k = zentry ms d) :
    ∃ ms', purge x t.ms ks k = zentry ms' d ∧ LogShows x W members t.ms ms' d h := by
  rcases purge_eq_or x t.ms ks k with hp | hp
  · exact ⟨ms, by rw [hp, hk], hl.later hst⟩
  · refine ⟨[], hp, hl.expired hst fun m hm => ?_⟩
    rw [zentry_of_ne (List.ne_nil_of_mem hm)] at hk
    exact le_of_purge_eq_none hk hp (hl.covers m hm)

/-- The scores `ZREMRANGEBYSCORE` leaves are the ones inside the window. -/
theorem scores_prunedLog (hs : ∀ m ∈ ms, 0 ≤ (ofLex m).1) :
    scores (prunedLog W t ms) = SlidingLog.live W (scores ms) t.ms := by
  rw [scores, prunedLog, withoutScores, SlidingLog.live, scores, List.filter_map]
  refine congrArg _ (List.filter_congr fun m hm => ?_)
  have := hs m hm
  simp only [Function.comp_apply, Bool.not_and]
  by_cases hle : (ofLex m).1 ≤ t.ms - W
  · simp [this, hle]
  · simp [hle, not_le.1 hle]

theorem LogShows.scores_pruned (hl : LogShows x W members t.ms ms d h) :
    scores (prunedLog W t ms) = SlidingLog.live W h t.ms := by
  rw [scores_prunedLog fun m hm => (hl.score m hm).1, hl.live _ le_rfl]

theorem prunedLog_sublist (W : ℤ) (t : RedisTime) (ms : List (ℤ ×ₗ String)) :
    (prunedLog W t ms).Sublist ms := List.filter_sublist

theorem LogShows.pruned (hl : LogShows x W members t.ms ms d h) :
    LogShows x W members t.ms (prunedLog W t ms) d h := by
  have hsub := prunedLog_sublist W t ms
  refine ⟨hl.sorted.sublist hsub, fun m hm => hl.score m (hsub.subset hm),
    fun m hm => hl.member m (hsub.subset hm), fun u hu => ?_,
    fun m hm => hl.covers m (hsub.subset hm)⟩
  rw [scores_prunedLog fun m hm => (hl.score m hm).1, SlidingLog.live_live hu, hl.live u hu]

/-- `ZADD` with a fresh member appends its score. -/
theorem scores_withMember (hsorted : ms.Pairwise (· ≤ ·)) (hle : ∀ m ∈ ms, (ofLex m).1 ≤ now)
    (hfresh : ∀ m ∈ ms, (ofLex m).2 ≠ member) :
    scores (withMember now member ms) = scores ms ++ [now] := by
  have hmono : ∀ {l : List (ℤ ×ₗ String)}, l.Pairwise (· ≤ ·) → (scores l).Pairwise (· ≤ ·) :=
    fun hl => List.pairwise_map.2 (hl.imp fun hab => Prod.Lex.monotone_fst _ _ hab)
  have hfilter : (ms.filter fun m => (ofLex m).2 ≠ member) = ms :=
    List.filter_eq_self.2 fun m hm => by simpa using hfresh m hm
  rw [withMember, hfilter]
  refine List.Perm.eq_of_pairwise' (r := (· ≤ ·)) (hmono (hsorted.orderedInsert _ _)) ?_ ?_
  · rw [List.pairwise_append]
    refine ⟨hmono hsorted, List.pairwise_singleton _ _, fun a ha b hb => ?_⟩
    obtain ⟨m, hm, rfl⟩ := List.mem_map.1 ha
    rw [List.mem_singleton.1 hb]
    exact hle m hm
  · refine ((List.perm_orderedInsert (· ≤ ·) _ ms).map _).trans ?_
    exact (List.perm_append_singleton now (scores ms)).symm

theorem mem_withMember {m : ℤ ×ₗ String} (hm : m ∈ withMember now member ms) :
    m = toLex (now, member) ∨ m ∈ ms := by
  rw [withMember, List.mem_orderedInsert] at hm
  exact hm.imp_right fun h => (List.mem_filter.1 h).1

/-- The log after an admission, whatever became of its `PEXPIRE`. -/
theorem LogShows.extended {d' : Option ℤ} (hl : LogShows x W members t.ms ms d h)
    (hm : member ∉ members)
    (hd : ∀ m ∈ extendedLog W t member ms, Covers x ((ofLex m).1 + W) d') :
    LogShows x W (member :: members) t.ms (extendedLog W t member ms) d' (h ++ [(t.ms : ℤ)]) := by
  have hp := hl.pruned
  have hfresh : ∀ m ∈ prunedLog W t ms, (ofLex m).2 ≠ member := fun m hmem he =>
    hm (he ▸ hp.member m hmem)
  refine ⟨(hp.sorted.filter _).orderedInsert _ _, fun m hmem => ?_, fun m hmem => ?_,
    fun u hu => ?_, hd⟩
  · rcases mem_withMember hmem with rfl | hmem
    · exact ⟨Int.natCast_nonneg _, le_rfl⟩
    · exact hp.score m hmem
  · rcases mem_withMember hmem with rfl | hmem
    · exact List.mem_cons_self
    · exact List.mem_cons_of_mem _ (hp.member m hmem)
  · have hscores := scores_withMember hp.sorted (fun m hmem => (hp.score m hmem).2) hfresh
    rw [extendedLog, hscores]
    exact SlidingLog.live_append_congr (hp.live u hu) _

theorem scores_extendedLog (hl : LogShows x W members t.ms ms d h) (hm : member ∉ members) :
    scores (extendedLog W t member ms) = SlidingLog.live W h t.ms ++ [(t.ms : ℤ)] := by
  have hp := hl.pruned
  have hfresh : ∀ m ∈ prunedLog W t ms, (ofLex m).2 ≠ member := fun m hmem he =>
    hm (he ▸ hp.member m hmem)
  rw [extendedLog, scores_withMember hp.sorted (fun m hmem => (hp.score m hmem).2) hfresh,
    hl.scores_pruned]

theorem length_prunedLog (hl : LogShows x W members t.ms ms d h) :
    (prunedLog W t ms).length = (SlidingLog.live W h t.ms).length := by
  rw [← hl.scores_pruned, scores, List.length_map]

theorem firstScore_eq (ms : List (ℤ ×ₗ String)) : firstScore ms = (scores ms).head? :=
  List.head?_map.symm

end Log

/-! ## Buckets -/

/-- What the hash of a bucket may be: gone once the bucket is full, or with as many tokens as the
ideal bucket. -/
structure BucketShows (x : Expiry) (policy : PolicyBase) (now : ℤ) (st : Option (ℚ × ℤ))
    (d : Option ℤ) (b : Bucket.State ℚ) : Prop where
  /-- The token count is in range. -/
  wf : Bucket.WF policy.bucketParams st now
  /-- The hash and the ideal bucket hold as much. -/
  level : Bucket.level policy.bucketParams st now = Bucket.level policy.bucketParams b now
  /-- The key outlives the refill. -/
  covers : ∀ tokens last, st = some (tokens, last) → 0 ≤ last ∧ Covers x (last + policy.ttlMs) d

section Bucket

variable {policy : PolicyBase} {st : Option (ℚ × ℤ)} {b : Bucket.State ℚ}

theorem BucketShows.later (hb : BucketShows x policy now st d b) (hst : now ≤ t.ms) :
    BucketShows x policy t.ms st d b :=
  ⟨hb.wf.mono hst, Bucket.level_congr hb.level hst, hb.covers⟩

/-- A bucket that has expired was full. -/
theorem BucketShows.purge (hb : BucketShows x policy now st d b) (hst : now ≤ t.ms)
    (hk : ks k = bucketEntry st d) :
    ∃ st', purge x t.ms ks k = bucketEntry st' d ∧ BucketShows x policy t.ms st' d b := by
  rcases purge_eq_or x t.ms ks k with hp | hp
  · exact ⟨st, by rw [hp, hk], hb.later hst⟩
  · refine ⟨none, hp, Bucket.wf_none, ?_, fun _ _ hn => by cases hn⟩
    have hl := Bucket.level_congr hb.level hst
    cases st with
    | none => exact hl
    | some p =>
      obtain ⟨tokens, last⟩ := p
      have hle := le_of_purge_eq_none hk hp (hb.covers tokens last rfl).2
      have hfull : (policy.bucketParams.capacity - tokens) / policy.bucketParams.rate
          ≤ ((t.ms - last : ℤ) : ℚ) := by
        calc (policy.bucketParams.capacity - tokens) / policy.bucketParams.rate
            ≤ policy.bucketParams.capacity / policy.bucketParams.rate :=
              div_le_div_of_nonneg_right (sub_le_self _ (hb.wf tokens last rfl).1)
                policy.refillPerMs_pos.le
          _ ≤ policy.ttlMs := policy.refill_le_ttlMs
          _ ≤ ((t.ms - last : ℤ) : ℚ) := by exact_mod_cast le_sub_iff_add_le'.2 hle
      rw [← hl, Bucket.level_eq_capacity hfull]
      rfl

/-- The tokens the script works with are the level of the bucket. -/
theorem availableTokens_eq (hb : Bucket.WF policy.bucketParams st t.ms) :
    availableTokens policy.headerLimit policy.refillPerMs t st =
      Bucket.level policy.bucketParams st t.ms := by
  cases st with
  | none => simp [availableTokens, refilledTokens, Bucket.level, PolicyBase.bucketParams]
  | some p =>
    obtain ⟨tokens, last⟩ := p
    obtain ⟨-, hcap, hlast⟩ := hb tokens last rfl
    simp only [availableTokens, refilledTokens, Option.map_some, Option.getD_some]
    split
    · rfl
    · rw [show last = (t.ms : ℤ) by omega, Bucket.level_self hcap]

theorem refillStamp_of_wf (hb : Bucket.WF policy.bucketParams st t.ms) :
    refillStamp t st = t.ms := by
  cases st with
  | none => simp [refillStamp]
  | some p => simpa [refillStamp] using (hb p.1 p.2 rfl).2.2

end Bucket

/-! ## Keyspaces -/

/-- The keys the script of a policy uses when it is given `key`. -/
def scriptKeys (policy : PolicyBase) (key : String) : Set String :=
  match policy.algorithm with
  | .fixedWindow => {k | ∃ windowStart, k = windowKey key windowStart}
  | .slidingWindowLog | .tokenBucket => {key}

/-- The keys of `policy` under `key`, seen from `now` on, hold what the ideal limiter `s` does. -/
def Represents (x : Expiry) (policy : PolicyBase) (key : String) (members : List String) (now : ℤ)
    (ks : Keyspace) (s : Ideal) : Prop :=
  match policy.algorithm with
  | .fixedWindow => ∀ t : RedisTime, now ≤ t.ms →
      CounterShows x policy.rate (FixedWindow.start policy.windowMs t.ms + policy.windowMs)
        (ks (counterKey key policy.windowMs t.ms))
        (FixedWindow.used policy.windowMs s.admitted t.ms)
  | .slidingWindowLog => ∃ ms d, ks key = zentry ms d ∧
      LogShows x policy.windowMs members now ms d s.admitted
  | .tokenBucket => ∃ st d, ks key = bucketEntry st d ∧ BucketShows x policy now st d s.bucket

section Represents

variable {policy : PolicyBase} {members : List String} {s : Ideal}

theorem represents_fixedWindow (ha : policy.algorithm = .fixedWindow) :
    Represents x policy key members now ks s ↔ ∀ t : RedisTime, now ≤ t.ms →
      CounterShows x policy.rate (FixedWindow.start policy.windowMs t.ms + policy.windowMs)
        (ks (counterKey key policy.windowMs t.ms))
        (FixedWindow.used policy.windowMs s.admitted t.ms) := by
  simp only [Represents, ha]

theorem represents_slidingWindowLog (ha : policy.algorithm = .slidingWindowLog) :
    Represents x policy key members now ks s ↔ ∃ ms d, ks key = zentry ms d ∧
      LogShows x policy.windowMs members now ms d s.admitted := by
  simp only [Represents, ha]

theorem represents_tokenBucket (ha : policy.algorithm = .tokenBucket) :
    Represents x policy key members now ks s ↔
      ∃ st d, ks key = bucketEntry st d ∧ BucketShows x policy now st d s.bucket := by
  simp only [Represents, ha]

theorem represents_empty (hks : ∀ k ∈ scriptKeys policy key, ks k = none) :
    Represents x policy key members now ks .empty := by
  cases ha : policy.algorithm with
  | fixedWindow =>
    simp only [scriptKeys, ha] at hks
    simp only [Represents, ha]
    intro t _
    rw [counterKey, hks _ ⟨_, rfl⟩]
    exact .absent
  | slidingWindowLog =>
    simp only [scriptKeys, ha] at hks
    simp only [Represents, ha]
    exact ⟨[], none, hks key rfl, .nil _⟩
  | tokenBucket =>
    simp only [scriptKeys, ha] at hks
    simp only [Represents, ha]
    exact ⟨none, none, hks key rfl, Bucket.wf_none, rfl, fun _ _ hn => by cases hn⟩

/-- Only the keys of the policy matter. -/
theorem Represents.congr (h : Represents x policy key members now ks s)
    (hks : ∀ k ∈ scriptKeys policy key, ks' k = ks k) :
    Represents x policy key members now ks' s := by
  cases ha : policy.algorithm with
  | fixedWindow =>
    simp only [scriptKeys, ha] at hks
    simp only [Represents, ha] at h ⊢
    intro t ht
    rw [counterKey, hks _ ⟨_, rfl⟩]
    exact h t ht
  | slidingWindowLog =>
    simp only [scriptKeys, ha] at hks
    simp only [Represents, ha] at h ⊢
    rwa [hks key rfl]
  | tokenBucket =>
    simp only [scriptKeys, ha] at hks
    simp only [Represents, ha] at h ⊢
    rwa [hks key rfl]

theorem Represents.weaken (h : Represents x policy key members now ks s) (more : List String) :
    Represents x policy key (more ++ members) now ks s := by
  rw [Represents] at h ⊢
  split at h
  · exact h
  · obtain ⟨ms, d, hk, hl⟩ := h
    exact ⟨ms, d, hk, { hl with member := fun m hm => List.mem_append_right _ (hl.member m hm) }⟩
  · exact h

/-- **Expiry is invisible**, as far as one policy goes: deleting the expired keys keeps the
relation to the ideal limiter. -/
theorem Represents.purge (h : Represents x policy key members now ks s) (hst : now ≤ t.ms) :
    Represents x policy key members t.ms (purge x t.ms ks) s := by
  rw [Represents] at h ⊢
  split at h
  · intro u hu
    refine (h u (hst.trans hu)).purge (lt_of_le_of_lt hu ?_)
    exact FixedWindow.lt_start_add policy.windowMs_pos _
  · obtain ⟨ms, d, hk, hl⟩ := h
    obtain ⟨ms', hk', hl'⟩ := hl.purge hst hk
    exact ⟨ms', d, hk', hl'⟩
  · obtain ⟨st, d, hk, hb⟩ := h
    obtain ⟨st', hk', hb'⟩ := hb.purge hst hk
    exact ⟨st', d, hk', hb'⟩

end Represents

end RateLimiter
