import RateLimiter.Policy.Keys
import RateLimiter.Redis.Store
import Mathlib.Data.Rat.Floor

/-!
# The three Lua scripts

`fixedWindowLua`, `slidingWindowLogLua` and `tokenBucketLua` are the scripts of
`app/redis/scripts.py`, statement by statement.  Each touches one key, and after each script stand
its specification lemmas: the reply and the new entry of that key, for every entry the key can
have.  Everything later is proved from these, without opening a script again.
-/

set_option autoImplicit false

namespace RateLimiter

/-- The array a script returns.  Redis truncates the Lua numbers in it to integers. -/
structure Reply where
  /-- `1` or `0`. -/
  allowed : ℤ
  /-- The limit, or the capacity of the bucket. -/
  limit : ℤ
  /-- What is left after this request. -/
  remaining : ℤ
  /-- `reset_at_ms`. -/
  resetAtMs : ℤ
  /-- `retry_ms`. -/
  retryMs : ℤ
  /-- The counter, the size of the log or the tokens. -/
  observed : ℤ
  deriving DecidableEq, Repr

/-- A Lua number in a reply: Redis drops the fraction. -/
def truncate (q : ℚ) : ℤ := if 0 ≤ q then ⌊q⌋ else ⌈q⌉

/-- The start of the aligned window `now_ms` lies in, which is part of the counter's key. -/
def windowStart (windowMs nowMs : ℤ) : ℤ := nowMs - nowMs % windowMs

/-! ## `FIXED_WINDOW_LUA` -/

/-- The reply once the counter has been incremented to `count`. -/
def fixedWindowReply (limit windowMs nowMs count : ℤ) : Reply :=
  let resetAtMs := windowStart windowMs nowMs + windowMs
  { allowed := if count ≤ limit then 1 else 0
    limit := limit
    remaining := if count ≤ limit then limit - count else 0
    resetAtMs := resetAtMs
    retryMs := max 0 (resetAtMs - nowMs)
    observed := count }

/-- The key of the counter of the window `now_ms` lies in. -/
def counterKey (key : String) (windowMs nowMs : ℤ) : String :=
  windowKey key (windowStart windowMs nowMs).toNat

/-- `if count == 1 then redis.call("PEXPIRE", key, window_ms + 1000) end`. -/
def expireFirst [RedisRelease] (key : String) (windowMs count : ℤ) : Script Unit :=
  if count = 1 then pexpire key (windowMs + 1000) else pure ()

/-- `FIXED_WINDOW_LUA`: increment the counter of the current window, give it a deadline if it is
new, and compare it with the limit. -/
def fixedWindowLua [RedisRelease] (key : String) (limit windowMs : ℤ) : Script Reply := do
  let nowMs ← time
  let count ← incr (counterKey key windowMs nowMs)
  expireFirst (counterKey key windowMs nowMs) windowMs count
  return fixedWindowReply limit windowMs nowMs count

/-! ## `SLIDING_WINDOW_LOG_LUA` -/

/-- The reply once the log holds `count` members, the oldest with score `oldest`. -/
def slidingWindowReply (limit windowMs nowMs : ℤ) (allowed : Bool) (count : ℤ)
    (oldest : Option ℤ) : Reply :=
  let resetAtMs := oldest.elim (nowMs + windowMs) fun score => score + windowMs
  { allowed := if allowed then 1 else 0
    limit := limit
    remaining := if allowed then limit - count else 0
    resetAtMs := resetAtMs
    retryMs := max 0 (resetAtMs - nowMs)
    observed := count }

/-- `SLIDING_WINDOW_LOG_LUA`: drop what has left the window, count the rest, and add the request's
member if there is room. -/
def slidingWindowLogLua [RedisRelease] (key : String) (limit windowMs : ℤ) (member : String) :
    Script Reply := do
  let nowMs ← time
  let cutoff := nowMs - windowMs
  zremrangebyscore key 0 cutoff
  let count ← zcard key
  if count < limit then do
    zadd key nowMs member
    pexpire key (windowMs + 1000)
    let oldest ← zfirst key
    return slidingWindowReply limit windowMs nowMs true (count + 1) oldest
  else do
    let oldest ← zfirst key
    return slidingWindowReply limit windowMs nowMs false count oldest

/-! ## `TOKEN_BUCKET_LUA` -/

/-- The tokens after the refill: `tokens` as stored at `last`, the capacity if nothing is. -/
def refilledTokens (capacity : ℤ) (refillPerMs : ℚ) (nowMs : ℤ) (tokens : ℚ) (last : ℤ) : ℚ :=
  if nowMs > last then min (capacity : ℚ) (tokens + (nowMs - last : ℤ) * refillPerMs) else tokens

/-- What stays in the bucket: `requested` tokens are taken if they are there. -/
def tokensLeft (requested tokens : ℚ) : ℚ :=
  if requested ≤ tokens then tokens - requested else tokens

/-- The reply, `tokens` being the refilled tokens before the request takes any. -/
def tokenBucketReply (capacity : ℤ) (refillPerMs requested : ℚ) (nowMs : ℤ) (tokens : ℚ) : Reply :=
  let left := tokensLeft requested tokens
  { allowed := if requested ≤ tokens then 1 else 0
    limit := capacity
    remaining := ⌊left⌋
    resetAtMs := nowMs + ⌈(capacity - left) / refillPerMs⌉
    retryMs := if requested ≤ tokens then 0 else ⌈(requested - tokens) / refillPerMs⌉
    observed := truncate left }

/-- `TOKEN_BUCKET_LUA`: refill for the time that has passed, take what is requested if it is there,
and store tokens and time. -/
def tokenBucketLua [RedisRelease] (key : String) (capacity : ℤ) (refillPerMs requested : ℚ)
    (ttlMs : ℤ) : Script Reply := do
  let nowMs ← time
  let current ← hmget key
  let last := current.2.getD nowMs
  let tokens := refilledTokens capacity refillPerMs nowMs (current.1.getD capacity) last
  hmset key (tokensLeft requested tokens) (if nowMs > last then nowMs else last)
  pexpire key ttlMs
  return tokenBucketReply capacity refillPerMs requested nowMs tokens

/-! ## What the commands do to one key -/

section Commands

variable {x : Expiry} {t : RedisTime} {ks : Keyspace} {key : String}

/-- `PEXPIRE` succeeds: it has no effect at all, or the expiry is legal at the time of the run. -/
def Accepted [RedisRelease] (x : Expiry) (t : RedisTime) (ms : ℤ) : Prop :=
  x = .ignored ∨ LegalExpiry t.ms ms

/-- What `PEXPIRE` fails with when it does: the text of the number is no integer for Redis, or the
deadline is out of range. -/
def expireError [RedisRelease] (ms : ℤ) : RedisError :=
  if ms ≤ RedisRelease.digitsUpTo then .invalidExpireTime else .notAnInteger

/-- The expiry of a key after a successful `PEXPIRE`. -/
def expiryAfter (x : Expiry) (t : RedisTime) (ms : ℤ) (old : Option ℤ) : Option ℤ :=
  match x with
  | .ignored => old
  | .enforced => some (t.ms + ms)

theorem run_time : time.run x t ks = (.ok (t.ms : ℤ), ks) := rfl

theorem setValue_none {v : Value} (h : ks key = none) :
    setValue key v ks = Function.update ks key (some ⟨v, none⟩) := by
  rw [setValue, h]; rfl

theorem setValue_some {v w : Value} {d : Option ℤ} (h : ks key = some ⟨w, d⟩) :
    setValue key v ks = Function.update ks key (some ⟨v, d⟩) := by
  rw [setValue, h]; rfl

theorem run_incr_none (h : ks key = none) :
    (incr key).run x t ks = (.ok 1, Function.update ks key (some ⟨.counter 1, none⟩)) := by
  rw [← setValue_none h]
  simp [Script.run, incr, h]

theorem run_incr_counter {n : ℤ} {d : Option ℤ} (h : ks key = some ⟨.counter n, d⟩) :
    (incr key).run x t ks =
      (.ok (n + 1), Function.update ks key (some ⟨.counter (n + 1), d⟩)) := by
  rw [← setValue_some h]
  simp [Script.run, incr, h]

theorem run_pexpire [RedisRelease] {v : Value} {d : Option ℤ} {ms : ℤ} (h : ks key = some ⟨v, d⟩)
    (ha : Accepted x t ms) :
    (pexpire key ms).run x t ks =
      (.ok (), Function.update ks key (some ⟨v, expiryAfter x t ms d⟩)) := by
  cases x with
  | ignored =>
    show (_, ks) = (_, Function.update ks key (some ⟨v, d⟩))
    rw [← h, Function.update_eq_self]
  | enforced =>
    have ha' : LegalExpiry t.ms ms := by simpa [Accepted] using ha
    simp [Script.run, pexpire, ha', h, expiryAfter]

theorem run_pexpire_rejected [RedisRelease] {ms : ℤ} (ha : ¬Accepted x t ms) :
    (pexpire key ms).run x t ks = (.error (expireError ms), ks) := by
  rw [Accepted, not_or] at ha
  cases x with
  | ignored => exact absurd rfl ha.1
  | enforced =>
    simp only [Script.run, pexpire, if_neg ha.2, expireError]
    split <;> rfl

/-! ### Sorted sets

A sorted set that becomes empty is deleted, so the key of a sorted set holds `zentry ms d`. -/

/-- The entry of a sorted set with members `ms`. -/
def zentry (ms : List (ℤ ×ₗ String)) (d : Option ℤ) : Option Entry :=
  if ms = [] then none else some ⟨.zset ms, d⟩

/-- The expiry a sorted set passes on when members are added: none if it was deleted. -/
def zexpiry (ms : List (ℤ ×ₗ String)) (d : Option ℤ) : Option ℤ := if ms = [] then none else d

theorem zentry_nil (d : Option ℤ) : zentry [] d = none := rfl

theorem zentry_of_ne {ms : List (ℤ ×ₗ String)} (h : ms ≠ []) (d : Option ℤ) :
    zentry ms d = some ⟨.zset ms, d⟩ := if_neg h

theorem zentry_bind_expireAt (ms : List (ℤ ×ₗ String)) (d : Option ℤ) :
    (zentry ms d).bind Entry.expireAt = zexpiry ms d := by
  rw [zentry, zexpiry]
  split <;> rfl

variable {ms : List (ℤ ×ₗ String)} {d : Option ℤ}

theorem run_zmembers (h : ks key = zentry ms d) : (zmembers key).run x t ks = (.ok ms, ks) := by
  rw [zentry] at h
  split at h
  · rename_i hn
    simp [Script.run, zmembers, h, hn]
  · simp [Script.run, zmembers, h]

theorem run_zstore (h : ks key = zentry ms d) (ms' : List (ℤ ×ₗ String)) :
    (zstore key ms').run x t ks =
      (.ok (), Function.update ks key (zentry ms' (zexpiry ms d))) := by
  by_cases hn : ms' = []
  · simp [Script.run, zstore, hn, zentry_nil]
  · rw [zentry_of_ne hn, ← zentry_bind_expireAt, ← h]
    simp [Script.run, zstore, hn, setValue]

/-- What is left of a sorted set when the scores from `lo` to `hi` are removed. -/
def withoutScores (lo hi : ℤ) (ms : List (ℤ ×ₗ String)) : List (ℤ ×ₗ String) :=
  ms.filter fun m => !(lo ≤ (ofLex m).1 && (ofLex m).1 ≤ hi)

/-- A sorted set after `ZADD`. -/
def withMember (score : ℤ) (member : String) (ms : List (ℤ ×ₗ String)) : List (ℤ ×ₗ String) :=
  (ms.filter fun m => (ofLex m).2 ≠ member).orderedInsert (· ≤ ·) (toLex (score, member))

theorem withMember_ne_nil (score : ℤ) (member : String) (ms : List (ℤ ×ₗ String)) :
    withMember score member ms ≠ [] := by
  intro h
  have hl := congrArg List.length h
  rw [withMember, List.orderedInsert_length] at hl
  exact absurd hl (by simp)

theorem zentry_withoutScores (lo hi : ℤ) :
    zentry (withoutScores lo hi ms) (zexpiry ms d) = zentry (withoutScores lo hi ms) d := by
  rw [zexpiry]
  split
  · rename_i hn
    rw [hn]
    rfl
  · rfl

theorem run_zremrangebyscore (h : ks key = zentry ms d) (lo hi : ℤ) :
    (zremrangebyscore key lo hi).run x t ks =
      (.ok (), Function.update ks key (zentry (withoutScores lo hi ms) d)) := by
  rw [zremrangebyscore, Script.run_bind_ok (run_zmembers h), run_zstore h]
  rw [← zentry_withoutScores (d := d)]
  rfl

theorem run_zcard (h : ks key = zentry ms d) :
    (zcard key).run x t ks = (.ok (ms.length : ℤ), ks) := by
  rw [zcard, Script.run_bind_ok (run_zmembers h)]
  rfl

theorem run_zadd (h : ks key = zentry ms d) (score : ℤ) (member : String) :
    (zadd key score member).run x t ks =
      (.ok (),
        Function.update ks key (some ⟨.zset (withMember score member ms), zexpiry ms d⟩)) := by
  rw [zadd, Script.run_bind_ok (run_zmembers h), run_zstore h, ← zentry_of_ne]
  · rfl
  · exact withMember_ne_nil score member ms

theorem run_zfirst (h : ks key = zentry ms d) :
    (zfirst key).run x t ks = (.ok (ms.head?.map fun m => (ofLex m).1), ks) := by
  rw [zfirst, Script.run_bind_ok (run_zmembers h)]
  rfl

/-! ### Hashes -/

/-- The entry of a bucket. -/
def bucketEntry (st : Option (ℚ × ℤ)) (d : Option ℤ) : Option Entry :=
  st.map fun p => ⟨.hash p.1 p.2, d⟩

theorem run_hmget {st : Option (ℚ × ℤ)} (h : ks key = bucketEntry st d) :
    (hmget key).run x t ks = (.ok (st.map Prod.fst, st.map Prod.snd), ks) := by
  cases st <;> simp_all [Script.run, hmget, bucketEntry]

theorem run_hmset {st : Option (ℚ × ℤ)} (h : ks key = bucketEntry st d) (tokens : ℚ) (last : ℤ) :
    (hmset key tokens last).run x t ks = (.ok (), Function.update ks key
      (some ⟨.hash tokens last, (bucketEntry st d).bind Entry.expireAt⟩)) := by
  cases st <;> simp_all [Script.run, hmset, bucketEntry, setValue]

end Commands

/-! ## What the scripts do -/

section Runs

variable [RedisRelease] {x : Expiry} {t : RedisTime} {ks : Keyspace} {key : String}
  {limit windowMs : ℤ}

theorem fixedWindowLua_run_counter {n : ℤ} {d : Option ℤ} (hn : 0 < n)
    (h : ks (counterKey key windowMs t.ms) = some ⟨.counter n, d⟩) :
    (fixedWindowLua key limit windowMs).run x t ks =
      (.ok (fixedWindowReply limit windowMs t.ms (n + 1)),
        Function.update ks (counterKey key windowMs t.ms) (some ⟨.counter (n + 1), d⟩)) := by
  rw [fixedWindowLua, Script.run_bind_ok run_time, Script.run_bind_ok (run_incr_counter h),
    expireFirst, if_neg (by omega), Script.run_bind_ok (Script.run_pure _)]
  rfl

theorem fixedWindowLua_run_fresh (h : ks (counterKey key windowMs t.ms) = none)
    (ha : Accepted x t (windowMs + 1000)) :
    (fixedWindowLua key limit windowMs).run x t ks =
      (.ok (fixedWindowReply limit windowMs t.ms 1),
        Function.update ks (counterKey key windowMs t.ms)
          (some ⟨.counter 1, expiryAfter x t (windowMs + 1000) none⟩)) := by
  rw [fixedWindowLua, Script.run_bind_ok run_time, Script.run_bind_ok (run_incr_none h),
    expireFirst, if_pos rfl, Script.run_bind_ok (run_pexpire (Function.update_self ..) ha),
    Function.update_idem]
  rfl

theorem fixedWindowLua_run_rejected (h : ks (counterKey key windowMs t.ms) = none)
    (ha : ¬Accepted x t (windowMs + 1000)) :
    (fixedWindowLua key limit windowMs).run x t ks =
      (.error (expireError (windowMs + 1000)),
        Function.update ks (counterKey key windowMs t.ms) (some ⟨.counter 1, none⟩)) := by
  rw [fixedWindowLua, Script.run_bind_ok run_time, Script.run_bind_ok (run_incr_none h),
    expireFirst, if_pos rfl, Script.run_bind_error (run_pexpire_rejected ha)]

variable {member : String} {ms : List (ℤ ×ₗ String)} {d : Option ℤ}

/-- The log of `key` as `ZREMRANGEBYSCORE` leaves it: without the members that are a window old or
older. -/
def prunedLog (windowMs : ℤ) (t : RedisTime) (ms : List (ℤ ×ₗ String)) : List (ℤ ×ₗ String) :=
  withoutScores 0 (t.ms - windowMs) ms

/-- The log with this request's member, scored with the time of the request. -/
def extendedLog (windowMs : ℤ) (t : RedisTime) (member : String) (ms : List (ℤ ×ₗ String)) :
    List (ℤ ×ₗ String) :=
  withMember t.ms member (prunedLog windowMs t ms)

/-- The oldest score of a log. -/
def firstScore (ms : List (ℤ ×ₗ String)) : Option ℤ := ms.head?.map fun m => (ofLex m).1

theorem slidingWindowLogLua_run_denied (h : ks key = zentry ms d)
    (hc : limit ≤ ((prunedLog windowMs t ms).length : ℤ)) :
    (slidingWindowLogLua key limit windowMs member).run x t ks =
      (.ok (slidingWindowReply limit windowMs t.ms false (prunedLog windowMs t ms).length
          (firstScore (prunedLog windowMs t ms))),
        Function.update ks key (zentry (prunedLog windowMs t ms) d)) := by
  rw [prunedLog] at hc ⊢
  have h' := Function.update_self key (zentry (withoutScores 0 (t.ms - windowMs) ms) d) ks
  rw [slidingWindowLogLua, Script.run_bind_ok run_time,
    Script.run_bind_ok (run_zremrangebyscore h _ _), Script.run_bind_ok (run_zcard h'),
    if_neg (not_lt.2 hc), Script.run_bind_ok (run_zfirst h')]
  rfl

theorem slidingWindowLogLua_run_allowed (h : ks key = zentry ms d)
    (hc : ((prunedLog windowMs t ms).length : ℤ) < limit) (ha : Accepted x t (windowMs + 1000)) :
    (slidingWindowLogLua key limit windowMs member).run x t ks =
      (.ok (slidingWindowReply limit windowMs t.ms true ((prunedLog windowMs t ms).length + 1)
          (firstScore (extendedLog windowMs t member ms))),
        Function.update ks key (some ⟨.zset (extendedLog windowMs t member ms),
          expiryAfter x t (windowMs + 1000) (zexpiry (prunedLog windowMs t ms) d)⟩)) := by
  rw [extendedLog]
  rw [prunedLog] at hc ⊢
  have h' := Function.update_self key (zentry (withoutScores 0 (t.ms - windowMs) ms) d) ks
  have hz := zentry_of_ne
    (withMember_ne_nil t.ms member (withoutScores 0 (t.ms - windowMs) ms))
  rw [slidingWindowLogLua, Script.run_bind_ok run_time,
    Script.run_bind_ok (run_zremrangebyscore h _ _), Script.run_bind_ok (run_zcard h'),
    if_pos hc, Script.run_bind_ok (run_zadd h' _ _),
    Script.run_bind_ok (run_pexpire (Function.update_self ..) ha), Function.update_idem,
    Function.update_idem, ← hz, Script.run_bind_ok (run_zfirst (Function.update_self ..))]
  rfl

theorem slidingWindowLogLua_run_rejected (h : ks key = zentry ms d)
    (hc : ((prunedLog windowMs t ms).length : ℤ) < limit) (ha : ¬Accepted x t (windowMs + 1000)) :
    (slidingWindowLogLua key limit windowMs member).run x t ks =
      (.error (expireError (windowMs + 1000)),
        Function.update ks key (some ⟨.zset (extendedLog windowMs t member ms),
          zexpiry (prunedLog windowMs t ms) d⟩)) := by
  rw [extendedLog]
  rw [prunedLog] at hc ⊢
  have h' := Function.update_self key (zentry (withoutScores 0 (t.ms - windowMs) ms) d) ks
  rw [slidingWindowLogLua, Script.run_bind_ok run_time,
    Script.run_bind_ok (run_zremrangebyscore h _ _), Script.run_bind_ok (run_zcard h'),
    if_pos hc, Script.run_bind_ok (run_zadd h' _ _),
    Script.run_bind_error (run_pexpire_rejected ha), Function.update_idem]

variable {capacity ttlMs : ℤ} {refillPerMs requested : ℚ} {st : Option (ℚ × ℤ)}

/-- The tokens of the bucket at `t`, before the request: those of the hash and what has come in
since, at most the capacity. -/
def availableTokens (capacity : ℤ) (refillPerMs : ℚ) (t : RedisTime) (st : Option (ℚ × ℤ)) : ℚ :=
  refilledTokens capacity refillPerMs t.ms ((st.map Prod.fst).getD capacity)
    ((st.map Prod.snd).getD t.ms)

/-- `last_refill_ms` after the script: the time of the run, or the old one if that is later. -/
def refillStamp (t : RedisTime) (st : Option (ℚ × ℤ)) : ℤ := max t.ms ((st.map Prod.snd).getD t.ms)

/-- The bucket after the script: what was available, without what was requested if it was there, and
the new stamp. -/
def bucketAfter (capacity : ℤ) (refillPerMs requested : ℚ) (t : RedisTime)
    (st : Option (ℚ × ℤ)) : Value :=
  .hash (tokensLeft requested (availableTokens capacity refillPerMs t st)) (refillStamp t st)

omit [RedisRelease] in
theorem refillStamp_eq (t : RedisTime) (st : Option (ℚ × ℤ)) :
    refillStamp t st = if (t.ms : ℤ) > (st.map Prod.snd).getD t.ms then (t.ms : ℤ)
      else (st.map Prod.snd).getD t.ms := by
  rw [refillStamp]
  split <;> omega

theorem tokenBucketLua_run (h : ks key = bucketEntry st d) (ha : Accepted x t ttlMs) :
    (tokenBucketLua key capacity refillPerMs requested ttlMs).run x t ks =
      (.ok (tokenBucketReply capacity refillPerMs requested t.ms
          (availableTokens capacity refillPerMs t st)),
        Function.update ks key (some ⟨bucketAfter capacity refillPerMs requested t st,
          expiryAfter x t ttlMs ((bucketEntry st d).bind Entry.expireAt)⟩)) := by
  rw [tokenBucketLua, Script.run_bind_ok run_time, Script.run_bind_ok (run_hmget h),
    Script.run_bind_ok (run_hmset h _ _),
    Script.run_bind_ok (run_pexpire (Function.update_self ..) ha), Function.update_idem,
    bucketAfter, refillStamp_eq]
  rfl

theorem tokenBucketLua_run_rejected (h : ks key = bucketEntry st d) (ha : ¬Accepted x t ttlMs) :
    (tokenBucketLua key capacity refillPerMs requested ttlMs).run x t ks =
      (.error (expireError ttlMs),
        Function.update ks key (some ⟨bucketAfter capacity refillPerMs requested t st,
          (bucketEntry st d).bind Entry.expireAt⟩)) := by
  rw [tokenBucketLua, Script.run_bind_ok run_time, Script.run_bind_ok (run_hmget h),
    Script.run_bind_ok (run_hmset h _ _), Script.run_bind_error (run_pexpire_rejected ha),
    bucketAfter, refillStamp_eq]
  rfl

end Runs

end RateLimiter
