import RateLimiter.Policy.Schema
import RateLimiter.Lib.LuaNumber
import Std.Data.String.ToInt

/-!
# Identities, matching and rate-limit keys

`policyMatches` is the selector test of `policy_matcher.py`, `buildRateLimitKey` the key of
`key_builder.py`.  A key is an unescaped `":".join` whose last segments hold strings a client
chooses, and the fixed-window script appends one more `:`-separated number to it.  The first four
segments are free of colons, so they can be read back from any key (`keyHead_inj`), whatever
follows them; that is all the separation of policies rests on.
-/

set_option autoImplicit false

namespace RateLimiter

/-- `RequestIdentity`: by what a request is matched and counted. Only the route is always there. -/
structure RequestIdentity where
  route : String
  /-- `user_id`. -/
  userId : Option String
  /-- `ip_address`. -/
  ipAddress : Option String
  /-- `tenant_id`. -/
  tenantId : Option String
  /-- `api_key`. -/
  apiKey : Option String
  deriving DecidableEq, Repr

/-- A user on a route. -/
def RequestIdentity.sample : RequestIdentity := ⟨"/", some "u", none, none, none⟩

/-- One line of `policy_matches`: a selector that is set must equal the identity's value. -/
def selectorMatches (selector value : Option String) : Bool :=
  !(selector.isSome && selector != value)

/-- `policy_matches`: every selector that is set equals what the request has in its place; one that
is not set matches everything. -/
def policyMatches (policy : PolicyBase) (identity : RequestIdentity) : Bool :=
  selectorMatches (policy.field .route) (some identity.route) &&
  selectorMatches (policy.field .userId) identity.userId &&
  selectorMatches (policy.field .ipAddress) identity.ipAddress &&
  selectorMatches (policy.field .tenantId) identity.tenantId &&
  selectorMatches (policy.field .apiKey) identity.apiKey

/-- Python's `value or default` on strings: `None` and the empty string are false. -/
def orElse (value : Option String) (default : String) : String :=
  match value with
  | none => default
  | some v => if v = "" then default else v

/-- One of the four `if policy.x is not None: segments.append(f"x={identity.x or policy.x}")`. -/
def selectorSegment (label : String) (selector value : Option String) : List String :=
  match selector with
  | none => []
  | some s => [label ++ "=" ++ orElse value s]

/-- `if policy.route is not None: segments.append(f"route={identity.route}")`. -/
def routeSegment (selector : Option String) (route : String) : List String :=
  match selector with
  | none => []
  | some _ => ["route=" ++ route]

/-- The segments every key starts with: the prefix, the algorithm, and the id and the version of the
policy. -/
def keyHead (policy : PolicyRead) : List String :=
  ["rl", policy.algorithm.str, policy.id.str, "v" ++ policy.version.repr]

/-- `build_rate_limit_key`: the segments joined by colons, one for each selector that the policy
sets. No character of a selector is escaped. -/
def buildRateLimitKey (policy : PolicyRead) (identity : RequestIdentity) : String :=
  ":".intercalate <| keyHead policy ++
    routeSegment (policy.field .route) identity.route ++
    selectorSegment "user" (policy.field .userId) identity.userId ++
    selectorSegment "ip" (policy.field .ipAddress) identity.ipAddress ++
    selectorSegment "tenant" (policy.field .tenantId) identity.tenantId ++
    selectorSegment "api_key" (policy.field .apiKey) identity.apiKey

/-- `KEYS[1] .. ":" .. window_start`, the counter the fixed-window script works on. -/
def windowKey (key : String) (windowStart : ℕ) : String :=
  key ++ ":" ++ Lua.toString windowStart

/-- The keys the script of a policy may touch: the key it is given and, for a fixed window, the
counter of any window. -/
def touchedKeys (policy : PolicyRead) (identity : RequestIdentity) : Set String :=
  {k | k = buildRateLimitKey policy identity ∨
    policy.algorithm = .fixedWindow ∧
      ∃ windowStart, k = windowKey (buildRateLimitKey policy identity) windowStart}

/-! ## Matching identities share one key -/

theorem orElse_of_selectorMatches {s : String} {value : Option String}
    (h : selectorMatches (some s) value = true) : orElse value s = s := by
  have hv : some s = value := by simpa [selectorMatches] using h
  rw [← hv, orElse]
  exact ite_self s

theorem selectorSegment_of_matches {label : String} {selector value : Option String}
    (h : selectorMatches selector value = true) :
    selectorSegment label selector value = selectorSegment label selector selector := by
  cases selector with
  | none => rfl
  | some s =>
    rw [selectorSegment, selectorSegment, orElse_of_selectorMatches h,
      orElse_of_selectorMatches (by simp [selectorMatches])]

theorem routeSegment_of_matches {selector : Option String} {route : String}
    (h : selectorMatches selector (some route) = true) :
    routeSegment selector route = routeSegment selector (selector.getD "") := by
  cases selector with
  | none => rfl
  | some s =>
    have hs : s = route := by simpa [selectorMatches] using h
    rw [hs]
    rfl

/-- The key of a policy, as any identity that matches it builds it. -/
def policyKey (policy : PolicyRead) : String :=
  buildRateLimitKey policy
    ⟨(policy.field .route).getD "", policy.field .userId, policy.field .ipAddress,
      policy.field .tenantId, policy.field .apiKey⟩

theorem buildRateLimitKey_of_matches {policy : PolicyRead} {identity : RequestIdentity}
    (h : policyMatches policy.toPolicyBase identity = true) :
    buildRateLimitKey policy identity = policyKey policy := by
  simp only [policyMatches, Bool.and_eq_true] at h
  obtain ⟨⟨⟨⟨hr, hu⟩, hi⟩, ht⟩, ha⟩ := h
  rw [policyKey, buildRateLimitKey, buildRateLimitKey, routeSegment_of_matches hr,
    selectorSegment_of_matches hu, selectorSegment_of_matches hi, selectorSegment_of_matches ht,
    selectorSegment_of_matches ha]

/-! ## Reading the head back -/

theorem algorithm_colon_notMem (a : RateLimitAlgorithm) : ':' ∉ a.str.toList := by
  cases a <;> decide

theorem version_colon_notMem (v : ℤ) : ':' ∉ ("v" ++ v.repr).toList := by
  have digits : ∀ {m : ℕ}, ':' ∉ m.repr.toList := fun {m} hm => by
    rw [Nat.toList_repr] at hm
    exact absurd (Lua.isDigit_of_mem_toDigits hm) (by decide)
  rw [String.toList_append, List.mem_append]
  rintro (h | h)
  · exact absurd h (by decide)
  · cases v with
    | ofNat m => exact digits h
    | negSucc m =>
      rw [Int.repr, String.toList_append, List.mem_append] at h
      rcases h with h | h
      · exact absurd h (by decide)
      · exact digits h

theorem keyHead_colon_notMem {policy : PolicyRead} {s : String} (h : s ∈ keyHead policy) :
    ':' ∉ s.toList := by
  simp only [keyHead, List.mem_cons, List.not_mem_nil, or_false] at h
  rcases h with rfl | rfl | rfl | rfl
  · decide
  · exact algorithm_colon_notMem _
  · exact policy.id.colon_notMem
  · exact version_colon_notMem _

/-- Splitting at the separator gives colon-free leading segments back, whatever follows them. -/
theorem take_splitOn_intercalate (hs ts : List (List Char)) (h : ∀ l ∈ hs, ':' ∉ l) :
    (([':'].intercalate (hs ++ ts)).splitOn ':').take hs.length = hs := by
  induction hs with
  | nil => rfl
  | cons a hs ih =>
    have ha := h a List.mem_cons_self
    by_cases hr : hs ++ ts = []
    · rw [List.append_eq_nil_iff] at hr
      simp [hr.1, hr.2, List.splitOn_eq_singleton ha]
    · rw [List.cons_append, List.intercalate_cons_of_ne_nil hr, List.append_assoc,
        List.singleton_append, List.splitOn_append_cons_self_of_not_mem ha, List.length_cons,
        List.take_succ_cons, ih fun l hl => h l (List.mem_cons_of_mem _ hl)]

/-- `k` is the head of the policy's keys with further segments joined to it. -/
def HasHead (policy : PolicyRead) (k : String) : Prop :=
  ∃ ts, k = ":".intercalate (keyHead policy ++ ts)

theorem buildRateLimitKey_hasHead (policy : PolicyRead) (identity : RequestIdentity) :
    HasHead policy (buildRateLimitKey policy identity) :=
  ⟨_, by rw [buildRateLimitKey]; simp only [List.append_assoc]; rfl⟩

theorem HasHead.windowKey {policy : PolicyRead} {k : String} (h : HasHead policy k)
    (windowStart : ℕ) : HasHead policy (windowKey k windowStart) := by
  obtain ⟨ts, rfl⟩ := h
  refine ⟨ts ++ [Lua.toString windowStart], ?_⟩
  rw [RateLimiter.windowKey, ← List.append_assoc,
    String.intercalate_append_of_ne_nil (m := [_]) (by simp [keyHead]) (by simp),
    String.intercalate_singleton]

theorem hasHead_of_mem_touchedKeys {policy : PolicyRead} {identity : RequestIdentity} {k : String}
    (h : k ∈ touchedKeys policy identity) : HasHead policy k := by
  rcases h with rfl | ⟨-, ws, rfl⟩
  · exact buildRateLimitKey_hasHead policy identity
  · exact (buildRateLimitKey_hasHead policy identity).windowKey ws

/-- The head can be read back from a key. -/
theorem keyHead_inj {p q : PolicyRead} {k : String} (hp : HasHead p k) (hq : HasHead q k) :
    keyHead p = keyHead q := by
  have read : ∀ {r : PolicyRead}, HasHead r k →
      (k.toList.splitOn ':').take 4 = (keyHead r).map String.toList := by
    rintro r ⟨ts, rfl⟩
    rw [String.toList_intercalate, List.map_append]
    refine take_splitOn_intercalate ((keyHead r).map String.toList) _ fun l hl => ?_
    obtain ⟨s, hs, rfl⟩ := List.mem_map.1 hl
    exact keyHead_colon_notMem hs
  have h := (read hp).symm.trans (read hq)
  exact List.map_injective_iff.2 (fun _ _ => String.toList_inj.1) h

/-- Policies that share a key have the same algorithm, the same id and the same version. -/
theorem eq_of_hasHead {p q : PolicyRead} {k : String} (hp : HasHead p k) (hq : HasHead q k) :
    p.algorithm = q.algorithm ∧ p.id = q.id ∧ p.version = q.version := by
  have h := keyHead_inj hp hq
  simp only [keyHead, List.cons.injEq, and_true, true_and] at h
  obtain ⟨ha, hid, hv⟩ := h
  refine ⟨?_, ?_, Int.repr_injective ((String.append_right_inj _).1 hv)⟩
  · revert ha
    cases p.algorithm <;> cases q.algorithm <;> decide
  · cases hpi : p.id
    cases hqi : q.id
    rw [hpi, hqi] at hid
    cases hid
    rfl

/-! ## Windows of one policy -/

theorem windowKey_injOn {key : String} {m n : ℕ} (hm : Lua.Exact m) (hn : Lua.Exact n)
    (h : windowKey key m = windowKey key n) : m = n :=
  Lua.toString_injOn hm hn ((String.append_right_inj _).1 h)

/-- A window key can be taken apart at its last colon. -/
theorem windowKey_inj {k l : String} {m n : ℕ} (h : windowKey k m = windowKey l n) :
    k = l ∧ Lua.toString m = Lua.toString n := by
  have hr : ∀ (k : String) (m : ℕ), (windowKey k m).toList.reverse =
      (Lua.toString m).toList.reverse ++ ':' :: k.toList.reverse := fun k m => by
    simp [windowKey, String.toList_append]
  have hcolon : ∀ m : ℕ, ':' ∉ (Lua.toString m).toList.reverse := fun m hm =>
    Lua.colon_notMem_toString m (List.mem_reverse.1 hm)
  have he : (windowKey k m).toList.reverse = (windowKey l n).toList.reverse := by rw [h]
  rw [hr, hr] at he
  obtain ⟨hn, hk⟩ := Lua.append_sep_inj (hcolon m) (hcolon n) he
  exact ⟨String.toList_inj.1 (List.reverse_injective hk),
    String.toList_inj.1 (List.reverse_injective hn)⟩

/-- **Keys neither split nor merge quotas.**  All identities a policy matches build one key, the
scripts of different policy versions never touch a common key, and the windows of one policy
version have different counters. -/
theorem rate_limit_keys_separate :
    (∀ (policy : PolicyRead) (i j : RequestIdentity),
      policyMatches policy.toPolicyBase i = true → policyMatches policy.toPolicyBase j = true →
        buildRateLimitKey policy i = buildRateLimitKey policy j) ∧
    (∀ (p q : PolicyRead) (i j : RequestIdentity), p.id ≠ q.id ∨ p.version ≠ q.version →
      policyMatches p.toPolicyBase i = true → policyMatches q.toPolicyBase j = true →
        ∀ k ∈ touchedKeys p i, k ∉ touchedKeys q j) ∧
    (∀ (policy : PolicyRead) (i : RequestIdentity) (m n : ℕ), m < 10 ^ 14 → n < 10 ^ 14 → m ≠ n →
      windowKey (buildRateLimitKey policy i) m ≠ windowKey (buildRateLimitKey policy i) n) := by
  refine ⟨fun policy i j hi hj => ?_, fun p q i j hne _ _ k hp hq => ?_,
    fun policy i m n hm hn hne h => ?_⟩
  · rw [buildRateLimitKey_of_matches hi, buildRateLimitKey_of_matches hj]
  · obtain ⟨-, hid, hv⟩ :=
      eq_of_hasHead (hasHead_of_mem_touchedKeys hp) (hasHead_of_mem_touchedKeys hq)
    exact hne.elim (fun h => h hid) fun h => h hv
  · exact hne (windowKey_injOn (Or.inl hm) (Or.inl hn) h)

/-- A policy whose selectors hold what keys are made of, and nothing. -/
def PolicyRead.awkward (version : ℤ) : PolicyRead where
  field
    | .algorithm => some .fixedWindow
    | .route => some "/a:user=b"
    | .userId => some "1:ip=::1"
    | .tenantId => some "="
    | .apiKey => some ""
    | f => Payload.ofRequired "awkward" 2 60 f
  fieldOk := by decide
  algorithmSpecifics := by decide
  id := .sample
  version := version
  createdAt := 0
  updatedAt := 0

/-- Two requests under that policy, its next version, and two of its windows. -/
theorem rate_limit_keys_separate_sample :
    let p := PolicyRead.awkward
    let i : RequestIdentity := ⟨"/a:user=b", some "1:ip=::1", none, some "=", some ""⟩
    let j : RequestIdentity := ⟨"/a:user=b", some "1:ip=::1", some "::1", some "=", some ""⟩
    buildRateLimitKey (p 1) i =
        "rl:fixed_window:00000000-0000-4000-8000-000000000001:v1:route=/a:user=b:user=1:ip=::1:" ++
          "tenant==:api_key=" ∧
      buildRateLimitKey (p 1) i = buildRateLimitKey (p 1) j ∧
      (∀ k ∈ touchedKeys (p 1) i, k ∉ touchedKeys (p 2) j) ∧
      windowKey (buildRateLimitKey (p 1) i) 0 ≠ windowKey (buildRateLimitKey (p 1) i) 60000 :=
  ⟨by decide +kernel, rate_limit_keys_separate.1 _ _ _ (by decide) (by decide),
    rate_limit_keys_separate.2.1 _ _ _ _ (Or.inr (by decide)) (by decide) (by decide),
    rate_limit_keys_separate.2.2 _ _ _ _ (by decide) (by decide) (by decide)⟩

end RateLimiter
