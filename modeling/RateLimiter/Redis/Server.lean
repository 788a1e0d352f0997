import RateLimiter.Redis.Refinement
import RateLimiter.Lib.Timed

/-!
# A Redis that serves many policies

A `Catalog` lists the policy versions of a fleet, one content for each id and version.  A request
evaluates the script of one of them, and `Redis` serves the requests one at a time.  Scripts of
different policies, or of one policy under different keys, never meet in a key
(`scriptKeys_disjoint`), so what `refines_eval` says of one policy holds of all of them at once.
-/

set_option autoImplicit false

namespace RateLimiter

open Quota

/-- The policy versions in use: an id and a version belong to one policy. -/
structure Catalog (ι : Type) where
  policy : ι → PolicyRead
  /-- An id and a version name a policy. -/
  unique : ∀ i j, (policy i).id = (policy j).id → (policy i).version = (policy j).version → i = j

/-- One evaluation of a policy's script: for whom, at which `TIME`, and with which member for the
log. -/
structure Request (ι : Type) where
  policy : ι
  /-- Whose request it is. -/
  identity : RequestIdentity
  /-- What `TIME` says. -/
  time : RedisTime
  /-- The member a sliding log is sent. -/
  member : String

variable {ι : Type} (C : Catalog ι)

namespace Request

variable (r : Request ι)

/-- The key `_run_policy` passes. -/
def key : String := buildRateLimitKey (C.policy r.policy) r.identity

/-- The script `_run_policy` sends, with the keys and arguments it sends for this policy. -/
def script : Script Reply := policyScript (C.policy r.policy).toPolicyBase (r.key C) r.member

/-- The deadline the script asks for lies in the range Redis accepts, and its expiry is one that the
script can hand to `PEXPIRE`. -/
def InRange : Prop := LegalExpiry r.time.ms (C.policy r.policy).expiryMs

instance : Decidable (r.InRange C) := inferInstanceAs (Decidable (LegalExpiry _ _))

/-- The member the request adds to a sliding log. -/
def logMember : Option String := RateLimiter.logMember (C.policy r.policy).toPolicyBase r.member

end Request

/-- Serve one request.  `serve C x` is a machine in the sense of `Timed`. -/
def serve (x : Expiry) (ks : Keyspace) (r : Request ι) : Except RedisError Reply × Keyspace :=
  eval x r.time (r.script C) ks

/-! ## Separation -/

/-- Different policies, and different keys of one policy, have no key in common. -/
theorem scriptKeys_disjoint {i j : ι} {a b : RequestIdentity} {k : String}
    (hne : i ≠ j ∨ buildRateLimitKey (C.policy i) a ≠ buildRateLimitKey (C.policy j) b)
    (hi : k ∈ scriptKeys (C.policy i).toPolicyBase (buildRateLimitKey (C.policy i) a)) :
    k ∉ scriptKeys (C.policy j).toPolicyBase (buildRateLimitKey (C.policy j) b) := by
  intro hj
  have hhead : ∀ {i a}, k ∈ scriptKeys (C.policy i).toPolicyBase
      (buildRateLimitKey (C.policy i) a) → HasHead (C.policy i) k := by
    intro i a h
    rw [scriptKeys] at h
    have hb := buildRateLimitKey_hasHead (C.policy i) a
    split at h
    · obtain ⟨ws, rfl⟩ := h
      exact hb.windowKey ws
    all_goals
      rw [Set.mem_singleton_iff.1 h]
      exact hb
  obtain ⟨-, hid, hv⟩ := eq_of_hasHead (hhead hi) (hhead hj)
  obtain rfl := C.unique i j hid hv
  refine (hne.resolve_left fun h => h rfl) ?_
  rw [scriptKeys] at hi hj
  split at hi
  · obtain ⟨m, rfl⟩ := hi
    simp only [*] at hj
    obtain ⟨n, hn⟩ := hj
    exact (windowKey_inj hn).1
  all_goals
    simp only [*] at hj
    exact hi.symm.trans hj

variable {C}

theorem buildRateLimitKey_ne {i j : ι} (hne : i ≠ j) (a b : RequestIdentity) :
    buildRateLimitKey (C.policy i) a ≠ buildRateLimitKey (C.policy j) b := by
  intro h
  obtain ⟨-, hid, hv⟩ := eq_of_hasHead (h ▸ buildRateLimitKey_hasHead (C.policy i) a)
    (buildRateLimitKey_hasHead (C.policy j) b)
  exact hne (C.unique i j hid hv)

/-- What a request leaves alone: the other keys of its policy and every other policy. -/
theorem Represents.serve_other {x : Expiry} {members : List String} {now : ℤ} {ks : Keyspace}
    {s : Ideal} {r : Request ι} {i : ι} {a : RequestIdentity}
    (h : Represents x (C.policy i).toPolicyBase (buildRateLimitKey (C.policy i) a) members now ks s)
    (hst : now ≤ r.time.ms)
    (hne : i ≠ r.policy ∨ buildRateLimitKey (C.policy i) a ≠ r.key C) {accepted : Prop}
    (hc : ChangesOne x (C.policy r.policy).toPolicyBase (r.key C) accepted
      (RateLimiter.purge x r.time.ms ks) (serve C x ks r).2) :
    Represents x (C.policy i).toPolicyBase (buildRateLimitKey (C.policy i) a)
      ((r.logMember C).toList ++ members) r.time.ms (serve C x ks r).2 s := by
  obtain ⟨k, hk, e, he, -⟩ := hc
  refine ((h.purge hst).congr fun l hl => ?_).weaken _
  rw [he, Function.update_of_ne]
  rintro rfl
  exact scriptKeys_disjoint C hne hl hk

/-! ## A small catalog -/

/-- One policy for each algorithm, each two requests a minute: three versions of one id. -/
def Catalog.sample : Catalog RateLimitAlgorithm where
  policy
    | .fixedWindow => .sample .fixedWindow 1
    | .slidingWindowLog => .sample .slidingWindowLog 2
    | .tokenBucket => .sample .tokenBucket 3
  unique i j := by cases i <;> cases j <;> decide

/-- A user's request at a whole second. -/
def Request.sample (policy : RateLimitAlgorithm) (second : ℕ) (member : String)
    (h : second * 1000000 + 0 < 2 ^ 63 := by decide) : Request RateLimitAlgorithm :=
  ⟨policy, .sample, .atSecond second h, member⟩

end RateLimiter
