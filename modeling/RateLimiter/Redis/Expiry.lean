import RateLimiter.Redis.Server

/-!
# Expiry is invisible

Two Redis servers get the same requests, one that deletes keys at their deadline and one that never
does.  `Agree` holds between them as long as both represent the same ideal limiter for every policy
and every key; it gives equal replies, and one request keeps it (`Agree.serve`).
-/

set_option autoImplicit false

namespace RateLimiter

open Quota

/-- What a script returns, without the observed value, which `_parse_common_decision` does not look
at. -/
def Reply.common (r : Reply) : ℤ × ℤ × ℤ × ℤ × ℤ :=
  (r.allowed, r.limit, r.remaining, r.resetAtMs, r.retryMs)

/-- Every key has a deadline. -/
def Expires (ks : Keyspace) : Prop := ∀ k, ∀ e ∈ ks k, e.expireAt.isSome

variable {ι : Type} (C : Catalog ι)

/-- An expiring and a keeping Redis in the same position: what the one has deleted does not matter
any more. -/
structure Agree (members : List String) (now : ℤ) (ksE ksK : Keyspace) : Prop where
  /-- Both represent one ideal limiter for each policy and key. -/
  same : ∀ (i : ι) (a : RequestIdentity), ∃ s,
    Represents .enforced (C.policy i).toPolicyBase (buildRateLimitKey (C.policy i) a) members now
      ksE s ∧
    Represents .ignored (C.policy i).toPolicyBase (buildRateLimitKey (C.policy i) a) members now
      ksK s
  /-- The expiring one has a deadline on every key. -/
  expires : Expires ksE

variable {C}

theorem expires_empty : Expires .empty := fun _ _ he => by cases he

theorem agree_empty (now : ℤ) : Agree C [] now .empty .empty :=
  ⟨fun _ _ => ⟨.empty, represents_empty fun _ _ => rfl, represents_empty fun _ _ => rfl⟩,
    expires_empty⟩

theorem Expires.purge {ks : Keyspace} (h : Expires ks) (now : ℤ) :
    Expires (purge .enforced now ks) := fun k e he =>
  h k e (Option.mem_filter_iff.1 he).1

theorem Expires.changesOne {policy : PolicyBase} {key : String} {accepted : Prop}
    {ks ks' : Keyspace} (h : Expires ks) (ha : accepted)
    (hc : ChangesOne .enforced policy key accepted ks ks') : Expires ks' := by
  obtain ⟨k, -, e, rfl, hexp⟩ := hc
  intro l e₁ he₁
  rcases eq_or_ne l k with rfl | hne
  · rw [Function.update_self] at he₁
    exact hexp rfl ha (h l) e₁ he₁
  · rw [Function.update_of_ne hne] at he₁
    exact h l e₁ he₁

/-- Two answers to one verdict are the same. -/
theorem Answers.common_eq {policy : PolicyBase} {v : Verdict} {p q : Prop} {a b : Reply}
    (ha : Answers policy v p (.ok a)) (hb : Answers policy v q (.ok b)) : a.common = b.common := by
  obtain ⟨hal, hav, ha1⟩ := ha
  obtain ⟨hbl, hbv, hb1⟩ := hb
  have hv := hav.trans hbv.symm
  simp only [Reply.verdict, Verdict.mk.injEq] at hv
  obtain ⟨h1, h2, h3, h4⟩ := hv
  have h5 : a.allowed = b.allowed := by
    rcases ha1 with h | h <;> rcases hb1 with h' | h' <;> simp_all
  rw [Reply.common, Reply.common, h5, hal, hbl, h2, h3, h4]

/-- What the two servers reply to one request: the same five numbers, and neither raises. -/
def SameReply (outE outK : Except RedisError Reply) : Prop :=
  ∃ a b, outE = .ok a ∧ outK = .ok b ∧ a.common = b.common

/-- **One request keeps the two servers in agreement.** -/
theorem Agree.serve {members : List String} {now : ℤ} {ksE ksK : Keyspace} {r : Request ι}
    (h : Agree C members now ksE ksK) (hst : now ≤ r.time.ms)
    (hm : ∀ m ∈ r.logMember C, m ∉ members) (hr : r.InRange C) :
    SameReply (RateLimiter.serve C .enforced ksE r).1 (RateLimiter.serve C .ignored ksK r).1 ∧
    Agree C ((r.logMember C).toList ++ members) r.time.ms
      (RateLimiter.serve C .enforced ksE r).2 (RateLimiter.serve C .ignored ksK r).2 := by
  obtain ⟨s, hE, hK⟩ := h.same r.policy r.identity
  have hE' := refines_eval hE hst hm
  have hK' := refines_eval hK hst hm
  have haE : Accepted .enforced r.time (C.policy r.policy).expiryMs := Or.inr hr
  have haK : Accepted .ignored r.time (C.policy r.policy).expiryMs := Or.inl rfl
  obtain ⟨a, ha⟩ := hE'.answer.ok_of_accepted haE
  obtain ⟨b, hb⟩ := hK'.answer.ok_of_accepted haK
  refine ⟨⟨a, b, ha, hb, ?_⟩, fun i c => ?_, ?_⟩
  · have h1 := hE'.answer
    have h2 := hK'.answer
    rw [ha] at h1
    rw [hb] at h2
    exact h1.common_eq h2
  · by_cases hsame : i = r.policy ∧ buildRateLimitKey (C.policy i) c = r.key C
    · obtain ⟨rfl, hkey⟩ := hsame
      rw [hkey]
      exact ⟨_, hE'.represents, hK'.represents⟩
    · obtain ⟨s', h1, h2⟩ := h.same i c
      have hne : i ≠ r.policy ∨ buildRateLimitKey (C.policy i) c ≠ r.key C :=
        not_and_or.1 hsame
      exact ⟨s', h1.serve_other hst hne hE'.changes, h2.serve_other hst hne hK'.changes⟩
  · exact (h.expires.purge _).changesOne haE hE'.changes

/-- Requests in the order Redis serves them, with fresh members and deadlines in range. -/
structure Orderly (C : Catalog ι) (rs : List (Request ι)) : Prop where
  /-- `TIME` never runs backwards. -/
  times : rs.Pairwise fun r q => r.time.ms ≤ q.time.ms
  /-- Sliding members are pairwise distinct. -/
  members : (rs.filterMap (Request.logMember C)).Nodup
  /-- Redis accepts every deadline. -/
  inRange : ∀ r ∈ rs, r.InRange C

/-- Forgetting the observed values, what two servers in agreement reply is equal. -/
theorem map_common_eq {outsE outsK : List (Except RedisError Reply)}
    (h : List.Forall₂ SameReply outsE outsK) :
    outsE.map (Except.map Reply.common) = outsK.map (Except.map Reply.common) ∧
      ∀ out ∈ outsE, ∃ r, out = .ok r := by
  induction h with
  | nil => exact ⟨rfl, fun out hout => absurd hout List.not_mem_nil⟩
  | cons hout _ ih =>
    obtain ⟨a, b, rfl, rfl, hab⟩ := hout
    refine ⟨?_, ?_⟩
    · simp only [List.map_cons, Except.map, hab, ih.1]
    · rintro out hmem
      rcases List.mem_cons.1 hmem with rfl | hmem
      · exact ⟨a, rfl⟩
      · exact ih.2 out hmem

/-- **Key expiry is invisible.**  A Redis that deletes keys at their deadline gives every request
the reply a Redis that keeps them gives, and it never holds a key without a deadline. -/
theorem expiry_invisible (C : Catalog ι) (rs : List (Request ι)) (h : Orderly C rs) :
    (Timed.outputs (serve C .enforced) .empty rs).map (Except.map Reply.common) =
        (Timed.outputs (serve C .ignored) .empty rs).map (Except.map Reply.common) ∧
      (∀ out ∈ Timed.outputs (serve C .enforced) .empty rs, ∃ r, out = .ok r) ∧
      Expires (Timed.final (serve C .enforced) .empty rs) := by
  have ho : Timed.InOrder (fun r : Request ι => (r.time.ms : ℤ)) (Request.logMember C) [] 0 rs := by
    refine Timed.inOrder_of_pairwise (h.times.imp fun hrq => ?_) h.members
      (fun r _ => Int.natCast_nonneg _) fun _ _ => List.not_mem_nil
    exact_mod_cast hrq
  obtain ⟨hsame, _, _, hend⟩ := Timed.simulation (fun hr hst hm hi => hr.serve hst hm hi)
    h.inRange (agree_empty (C := C) 0) ho
  exact ⟨(map_common_eq hsame).1, (map_common_eq hsame).2, hend.expires⟩

/-- Requests to all three scripts, twice within a minute and once after every key has expired. -/
theorem expiry_invisible_sample :
    let rs : List (Request RateLimitAlgorithm) :=
      [.sample .fixedWindow 30 "", .sample .slidingWindowLog 30 "a", .sample .tokenBucket 30 "",
        .sample .fixedWindow 50 "", .sample .slidingWindowLog 50 "b", .sample .tokenBucket 50 "",
        .sample .fixedWindow 400 "", .sample .slidingWindowLog 400 "c",
        .sample .tokenBucket 400 ""]
    (Timed.outputs (serve .sample .enforced) .empty rs).map (Except.map Reply.common) =
      (Timed.outputs (serve .sample .ignored) .empty rs).map (Except.map Reply.common) :=
  (expiry_invisible Catalog.sample _ ⟨by decide, by decide, by decide +kernel⟩).1

end RateLimiter
