import Mathlib.Data.List.DropRight
import Mathlib.Data.Nat.Basic
import Mathlib.Tactic.Ring
import Std.Data.String.ToNat

/-!
# How Lua prints an integral number

Lua turns a number into a string with C's `%.14g`: up to fourteen digits an integer is printed as
it is, beyond that it is rounded to fourteen significant digits and printed with an exponent, so
that two different integers can print alike.  `Lua.toString` is that function on the naturals and
`Lua.Exact` names the naturals that lose nothing; on those it is injective
(`Lua.toString_injOn`).
-/

set_option autoImplicit false

namespace Lua

/-- The number of decimal digits of `n`, less one. -/
def exponent (n : ℕ) : ℕ := (Nat.toDigits 10 n).length - 1

/-- `n / d`, rounded to the nearest integer and to the even one on a tie. -/
def divRound (n d : ℕ) : ℕ :=
  if 2 * (n % d) < d ∨ 2 * (n % d) = d ∧ n / d % 2 = 0 then n / d else n / d + 1

/-- The fourteen significant digits of `n` and its exponent.  Rounding up may carry into a
fifteenth digit, which moves the exponent. -/
def significand (n : ℕ) : ℕ × ℕ :=
  let m := divRound n (10 ^ (exponent n - 13))
  if m = 10 ^ 14 then (10 ^ 13, exponent n + 1) else (m, exponent n)

/-- Digits with a point after the first one, and no point after a single one. -/
def pointed : List Char → List Char
  | [] => []
  | [d] => [d]
  | d :: ds => d :: '.' :: ds

/-- The scientific form: trailing zeros of the significand are not printed. -/
def scientific (s : ℕ × ℕ) : List Char :=
  pointed ((Nat.toDigits 10 s.1).rdropWhile (· == '0')) ++ 'e' :: '+' :: Nat.toDigits 10 s.2

/-- `tostring(n)` for a number whose value is the natural `n`: fourteen significant digits, and an
exponent once there are more. -/
def toString (n : ℕ) : String :=
  if n < 10 ^ 14 then n.repr else String.ofList (scientific (significand n))

/-- Rounding to fourteen significant digits leaves `n` as it is, so its text says all of it. -/
def Exact (n : ℕ) : Prop := n < 10 ^ 14 ∨ 10 ^ (exponent n - 13) ∣ n

/-! ## Digits -/

theorem pow_exponent_le {n : ℕ} (hn : 10 ≤ n) : 10 ^ exponent n ≤ n := by
  have hlen : 2 ≤ (Nat.toDigits 10 n).length := by
    by_contra h
    have hle : (Nat.toDigits 10 n).length ≤ 1 := by omega
    have := (Nat.length_toDigits_le_iff (by omega) Nat.one_pos).1 hle
    omega
  by_contra h
  have hpos : 0 < exponent n := by rw [exponent]; omega
  have hle := (Nat.length_toDigits_le_iff (b := 10) (by omega) hpos).2 (Nat.lt_of_not_le h)
  rw [exponent] at hle
  omega

theorem lt_pow_exponent (n : ℕ) : n < 10 ^ (exponent n + 1) := by
  refine (Nat.length_toDigits_le_iff (by omega) (Nat.succ_pos _)).1 ?_
  have := Nat.length_toDigits_pos (b := 10) (n := n)
  rw [exponent]
  omega

theorem exponent_ge {n : ℕ} (h : 10 ^ 14 ≤ n) : 14 ≤ exponent n := by
  by_contra hlt
  have h1 := lt_pow_exponent n
  have h2 : 10 ^ (exponent n + 1) ≤ 10 ^ 14 := Nat.pow_le_pow_right (by omega) (by omega)
  omega

theorem length_toDigits_of_mem {m : ℕ} (h1 : 10 ^ 13 ≤ m) (h2 : m < 10 ^ 14) :
    (Nat.toDigits 10 m).length = 14 := by
  have hle := (Nat.length_toDigits_le_iff (n := m) (k := 14) (by omega) (by omega)).2 h2
  have hge : ¬(Nat.toDigits 10 m).length ≤ 13 := fun hc =>
    absurd ((Nat.length_toDigits_le_iff (by omega) (by omega)).1 hc) (by omega)
  omega

theorem isDigit_of_mem_toDigits {n : ℕ} {c : Char} (h : c ∈ Nat.toDigits 10 n) :
    c.isDigit = true :=
  Nat.isDigit_of_mem_toDigits (by omega) (by omega) h

/-! ## Reading a scientific form back -/

theorem mem_pointed {ds : List Char} {c : Char} (h : c ∈ pointed ds) : c = '.' ∨ c ∈ ds := by
  match ds with
  | [] => simp [pointed] at h
  | [d] => exact Or.inr h
  | d :: d' :: ds => simp only [pointed, List.mem_cons] at h ⊢; tauto

/-- Dropping the point gives the digits back. -/
theorem filter_pointed {ds : List Char} (h : ∀ c ∈ ds, c.isDigit = true) :
    (pointed ds).filter (· != '.') = ds := by
  have hds : ds.filter (· != '.') = ds := by
    refine List.filter_eq_self.2 fun c hc => ?_
    rw [bne_iff_ne]
    rintro rfl
    exact absurd (h _ hc) (by decide)
  match ds with
  | [] => rfl
  | [d] => exact hds
  | d :: d' :: ds =>
    rw [List.filter_cons] at hds
    simp only [pointed, List.filter_cons] at hds ⊢
    simpa using hds

/-- What stands before the first separator is determined by the whole, and so is what follows. -/
theorem append_sep_inj {c : Char} {a b x y : List Char} (ha : c ∉ a) (hb : c ∉ b)
    (h : a ++ c :: x = b ++ c :: y) : a = b ∧ x = y := by
  have hab : a = b := by
    have hs := congrArg (List.splitOn c) h
    rw [List.splitOn_append_cons_self_of_not_mem ha, List.splitOn_append_cons_self_of_not_mem hb]
      at hs
    exact (List.cons.inj hs).1
  subst hab
  exact ⟨rfl, (List.cons.inj (List.append_cancel_left h)).2⟩

theorem toDigits_injective {m n : ℕ} (h : Nat.toDigits 10 m = Nat.toDigits 10 n) : m = n := by
  rw [← Nat.ofDigitChars_ten_toDigits (n := m), h, Nat.ofDigitChars_ten_toDigits]

/-- Trailing zeros can be put back once the length is known. -/
theorem rdropWhile_zero_inj {a b : List Char} (hlen : a.length = b.length)
    (h : a.rdropWhile (· == '0') = b.rdropWhile (· == '0')) : a = b := by
  have split : ∀ l : List Char,
      l = l.rdropWhile (· == '0') ++
        List.replicate (l.length - (l.rdropWhile (· == '0')).length) '0' := by
    intro l
    have hl := List.rdropWhile_append_rtakeWhile (p := (· == '0')) (l := l)
    have hz : l.rtakeWhile (· == '0') = List.replicate (l.rtakeWhile (· == '0')).length '0' :=
      List.eq_replicate_of_mem fun c hc => by simpa using List.mem_rtakeWhile_imp hc
    have hn : l.length - (l.rdropWhile (· == '0')).length = (l.rtakeWhile (· == '0')).length := by
      have := congrArg List.length hl
      rw [List.length_append] at this
      omega
    rw [hn, ← hz, hl]
  rw [split a, split b, h, hlen]

theorem scientific_injective {s t : ℕ × ℕ} (hs : 10 ^ 13 ≤ s.1 ∧ s.1 < 10 ^ 14)
    (ht : 10 ^ 13 ≤ t.1 ∧ t.1 < 10 ^ 14) (h : scientific s = scientific t) : s = t := by
  have digits : ∀ m : ℕ, ∀ c ∈ (Nat.toDigits 10 m).rdropWhile (· == '0'), c.isDigit = true :=
    fun m c hc => isDigit_of_mem_toDigits ((List.rdropWhile_prefix _ _).subset hc)
  have noE : ∀ m : ℕ, 'e' ∉ pointed ((Nat.toDigits 10 m).rdropWhile (· == '0')) := by
    intro m hm
    rcases mem_pointed hm with hm | hm
    · exact absurd hm (by decide)
    · exact absurd (digits m _ hm) (by decide)
  obtain ⟨hm, he⟩ := append_sep_inj (noE s.1) (noE t.1) h
  have hd := congrArg (List.filter (· != '.')) hm
  rw [filter_pointed (digits s.1), filter_pointed (digits t.1)] at hd
  have h1 : s.1 = t.1 := toDigits_injective <| rdropWhile_zero_inj
    (by rw [length_toDigits_of_mem hs.1 hs.2, length_toDigits_of_mem ht.1 ht.2]) hd
  exact Prod.ext h1 (toDigits_injective (List.cons.inj he).2)

/-! ## Exact numbers print apart -/

theorem divRound_of_dvd {n d : ℕ} (hd : 0 < d) (h : d ∣ n) : divRound n d = n / d := by
  have hmod : n % d = 0 := Nat.mod_eq_zero_of_dvd h
  rw [divRound, if_pos (Or.inl (by omega))]

/-- The significand of an exact number has fourteen digits and restores the number. -/
theorem significand_of_exact {n : ℕ} (hn : 10 ^ 14 ≤ n) (h : 10 ^ (exponent n - 13) ∣ n) :
    (10 ^ 13 ≤ (significand n).1 ∧ (significand n).1 < 10 ^ 14) ∧
      n = (significand n).1 * 10 ^ ((significand n).2 - 13) := by
  have he := exponent_ge hn
  have hpos : 0 < 10 ^ (exponent n - 13) := Nat.pow_pos (by omega)
  have hdiv := divRound_of_dvd hpos h
  have hlow : 10 ^ 13 ≤ n / 10 ^ (exponent n - 13) := by
    rw [Nat.le_div_iff_mul_le hpos, ← Nat.pow_add,
      show 13 + (exponent n - 13) = exponent n by omega]
    exact pow_exponent_le (by omega)
  have hhigh : n / 10 ^ (exponent n - 13) < 10 ^ 14 := by
    rw [Nat.div_lt_iff_lt_mul hpos, ← Nat.pow_add,
      show 14 + (exponent n - 13) = exponent n + 1 by omega]
    exact lt_pow_exponent n
  have hs : significand n = (n / 10 ^ (exponent n - 13), exponent n) := by
    rw [significand, hdiv, if_neg (by omega)]
  rw [hs]
  exact ⟨⟨hlow, hhigh⟩, (Nat.div_mul_cancel h).symm⟩

/-- **Exact numbers print apart.** Of two numbers that are printed alike, at least one has lost
digits. -/
theorem toString_injOn {m n : ℕ} (hm : Exact m) (hn : Exact n) (h : toString m = toString n) :
    m = n := by
  have noE : ∀ {a : ℕ} {s : ℕ × ℕ}, a.repr ≠ String.ofList (scientific s) := by
    intro a s he
    have hmem : 'e' ∈ (String.ofList (scientific s)).toList := by simp [scientific]
    rw [← he, Nat.toList_repr] at hmem
    exact absurd (isDigit_of_mem_toDigits hmem) (by decide)
  rw [toString, toString] at h
  split at h <;> split at h
  · exact Nat.repr_injective h
  · exact absurd h noE
  · exact absurd h.symm noE
  · rename_i hm' hn'
    obtain ⟨bm, em⟩ := significand_of_exact (by omega) (hm.resolve_left hm')
    obtain ⟨bn, en⟩ := significand_of_exact (by omega) (hn.resolve_left hn')
    rw [em, en, scientific_injective bm bn (String.ofList_injective h)]

/-- The colon, which separates the parts of a key, is in no printed number. -/
theorem colon_notMem_toString (n : ℕ) : ':' ∉ (toString n).toList := by
  have digits : ∀ {m : ℕ}, ':' ∉ Nat.toDigits 10 m := fun hm =>
    absurd (isDigit_of_mem_toDigits hm) (by decide)
  rw [toString]
  split
  · rw [Nat.toList_repr]
    exact digits
  · rw [String.toList_ofList, scientific, List.mem_append]
    rintro (hm | hm)
    · rcases mem_pointed hm with hm | hm
      · exact absurd hm (by decide)
      · exact digits ((List.rdropWhile_prefix _ _).subset hm)
    · simp only [List.mem_cons] at hm
      rcases hm with hm | hm | hm
      · exact absurd hm (by decide)
      · exact absurd hm (by decide)
      · exact digits hm

/-- A multiple of a thousand of at most seventeen digits is exact. -/
theorem exact_of_thousand_dvd {n : ℕ} (h : 1000 ∣ n) (hn : n < 10 ^ 17) : Exact n := by
  by_cases hs : n < 10 ^ 14
  · exact Or.inl hs
  · right
    have hle := (Nat.length_toDigits_le_iff (n := n) (k := 17) (by omega) (by omega)).2 hn
    exact (Nat.pow_dvd_pow 10 (by rw [exponent]; omega : exponent n - 13 ≤ 3)).trans h

example : toString 1700000000000 = "1700000000000" := by decide +kernel
example : toString 100000000000000 = "1e+14" := by decide +kernel
example : toString 123456789012345 = "1.2345678901234e+14" := by decide +kernel

end Lua
