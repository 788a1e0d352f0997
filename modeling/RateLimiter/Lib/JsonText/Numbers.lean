import RateLimiter.Lib.JsonText.Text

/-!
# Reading the numbers that `dumps` writes

A number ends where the text ends or where a character follows that cannot be part of one (`Ends`);
what comes after that has no influence on how it is read (`number_append`).
-/

set_option autoImplicit false

namespace JsonText

/-- No number goes on at the beginning of this text. -/
def Ends (r : List Char) : Prop :=
  ∀ c ∈ r.head?, c.isDigit = false ∧ c ∉ ['.', 'e', 'E', '-', '+']

theorem ends_nil : Ends [] := fun _ h => by cases h

theorem ends_cons {c : Char} {r : List Char} (h : c.isDigit = false)
    (hc : c ∉ ['.', 'e', 'E', '-', '+']) : Ends (c :: r) := by
  rintro _ ⟨⟩
  exact ⟨h, hc⟩

variable {cs r : List Char}

theorem takeWhile_isDigit_append (hr : Ends r) :
    (cs ++ r).takeWhile Char.isDigit = cs.takeWhile Char.isDigit := by
  induction cs with
  | nil =>
    cases r with
    | nil => rfl
    | cons c r => simp [(hr c rfl).1]
  | cons c cs ih =>
    rw [List.cons_append, List.takeWhile_cons, List.takeWhile_cons, ih]

/-! ## The parts of a number -/

theorem sign_append (hr : Ends r) : sign (cs ++ r) = sign cs := by
  cases cs with
  | nil =>
    cases r with
    | nil => rfl
    | cons c r =>
      have hc := (hr c rfl).2
      simp only [List.nil_append, sign]
      split <;> simp_all
  | cons c cs => simp only [List.cons_append, sign]; split <;> simp_all

theorem whole_append (hr : Ends r) : whole (cs ++ r) = whole cs := by
  cases cs with
  | nil =>
    cases r with
    | nil => rfl
    | cons c r =>
      have hc := (hr c rfl).1
      have h0 : c ≠ '0' := by
        rintro rfl
        cases hc
      simp [whole, hc]
  | cons c cs =>
    by_cases h0 : c = '0'
    · simp [whole, h0]
    · simp [whole, takeWhile_isDigit_append hr]

theorem fraction_append (hr : Ends r) : fraction (cs ++ r) = fraction cs := by
  cases cs with
  | nil =>
    cases r with
    | nil => rfl
    | cons c r =>
      have hc := (hr c rfl).2
      simp only [List.nil_append, fraction]
      split <;> simp_all
  | cons c cs =>
    by_cases hc : c = '.'
    · simp [fraction, hc, takeWhile_isDigit_append hr]
    · simp [fraction, hc]

theorem exponentSign_append (hr : Ends r) : exponentSign (cs ++ r) = exponentSign cs := by
  cases cs with
  | nil =>
    cases r with
    | nil => rfl
    | cons c r =>
      have hc := (hr c rfl).2
      simp only [List.nil_append, exponentSign]
      split <;> simp_all
  | cons c cs => simp only [List.cons_append, exponentSign]; split <;> simp_all

theorem sign_isPrefix (cs : List Char) : sign cs <+: cs := by
  fun_cases sign cs <;> simp

theorem whole_isPrefix (cs : List Char) : whole cs <+: cs := by
  fun_cases whole cs
  · simp
  · simpa using List.takeWhile_prefix _
  all_goals exact List.nil_prefix

theorem fraction_isPrefix (cs : List Char) : fraction cs <+: cs := by
  fun_cases fraction cs
  · exact List.nil_prefix
  · simpa using List.takeWhile_prefix _
  · exact List.nil_prefix

theorem exponentSign_isPrefix (cs : List Char) : exponentSign cs <+: cs := by
  fun_cases exponentSign cs <;> simp

theorem drop_append_of_prefix {p : List Char} (hp : p <+: cs) (r : List Char) :
    (cs ++ r).drop p.length = cs.drop p.length ++ r :=
  List.drop_append_of_le_length hp.length_le

theorem exponent_append (hr : Ends r) : exponent (cs ++ r) = exponent cs := by
  cases cs with
  | nil =>
    cases r with
    | nil => rfl
    | cons c r =>
      have hc := (hr c rfl).2
      have he : ¬(c = 'e' ∨ c = 'E') := by simp_all
      simp [exponent, he]
  | cons c cs =>
    simp only [List.cons_append, exponent, exponentSign_append hr,
      drop_append_of_prefix (exponentSign_isPrefix cs), takeWhile_isDigit_append hr]

/-- **What follows a number does not change how it is read.** -/
theorem number_append (hr : Ends r) : number (cs ++ r) = number cs := by
  simp only [number, sign_append hr, whole_append hr, fraction_append hr, exponent_append hr,
    drop_append_of_prefix (sign_isPrefix _), drop_append_of_prefix (whole_isPrefix _),
    drop_append_of_prefix (fraction_isPrefix _)]

/-! ## Integers -/

theorem toDigits_eq_cons {n : ℕ} (hn : 0 < n) :
    ∃ c ds, Nat.toDigits 10 n = c :: ds ∧ c ≠ '0' := by
  induction n using Nat.strongRecOn with
  | _ n ih =>
    by_cases h : n < 10
    · have hdigit : ∀ m < 10, 0 < m → Nat.digitChar m ≠ '0' := by decide
      exact ⟨n.digitChar, [], Nat.toDigits_of_lt_base h, hdigit n h hn⟩
    · obtain ⟨c, ds, hds, hc⟩ := ih (n / 10) (by omega) (by omega)
      refine ⟨c, ds ++ [(n % 10).digitChar], ?_, hc⟩
      rw [Nat.toDigits_of_base_le (by decide) (by omega), hds]
      rfl

theorem isDigit_of_mem_toDigits {n : ℕ} {c : Char} (h : c ∈ Nat.toDigits 10 n) :
    c.isDigit = true :=
  Nat.isDigit_of_mem_toDigits (by decide) (by decide) h

theorem takeWhile_toDigits {n : ℕ} : (Nat.toDigits 10 n).takeWhile Char.isDigit =
    Nat.toDigits 10 n := by
  have hall : ∀ c ∈ Nat.toDigits 10 n, c.isDigit = true := fun _ h => isDigit_of_mem_toDigits h
  have h : (Nat.toDigits 10 n ++ []).takeWhile Char.isDigit =
      Nat.toDigits 10 n ++ [].takeWhile Char.isDigit := List.takeWhile_append_of_pos hall
  simpa using h

theorem whole_toDigits (n : ℕ) : whole (Nat.toDigits 10 n) = Nat.toDigits 10 n := by
  rcases Nat.eq_zero_or_pos n with rfl | hn
  · rfl
  · obtain ⟨c, ds, hds, hc⟩ := toDigits_eq_cons hn
    have hall := takeWhile_toDigits (n := n)
    rw [hds] at hall ⊢
    have hdigit : c.isDigit = true := isDigit_of_mem_toDigits (hds ▸ List.mem_cons_self)
    simpa [whole, hc, hdigit] using hall

theorem toDigits_ne_minus (n : ℕ) (ds : List Char) : Nat.toDigits 10 n ≠ '-' :: ds := fun h =>
  absurd (isDigit_of_mem_toDigits (h ▸ List.mem_cons_self)) (by decide)

theorem sign_toDigits (n : ℕ) : sign (Nat.toDigits 10 n) = [] := by
  rw [sign]
  exact toDigits_ne_minus n

theorem number_repr (n : ℤ) : number n.repr.toList = some (n.repr.toList, false) := by
  cases n with
  | ofNat m =>
    simp [Int.repr, Nat.toList_repr, number, sign_toDigits, whole_toDigits, fraction, exponent,
      Nat.toDigits_ne_nil]
  | negSucc m =>
    simp [Int.repr, Nat.toList_repr, number, sign, whole_toDigits, fraction, exponent,
      Nat.toDigits_ne_nil]

theorem intValue_repr (n : ℤ) : intValue n.repr.toList = n := by
  cases n with
  | ofNat m =>
    rw [Int.repr, Nat.toList_repr, intValue]
    · rw [Nat.ofDigitChars_ten_toDigits]
      rfl
    · exact toDigits_ne_minus m
  | negSucc m =>
    simp [Int.repr, Nat.toList_repr, intValue, Nat.ofDigitChars_ten_toDigits, Int.negSucc_eq]

end JsonText
