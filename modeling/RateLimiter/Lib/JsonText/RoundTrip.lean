import RateLimiter.Lib.JsonText.Numbers

/-!
# `loads` inverts `dumps`

What `dumps` writes `loads` reads back, whatever follows it: a string up to its closing quote
(`readString_quote`), a number up to the character that ends it, and the rest by recursion on the
value (`read_write`).  The fuel of the reader is the length of the text, and every token takes at
least one character of it.
-/

set_option autoImplicit false

namespace JsonText

/-! ## Strings -/

theorem hexDigit_digitChar : ∀ n < 16, hexDigit (Nat.digitChar n) = some n := by decide

theorem readUnit_hex4 {n : ℕ} (hn : n < 0x10000) (r : List Char) :
    readUnit (hex4 n ++ r) = some (n, r) := by
  have h₁ := hexDigit_digitChar (n / 4096) (by omega)
  have h₂ := hexDigit_digitChar (n / 256 % 16) (by omega)
  have h₃ := hexDigit_digitChar (n / 16 % 16) (by omega)
  have h₄ := hexDigit_digitChar (n % 16) (by omega)
  have hsum : n / 4096 * 4096 + n / 256 % 16 * 256 + n / 16 % 16 * 16 + n % 16 = n := by omega
  simp [readUnit, hex4, h₁, h₂, h₃, h₄, hsum]

/-- Each short escape is read as what it stands for. -/
theorem readEscape_short {p : Char × Char} (hp : p ∈ shortEscapes) (r : List Char) :
    readEscape (p.1 :: r) = some (p.2, r) := by
  simp only [shortEscapes, List.mem_cons, List.not_mem_nil, or_false] at hp
  rcases hp with rfl | rfl | rfl | rfl | rfl | rfl | rfl <;> rfl

/-- A character is a scalar value: no surrogate, and not above the last code point. -/
theorem toNat_scalar (c : Char) : c.toNat < 0xd800 ∨ 0xdfff < c.toNat ∧ c.toNat < 0x110000 :=
  c.valid

theorem isHigh_iff {n : ℕ} : isHigh n = true ↔ 0xd800 ≤ n ∧ n < 0xdc00 := by
  simp [isHigh]

theorem isLow_iff {n : ℕ} : isLow n = true ↔ 0xdc00 ≤ n ∧ n < 0xe000 := by
  simp [isLow]

theorem readEscape_unit {c : Char} (hc : c.toNat < 0x10000) (r : List Char) :
    readEscape ('u' :: (hex4 c.toNat ++ r)) = some (c, r) := by
  have hhigh : isHigh c.toNat = false := by
    have := toNat_scalar c
    rw [Bool.eq_false_iff, Ne, isHigh_iff]
    omega
  have hlow : isLow c.toNat = false := by
    have := toNat_scalar c
    rw [Bool.eq_false_iff, Ne, isLow_iff]
    omega
  simp [readEscape, readUnit_hex4 hc, hhigh, hlow]

/-- A surrogate pair stands for one character. -/
theorem readEscape_pair {c : Char} {high low : ℕ} (hhigh : isHigh high = true)
    (hlow : isLow low = true)
    (hc : 0x10000 + (high - 0xd800) * 1024 + (low - 0xdc00) = c.toNat) (r : List Char) :
    readEscape ('u' :: (hex4 high ++ (escapeUnit low ++ r))) = some (c, r) := by
  have hhigh' := isHigh_iff.1 hhigh
  have hlow' := isLow_iff.1 hlow
  have hreadLow : readLow high (escapeUnit low ++ r) = some (c, r) := by
    rw [escapeUnit, List.cons_append, List.cons_append, readLow, readUnit_hex4 (by omega)]
    simp [hlow, hc, Char.ofNat_toNat]
  simp [readEscape, readUnit_hex4 (show high < 0x10000 by omega), hhigh, hreadLow]

/-- **A character is read as it was written**, be it written as itself, as an escape or as a pair of
them. -/
theorem readChar_escapeChar (c : Char) (r : List Char) :
    readChar (escapeChar c ++ r) = some (c, r) := by
  rw [escapeChar]
  split
  · rename_i e c' h
    have hmem := List.mem_of_find?_eq_some h
    have hc : c' = c := by simpa using List.find?_some h
    subst hc
    exact readEscape_short hmem r
  · rename_i h
    have hshort : ∀ p ∈ shortEscapes, p.2 ≠ c := by simpa using List.find?_eq_none.1 h
    split
    · rename_i hrange
      have hbackslash : c ≠ '\\' := (hshort ('\\', '\\') (by simp [shortEscapes])).symm
      have hspace : ¬c.toNat < 32 := Nat.not_lt.2 (Char.le_def.1 hrange.1)
      rw [List.singleton_append, readChar, if_neg hspace]
      exact hbackslash
    · split
      · rw [escapeUnit, List.cons_append, List.cons_append, readChar, readEscape_unit ‹_›]
      · have hscalar := toNat_scalar c
        rw [List.append_assoc, escapeUnit, List.cons_append, List.cons_append, readChar]
        refine readEscape_pair (isHigh_iff.2 ?_) (isLow_iff.2 ?_) ?_ r <;> omega

/-- A written character is not a closing quote. -/
theorem escapeChar_ne_quote (c : Char) (r r' : List Char) : escapeChar c ++ r ≠ '"' :: r' := by
  rw [escapeChar]
  split
  · simp
  · rename_i h
    have hquote : c ≠ '"' := by
      rintro rfl
      simp [shortEscapes] at h
    split
    · simp [hquote]
    · split <;> simp [escapeUnit]

theorem length_escapeChar_pos (c : Char) : 0 < (escapeChar c).length := by
  rw [List.length_pos_iff]
  intro h
  have hread := readChar_escapeChar c []
  rw [h] at hread
  cases hread

/-- The characters of a string are read up to its closing quote. -/
theorem readString_flatMap (s r : List Char) {n : ℕ}
    (hn : (s.flatMap escapeChar ++ '"' :: r).length ≤ n) :
    readString n (s.flatMap escapeChar ++ '"' :: r) = some (s, r) := by
  induction s generalizing n with
  | nil =>
    cases n with
    | zero => simp at hn
    | succ n => rfl
  | cons c s ih =>
    have hpos := length_escapeChar_pos c
    rw [List.flatMap_cons, List.append_assoc, List.length_append] at hn
    rw [List.flatMap_cons, List.append_assoc]
    cases n with
    | zero => omega
    | succ n =>
      rw [readString]
      · simp [readChar_escapeChar, ih (n := n) (by omega)]
      · exact fun r' => escapeChar_ne_quote c _ r'

/-! ## Constants and numbers -/

section

variable {φ : Type} (codec : FloatCodec φ) {v : Value φ} {cs r : List Char} {n : ℕ}

/-- Nothing that begins like a constant is a number. -/
theorem number_constant {p : List Char × Value φ} (hp : p ∈ constants codec) (r : List Char) :
    number (p.1 ++ r) = none := by
  simp only [constants, nonNumbers, List.map_cons, List.map_nil, List.cons_append, List.nil_append,
    List.mem_cons, List.not_mem_nil, or_false] at hp
  rcases hp with rfl | rfl | rfl | rfl | rfl | rfl <;> rfl

theorem readAtom_constant {p : List Char × Value φ} (hp : p ∈ constants codec) (r : List Char) :
    readAtom codec (p.1 ++ r) = some (p.2, r) := by
  simp only [constants, nonNumbers, List.map_cons, List.map_nil, List.cons_append, List.nil_append,
    List.mem_cons, List.not_mem_nil, or_false] at hp
  rcases hp with rfl | rfl | rfl | rfl | rfl | rfl <;> rfl

theorem readAtom_number {l : List Char} {b : Bool} (hl : number l = some (l, b)) (hr : Ends r) :
    readAtom codec (l ++ r) =
      some (if b then .float (codec.read l) else .int (intValue l), r) := by
  have hnumber : number (l ++ r) = some (l, b) := (number_append hr).trans hl
  have hnone : ((constants codec).find? fun p => p.1.isPrefixOf (l ++ r)) = none := by
    refine List.find?_eq_none.2 fun p hp hprefix => ?_
    obtain ⟨t, ht⟩ := List.isPrefixOf_iff_prefix.1 hprefix
    rw [← ht, number_constant codec hp] at hnumber
    cases hnumber
  rw [readAtom, hnone, hnumber]
  simp

theorem readAtom_float (x : φ) (hr : Ends r) :
    readAtom codec (codec.write x ++ r) = some (.float x, r) := by
  rcases codec.isFloat x with h | h
  · have hp : (codec.write x, Value.float (codec.read (codec.write x))) ∈ constants codec :=
      List.mem_append_right _ (List.mem_map.2 ⟨_, h, rfl⟩)
    simpa [codec.read_write] using readAtom_constant codec hp r
  · simpa [codec.read_write] using readAtom_number codec h hr

theorem readAtom_int (i : ℤ) (hr : Ends r) :
    readAtom codec (i.repr.toList ++ r) = some (.int i, r) := by
  simpa [intValue_repr] using readAtom_number codec (number_repr i) hr

/-- No atom begins with a punctuation mark or with whitespace. -/
theorem readAtom_eq_none {c : Char}
    (hc : c ∈ ['"', '[', '{', ']', '}', ',', ' ', '\t', '\n', '\r']) (cs : List Char) :
    readAtom codec (c :: cs) = none := by
  simp only [List.mem_cons, List.not_mem_nil, or_false] at hc
  rcases hc with rfl | rfl | rfl | rfl | rfl | rfl | rfl | rfl | rfl | rfl <;> rfl

theorem read_of_readAtom {p : Value φ × List Char} (h : readAtom codec cs = some p) :
    read codec (n + 1) cs = some p := by
  rw [read]
  · exact h
  all_goals
    rintro cs rfl
    rw [readAtom_eq_none codec (by simp)] at h
    cases h

/-- A value does not begin with one of these characters. -/
theorem read_eq_none {c : Char} (hc : c ∈ [']', '}', ',', ' ', '\t', '\n', '\r'])
    (cs : List Char) : read codec n (c :: cs) = none := by
  cases n with
  | zero => rfl
  | succ n =>
    have hnone := readAtom_eq_none codec (c := c) (by simp_all) cs
    simp only [List.mem_cons, List.not_mem_nil, or_false] at hc
    rcases hc with rfl | rfl | rfl | rfl | rfl | rfl | rfl <;> exact hnone

/-- Where a value begins there is nothing to skip. -/
theorem skip_of_read {p : Value φ × List Char} (h : read codec n cs = some p) : skip cs = cs := by
  cases cs with
  | nil => rfl
  | cons c cs =>
    by_cases hc : c ∈ [' ', '\t', '\n', '\r']
    · rw [read_eq_none codec (by simp_all)] at h
      cases h
    · simp only [skip, List.dropWhile_cons, decide_eq_true_eq, if_neg hc]

/-! ## Objects -/

theorem setItem_of_notMem {d : List (String × Value φ)} {k : String}
    (h : k ∉ d.map Prod.fst) (v : Value φ) : setItem d k v = d ++ [(k, v)] :=
  if_neg h

theorem dictOf_of_nodup {pairs : List (String × Value φ)} (h : (pairs.map Prod.fst).Nodup) :
    dictOf pairs = pairs := by
  have hfold : ∀ d : List (String × Value φ), ((d ++ pairs).map Prod.fst).Nodup →
      pairs.foldl (fun d p => setItem d p.1 p.2) d = d ++ pairs := by
    clear h
    induction pairs with
    | nil => simp
    | cons p pairs ih =>
      intro d hd
      have hnew : p.1 ∉ d.map Prod.fst := by
        intro hmem
        rw [List.map_append, List.nodup_append] at hd
        exact hd.2.2 _ hmem _ (by simp) rfl
      rw [List.foldl_cons, setItem_of_notMem hnew, ih _ (by simpa using hd)]
      simp
  exact hfold [] h

/-! ## Values -/

theorem ends_of_mem {c : Char} (hc : c ∈ [']', '}', ',']) (cs : List Char) : Ends (c :: cs) := by
  simp only [List.mem_cons, List.not_mem_nil, or_false] at hc
  rcases hc with rfl | rfl | rfl <;> exact ends_cons rfl (by decide)

/-- What is written after an item ends it. -/
theorem ends_writeItems (vs : List (Value φ)) (r : List Char) :
    Ends (writeItems codec vs ++ r) := by
  cases vs <;> rw [writeItems] <;> exact ends_of_mem (by simp) _

theorem ends_writeMembers (kvs : List (String × Value φ)) (r : List Char) :
    Ends (writeMembers codec kvs ++ r) := by
  cases kvs <;> rw [writeMembers] <;> exact ends_of_mem (by simp) _

/-- A member is read if its value is. -/
theorem readMember_write {k : String}
    (hv : ∀ m, (write codec v ++ r).length ≤ m → read codec m (write codec v ++ r) = some (v, r))
    (hn : (quote k ++ ':' :: ' ' :: (write codec v ++ r)).length ≤ n) :
    readMember codec n (quote k ++ ':' :: ' ' :: (write codec v ++ r)) = some ((k, v), r) := by
  have htext : quote k ++ ':' :: ' ' :: (write codec v ++ r) =
      '"' :: (k.toList.flatMap escapeChar ++ '"' :: ':' :: ' ' :: (write codec v ++ r)) := by
    simp [quote]
  rw [htext] at hn ⊢
  cases n with
  | zero => simp at hn
  | succ n =>
    have hread := hv n (by simp at hn ⊢; omega)
    have hkey := readString_flatMap k.toList (':' :: ' ' :: (write codec v ++ r)) (n := n)
      (by simp at hn ⊢; omega)
    have hskip : skip (' ' :: (write codec v ++ r)) = write codec v ++ r := skip_of_read codec hread
    simp only [readMember, hkey, Option.bind_eq_bind, Option.bind_some]
    rw [show skip (':' :: ' ' :: (write codec v ++ r)) =
      ':' :: ' ' :: (write codec v ++ r) from rfl]
    simp [hskip, hread]

theorem write_ne_nil (v : Value φ) : write codec v ≠ [] := by
  cases v with
  | int i =>
    intro h
    have hread := number_repr i
    rw [show i.repr.toList = [] from h] at hread
    cases hread
  | float x =>
    intro h
    have hread := codec.isFloat x
    rw [show codec.write x = [] from h] at hread
    exact hread.elim (by simp [nonNumbers]) (by simp [number, whole, sign])
  | bool b => cases b <;> simp [write]
  | array vs => cases vs <;> simp [write]
  | object kvs => cases kvs <;> simp [write]
  | null => simp [write]
  | string s => simp [write, quote]

theorem wellFormedItems_iff {vs : List (Value φ)} :
    WellFormedItems vs ↔ ∀ v ∈ vs, v.WellFormed := by
  induction vs with
  | nil => simp [WellFormedItems]
  | cons v vs ih => simp [WellFormedItems, ih]

theorem wellFormedMembers_iff {kvs : List (String × Value φ)} :
    WellFormedMembers kvs ↔ ∀ p ∈ kvs, p.2.WellFormed := by
  induction kvs with
  | nil => simp [WellFormedMembers]
  | cons p kvs ih => simp [WellFormedMembers, ih]

theorem length_write_pos (v : Value φ) : 0 < (write codec v).length :=
  List.length_pos_iff.2 (write_ne_nil codec v)

mutual

/-- **A value is read back as it was written**, and what follows the value in the text is left for
the next one. -/
theorem read_write : ∀ (v : Value φ) {n : ℕ} {r : List Char}, v.WellFormed → Ends r →
    (write codec v ++ r).length ≤ n → read codec n (write codec v ++ r) = some (v, r)
  | v, 0, r, _, _, hn => by
    have hpos := length_write_pos codec v
    rw [List.length_append] at hn
    omega
  | .null, n + 1, r, _, _, _ => read_of_readAtom codec <|
    readAtom_constant codec (p := ("null".toList, .null)) (by simp [constants]) r
  | .bool true, n + 1, r, _, _, _ => read_of_readAtom codec <|
    readAtom_constant codec (p := ("true".toList, .bool true)) (by simp [constants]) r
  | .bool false, n + 1, r, _, _, _ => read_of_readAtom codec <|
    readAtom_constant codec (p := ("false".toList, .bool false)) (by simp [constants]) r
  | .int i, n + 1, r, _, hr, _ => read_of_readAtom codec (readAtom_int codec i hr)
  | .float x, n + 1, r, _, hr, _ => read_of_readAtom codec (readAtom_float codec x hr)
  | .string s, n + 1, r, _, _, hn => by
    simp only [write, quote, List.cons_append, List.append_assoc, List.length_cons,
      Nat.add_le_add_iff_right] at hn ⊢
    simp [read, readString_flatMap s.toList r hn]
  | .array [], n + 1, r, _, _, _ => rfl
  | .array (v :: vs), n + 1, r, hwf, _, hn => by
    simp only [write, List.cons_append, List.append_assoc, List.length_cons,
      Nat.add_le_add_iff_right] at hn ⊢
    have hv := read_write v hwf.1 (ends_writeItems codec vs r) hn
    have hvs := readItems_write vs (n := n) (r := r) hwf.2 (by simp at hn ⊢; omega)
    -- A value does not begin with the bracket that would close an empty array.
    have hclose : ∀ cs, write codec v ++ (writeItems codec vs ++ r) ≠ ']' :: cs := by
      intro cs h
      rw [h, read_eq_none codec (by simp)] at hv
      cases hv
    simp [read, skip_of_read codec hv, hv, hvs]
  | .object [], n + 1, r, _, _, _ => rfl
  | .object ((k, v) :: kvs), n + 1, r, hwf, _, hn => by
    simp only [write, List.cons_append, List.append_assoc, List.length_cons,
      Nat.add_le_add_iff_right] at hn ⊢
    have hkv := readMember_write codec
      (fun m hm => read_write v (n := m) hwf.2.1 (ends_writeMembers codec kvs r) hm) hn
    have hkvs := readMembers_write kvs (n := n) (r := r) hwf.2.2 (by simp at hn ⊢; omega)
    have hskip : ∀ cs, skip (quote k ++ cs) = quote k ++ cs := fun cs => rfl
    have hclose : ∀ cs cs', quote k ++ cs ≠ '}' :: cs' := by simp [quote]
    simp only [read, hskip]
    split
    · exact absurd ‹_› (hclose _ _)
    · simp [hkv, hkvs, dictOf_of_nodup hwf.1]

theorem readItems_write : ∀ (vs : List (Value φ)) {n : ℕ} {r : List Char}, WellFormedItems vs →
    (writeItems codec vs ++ r).length ≤ n →
    readItems codec n (writeItems codec vs ++ r) = some (vs, r)
  | vs, 0, r, _, hn => by
    cases vs <;> simp [writeItems] at hn
  | [], n + 1, r, _, _ => rfl
  | v :: vs, n + 1, r, hwf, hn => by
    simp only [writeItems, List.cons_append, List.append_assoc, List.length_cons] at hn ⊢
    have hv := read_write v (n := n) hwf.1 (ends_writeItems codec vs r) (by omega)
    have hvs := readItems_write vs (n := n) (r := r) hwf.2 (by simp at hn ⊢; omega)
    have hcomma : ∀ cs, skip (',' :: cs) = ',' :: cs := fun cs => rfl
    have hskip : skip (' ' :: (write codec v ++ (writeItems codec vs ++ r))) =
        write codec v ++ (writeItems codec vs ++ r) := skip_of_read codec hv
    simp [readItems, hcomma, hskip, hv, hvs]

theorem readMembers_write : ∀ (kvs : List (String × Value φ)) {n : ℕ} {r : List Char},
    WellFormedMembers kvs → (writeMembers codec kvs ++ r).length ≤ n →
    readMembers codec n (writeMembers codec kvs ++ r) = some (kvs, r)
  | kvs, 0, r, _, hn => by
    cases kvs <;> simp [writeMembers] at hn
  | [], n + 1, r, _, _ => rfl
  | (k, v) :: kvs, n + 1, r, hwf, hn => by
    simp only [writeMembers, List.cons_append, List.append_assoc, List.length_cons] at hn ⊢
    have hkv := readMember_write codec (n := n) (k := k)
      (fun m hm => read_write v (n := m) hwf.1 (ends_writeMembers codec kvs r) hm)
      (by omega)
    have hkvs := readMembers_write kvs (n := n) (r := r) hwf.2 (by simp at hn ⊢; omega)
    have hcomma : ∀ cs, skip (',' :: cs) = ',' :: cs := fun cs => rfl
    have hskip : ∀ cs, skip (' ' :: (quote k ++ cs)) = quote k ++ cs := fun cs => rfl
    simp [readMembers, hcomma, hskip, hkv, hkvs]

end

/-- **`loads` inverts `dumps`** on values whose objects do not repeat a key, which are all that a
`dict` can hold. -/
theorem loads_dumps {v : Value φ} (hv : v.WellFormed) : loads codec (dumps codec v) = some v := by
  have hread := fun n hn => read_write codec v (n := n) (r := []) hv ends_nil hn
  simp only [List.append_nil] at hread
  have hskip : skip (write codec v) = write codec v := skip_of_read codec (hread _ le_rfl)
  have hnil : skip [] = [] := rfl
  simp [loads, dumps, hskip, hread _ le_rfl, hnil]

end

example : quote "a\"é" = "\"a\\\"\\u00e9\"".toList := by decide

end JsonText
