import Mathlib.Data.Rat.Floor
import Mathlib.Tactic.FieldSimp

/-!
# Decimal numbers

* `decimal n k`: the text of `n / 10 ^ k` with `k` decimals.
* `parseDecimal`: the number a text stands for; digits, a point, digits, an exponent.
* **`parseDecimal_decimal`**: what is printed reads back.
-/

namespace RustyTune

/-- Digits with zeros in front, `k` in all. -/
def padLeft (k : ℕ) (ds : List Char) : List Char := List.replicate (k - ds.length) '0' ++ ds

/-- The text of `n / 10 ^ k`, with `k` decimals. -/
def decimal (n k : ℕ) : List Char :=
  if k = 0 then Nat.toDigits 10 n
  else Nat.toDigits 10 (n / 10 ^ k) ++ '.' :: padLeft k (Nat.toDigits 10 (n % 10 ^ k))

/-- A whole number with its sign, all of the text. -/
def parseWhole (s : List Char) : Option ℤ :=
  let digits (ds : List Char) : Option ℕ :=
    if ds ≠ [] ∧ ds.all Char.isDigit then some (Nat.ofDigitChars 10 ds 0) else none
  match s with
  | '-' :: ds => (digits ds).map fun n => -(n : ℤ)
  | '+' :: ds => (digits ds).map fun n => (n : ℤ)
  | ds => (digits ds).map fun n => (n : ℤ)

/-- What follows the digits: nothing, or an exponent. -/
def parseExponent : List Char → Option ℤ
  | [] => some 0
  | c :: s => if c = 'e' ∨ c = 'E' then parseWhole s else none

/-- The digits after the point, and what follows them. -/
def fraction : List Char → List Char × List Char
  | '.' :: s => (s.takeWhile Char.isDigit, s.dropWhile Char.isDigit)
  | s => ([], s)

/-- The number of a text without sign. -/
def parseDecimal (s : List Char) : Option ℚ :=
  let whole := s.takeWhile Char.isDigit
  let (frac, rest) := fraction (s.dropWhile Char.isDigit)
  if whole = [] ∧ frac = [] then none
  else (parseExponent rest).map fun e =>
    (Nat.ofDigitChars 10 (whole ++ frac) 0 : ℚ) * 10 ^ (e - (frac.length : ℤ))

/-! ## Reading back -/

theorem isDigit_toDigits {n : ℕ} {c : Char} (h : c ∈ Nat.toDigits 10 n) : c.isDigit = true :=
  Nat.isDigit_of_mem_toDigits (by decide) (by decide) h

theorem isDigit_padLeft {k n : ℕ} {c : Char} (h : c ∈ padLeft k (Nat.toDigits 10 n)) :
    c.isDigit = true := by
  rcases List.mem_append.mp h with h | h
  · rw [List.eq_of_mem_replicate h]; rfl
  · exact isDigit_toDigits h

theorem length_toDigits_le {k n : ℕ} (hk : 0 < k) (h : n < 10 ^ k) :
    (Nat.toDigits 10 n).length ≤ k := (Nat.length_toDigits_le_iff (by decide) hk).mpr h

theorem length_padLeft {k n : ℕ} (hk : 0 < k) (h : n < 10 ^ k) :
    (padLeft k (Nat.toDigits 10 n)).length = k := by
  have := length_toDigits_le hk h
  rw [padLeft, List.length_append, List.length_replicate]
  omega

theorem takeWhile_digits {ds s : List Char} (hds : ∀ c ∈ ds, c.isDigit = true)
    (hs : ∀ c ∈ s.head?, c.isDigit = false) :
    (ds ++ s).takeWhile Char.isDigit = ds ∧ (ds ++ s).dropWhile Char.isDigit = s := by
  rw [List.takeWhile_append_of_pos hds, List.dropWhile_append_of_pos hds]
  cases s with
  | nil => simp
  | cons c s =>
    have hc := hs c (by simp)
    simp [hc]

/-- **A printed number reads back.** -/
theorem parseDecimal_decimal (n k : ℕ) : parseDecimal (decimal n k) = some ((n : ℚ) / 10 ^ k) := by
  by_cases hk : k = 0
  · subst hk
    have h := takeWhile_digits (s := []) (fun c (hc : c ∈ Nat.toDigits 10 n) => isDigit_toDigits hc)
      (by simp)
    rw [List.append_nil] at h
    have hne : Nat.toDigits 10 n ≠ [] := Nat.toDigits_ne_nil
    simp [parseDecimal, decimal, h, hne, fraction, parseExponent]
  · have hpos : 0 < 10 ^ k := Nat.pow_pos (by decide)
    have hlen := length_padLeft (Nat.pos_of_ne_zero hk) (Nat.mod_lt n hpos)
    have h1 := takeWhile_digits (s := '.' :: padLeft k (Nat.toDigits 10 (n % 10 ^ k)))
      (fun c (hc : c ∈ Nat.toDigits 10 (n / 10 ^ k)) => isDigit_toDigits hc) (by simp)
    have h2 := takeWhile_digits (s := [])
      (fun c (hc : c ∈ padLeft k (Nat.toDigits 10 (n % 10 ^ k))) => isDigit_padLeft hc) (by simp)
    rw [List.append_nil] at h2
    have hval : Nat.ofDigitChars 10 (Nat.toDigits 10 (n / 10 ^ k) ++
        padLeft k (Nat.toDigits 10 (n % 10 ^ k))) 0 = n := by
      rw [Nat.ofDigitChars_append, Nat.ofDigitChars_ten_toDigits,
        Nat.ofDigitChars_eq_ofDigitChars_zero, hlen, padLeft, Nat.ofDigitChars_append,
        Nat.ofDigitChars_replicate_zero, Nat.mul_zero, Nat.ofDigitChars_ten_toDigits]
      exact Nat.div_add_mod n (10 ^ k)
    have hne : Nat.toDigits 10 (n / 10 ^ k) ≠ [] := Nat.toDigits_ne_nil
    simp only [parseDecimal, decimal, hk, if_false, h1, fraction, h2, hne, false_and,
      parseExponent, Option.map_some, hval, hlen, zero_sub, zpow_neg, zpow_natCast, div_eq_mul_inv]

theorem mem_decimal {n k : ℕ} {c : Char} (h : c ∈ decimal n k) : c.isDigit = true ∨ c = '.' := by
  unfold decimal at h
  split_ifs at h
  · exact Or.inl (isDigit_toDigits h)
  · rcases List.mem_append.mp h with h | h
    · exact Or.inl (isDigit_toDigits h)
    · rcases List.mem_cons.mp h with rfl | h
      · exact Or.inr rfl
      · exact Or.inl (isDigit_padLeft h)

end RustyTune
