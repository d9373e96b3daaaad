import RustyTune.Lib.Lines
import RustyTune.Lib.XRat

/-!
# Printed numbers

* `signed`: digits with their sign; `isNumeral`: the characters of printed numbers.
* **`parse_signed`**: a printed number reads back with its sign. `toList_toString`: an integer is
  printed so.
-/

namespace RustyTune

def signed (negative : Bool) (n k : ℕ) : List Char :=
  if negative then '-' :: decimal n k else decimal n k

def isNumeral (c : Char) : Bool := c.isDigit || c == '.' || c == '-'

theorem isNumeral_decimal {n k : ℕ} {c : Char} (h : c ∈ decimal n k) : isNumeral c = true := by
  rcases mem_decimal h with h | h <;> simp [isNumeral, h]

theorem isNumeral_signed {negative : Bool} {n k : ℕ} {c : Char} (h : c ∈ signed negative n k) :
    isNumeral c = true := by
  rw [signed] at h
  split_ifs at h
  · rcases List.mem_cons.mp h with rfl | h
    · rfl
    · exact isNumeral_decimal h
  · exact isNumeral_decimal h

theorem toNat_of_isNumeral {c : Char} (h : isNumeral c = true) :
    48 ≤ c.toNat ∧ c.toNat ≤ 57 ∨ c.toNat = 46 ∨ c.toNat = 45 := by
  simp only [isNumeral, Bool.or_eq_true, beq_iff_eq] at h
  rcases h with (h | rfl) | rfl
  · exact .inl (by simpa [Char.isDigit, UInt32.le_iff_toNat_le] using h)
  · exact .inr (.inl rfl)
  · exact .inr (.inr rfl)

theorem isWhitespace_of_isNumeral {c : Char} (h : isNumeral c = true) :
    Text.isWhitespace c = false := by
  have hn := toNat_of_isNumeral h
  simp only [Text.isWhitespace, Bool.or_eq_false_iff, Bool.and_eq_false_iff, decide_eq_false_iff_not,
    beq_eq_false_iff_ne]
  omega

theorem toLower_of_isNumeral {c : Char} (h : isNumeral c = true) : c.toLower = c := by
  have hn := toNat_of_isNumeral h
  refine dif_neg fun hupper => ?_
  have hle : 65 ≤ c.toNat := hupper.1
  omega

theorem trim_eq_self {s : List Char} (h : ∀ c ∈ s, isNumeral c = true) : Text.trim s = s := by
  have hw : ∀ c ∈ s, Text.isWhitespace c = false := fun c hc => isWhitespace_of_isNumeral (h c hc)
  have hstart : Text.trimStartWhere Text.isWhitespace s = s := by
    cases s with
    | nil => rfl
    | cons c s => exact List.dropWhile_cons_of_neg (by simp [hw c List.mem_cons_self])
  rw [Text.trim, hstart, Text.trimEndWhere_eq_self hw]

theorem parseMagnitude_decimal (n k : ℕ) :
    XRat.parseMagnitude (decimal n k) = some (.fin ((n : ℚ) / 10 ^ k)) := by
  have hword : (decimal n k).map Char.toLower = decimal n k :=
    (List.map_congr_left fun c hc => toLower_of_isNumeral (isNumeral_decimal hc)).trans
      (List.map_id _)
  have hne : ∀ word : List Char, 'n' ∈ word → decimal n k ≠ word := by
    rintro word hmem rfl
    exact absurd (isNumeral_decimal hmem) (by decide)
  rw [XRat.parseMagnitude, hword, if_neg (not_or.mpr ⟨hne _ (by decide), hne _ (by decide)⟩),
    if_neg (hne _ (by decide)), parseDecimal_decimal]
  rfl

/-- **A number reads back with its sign.** -/
theorem parse_signed (negative : Bool) (n k : ℕ) :
    XRat.parse (String.ofList (signed negative n k)) =
      some (.fin (if negative then -((n : ℚ) / 10 ^ k) else n / 10 ^ k)) := by
  rw [XRat.parse, String.toList_ofList, signed]
  cases negative with
  | true =>
    simp only [if_true, parseMagnitude_decimal]
    rfl
  | false =>
    have hsign : ∀ c ∈ decimal n k, c ≠ '-' ∧ c ≠ '+' := by
      intro c hc
      rcases mem_decimal hc with h | rfl
      · exact ⟨fun heq => absurd h (heq ▸ by decide), fun heq => absurd h (heq ▸ by decide)⟩
      · decide
    have hparse := parseMagnitude_decimal n k
    rw [if_neg Bool.false_ne_true, if_neg Bool.false_ne_true]
    generalize decimal n k = digits at hsign hparse
    match digits with
    | [] => exact hparse
    | c :: s =>
      obtain ⟨hminus, hplus⟩ := hsign c List.mem_cons_self
      split
      · exact absurd (List.cons.inj ‹_›).1 hminus
      · exact absurd (List.cons.inj ‹_›).1 hplus
      · exact hparse

theorem toList_toString (i : ℤ) : (toString i).toList = signed (decide (i < 0)) i.natAbs 0 := by
  cases i with
  | ofNat n =>
    have hn : ¬ (Int.ofNat n < 0) := by simp
    rw [signed, decide_eq_false hn, if_neg Bool.false_ne_true]
    exact String.toList_ofList
  | negSucc n =>
    rw [signed, decide_eq_true (Int.negSucc_lt_zero n), if_pos rfl]
    exact String.toList_append.trans (congrArg ('-' :: ·) String.toList_ofList)

theorem roundEven_nonneg {q : ℚ} (h : 0 ≤ q) : 0 ≤ XRat.roundEven q := by
  have hfloor : 0 ≤ ⌊q⌋ := Int.floor_nonneg.mpr h
  unfold XRat.roundEven
  dsimp only
  split_ifs <;> omega

theorem roundEven_nonpos {q : ℚ} (h : q ≤ 0) : XRat.roundEven q ≤ 0 := by
  unfold XRat.roundEven
  dsimp only
  by_cases hq : 0 ≤ q
  · obtain rfl := le_antisymm h hq
    norm_num
  · have hfloor : ⌊q⌋ < 0 := Int.floor_lt.mpr (by exact_mod_cast not_le.mp hq)
    split_ifs <;> omega

/-- A sign and the digits of an integer of that sign. -/
theorem signed_value {negative : Bool} {m : ℤ} (k : ℕ) (hneg : negative = true → m ≤ 0)
    (hpos : negative = false → 0 ≤ m) :
    (if negative then -((m.natAbs : ℚ) / 10 ^ k) else m.natAbs / 10 ^ k) = m / 10 ^ k := by
  cases negative with
  | true =>
    rw [if_pos rfl, Nat.cast_natAbs, abs_of_nonpos (hneg rfl), Int.cast_neg, neg_div, neg_neg]
  | false => rw [if_neg Bool.false_ne_true, Nat.cast_natAbs, abs_of_nonneg (hpos rfl)]

end RustyTune
