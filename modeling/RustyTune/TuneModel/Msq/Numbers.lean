import RustyTune.Lib.Numerals
import RustyTune.Lib.Xml
import RustyTune.TuneModel.Msq.Save
import RustyTune.TuneModel.Stored

/-!
# Numbers in a file

Arithmetic is exact here. A number is written with six decimals at most.

* `sixDecimals`: what is left of a number; **`parse_fmtNum`**: its text reads back as that.
* `isPlain_fmtNum`: its text is a word of plain characters.
* `RoundsTo`: a number is rounded to a raw value of a type. **`roundsTo_toMillionths`**: so is what is
  left of the number a raw value is decoded to, where the scale is greater than the last decimal.
-/

namespace RustyTune.TuneModel.Msq

open TsIni XRat

/-! ## Printing -/

def sixDecimals (v : XRat) : XRat := F64.div (F64.round (F64.mul v 1000000)) 1000000

def toMillionths (q : ℚ) : ℚ := (roundAway (q * 1000000) : ℚ) / 1000000

theorem sixDecimals_fin (q : ℚ) : sixDecimals (fin q) = fin (toMillionths q) := by
  have hmul : F64.round (F64.mul (fin q) 1000000) = fin (roundAway (q * 1000000) : ℤ) := rfl
  rw [sixDecimals, hmul]
  exact div_fin (by norm_num) _

theorem sixDecimals_inf (s : Bool) : sixDecimals (inf s) = inf s := by cases s <;> rfl

theorem sixDecimals_nan : sixDecimals nan = nan := rfl

theorem roundEven_intCast (z : ℤ) : roundEven z = z := by
  rw [roundEven, Int.floor_intCast, sub_self, if_pos (by norm_num)]

theorem fixed_eq_signed (k : ℕ) (q : ℚ) : fixed k q =
    signed (decide (roundEven (q * 10 ^ k) < 0)) (roundEven (q * 10 ^ k)).natAbs k := by
  simp only [fixed, signed, decide_eq_true_eq]

/-- **A number that is printed with all of its decimals reads back.** -/
theorem parse_fixed {k : ℕ} {q : ℚ} (h : (q * 10 ^ k).den = 1) :
    XRat.parse (String.ofList (fixed k q)) = some (fin q) := by
  have hz : ((q * 10 ^ k).num : ℚ) = q * 10 ^ k := Rat.den_eq_one_iff _ |>.mp h
  have hround : roundEven (q * 10 ^ k) = (q * 10 ^ k).num := by
    conv_lhs => rw [← hz, roundEven_intCast]
  rw [fixed_eq_signed, parse_signed, signed_value k (fun hneg => (of_decide_eq_true hneg).le)
    fun hneg => not_lt.mp (of_decide_eq_false hneg), hround, hz]
  field_simp

theorem parse_print {k : ℚ → ℕ} {x : XRat} (h : ∀ q, x = fin q → (q * 10 ^ k q).den = 1) :
    XRat.parse (print k x) = some x := by
  cases x with
  | fin q => exact parse_fixed (h q rfl)
  | inf s =>
    cases s with
    | false => exact (rfl : XRat.parse "inf" = some (inf false))
    | true => exact (rfl : XRat.parse "-inf" = some (inf true))
  | nan => exact (rfl : XRat.parse "NaN" = some nan)

/-- Six decimals are enough. -/
theorem den_decimals (q : ℚ) : (toMillionths q * 10 ^ decimals (toMillionths q)).den = 1 := by
  have hsix : (toMillionths q * 10 ^ 6).den = 1 := by
    have hint : toMillionths q * 10 ^ 6 = (roundAway (q * 1000000) : ℤ) := by
      rw [toMillionths]
      norm_num
    rw [hint]
    rfl
  have hfind : ((List.range 21).find? fun k => (toMillionths q * 10 ^ k).den = 1).isSome := by
    rw [List.find?_isSome]
    exact ⟨6, by decide, decide_eq_true hsix⟩
  obtain ⟨k, hk⟩ := Option.isSome_iff_exists.mp hfind
  have hden := List.find?_some hk
  rw [decimals, hk, Option.getD_some]
  exact of_decide_eq_true hden

theorem fmtNum_eq_print (v : XRat) : ∃ k, fmtNum v = print k (sixDecimals v) ∧
    ∀ q, sixDecimals v = fin q → (q * 10 ^ k q).den = 1 := by
  by_cases hwhole : (F64.eq (sixDecimals v) (F64.trunc (sixDecimals v)) &&
      F64.lt (F64.abs (sixDecimals v)) 1000000000000000) = true
  · refine ⟨fun _ => 1, if_pos hwhole, fun q hq => ?_⟩
    rw [hq, Bool.and_eq_true] at hwhole
    have hint : q = truncate q := of_decide_eq_true hwhole.1
    have hten : q * 10 ^ 1 = (truncate q * 10 : ℤ) := by
      rw [pow_one, Int.cast_mul, ← hint]
      rfl
    rw [hten]
    rfl
  · refine ⟨decimals, if_neg hwhole, fun q hq => ?_⟩
    cases v with
    | fin p =>
      rw [sixDecimals_fin, fin.injEq] at hq
      rw [← hq]
      exact den_decimals p
    | inf s => exact absurd (sixDecimals_inf s ▸ hq) (by simp)
    | nan => exact absurd hq (by simp [sixDecimals_nan])

/-- **A number that is written reads back to six decimals.** -/
theorem parse_fmtNum (v : XRat) : F64.parse (fmtNum v) = some (sixDecimals v) := by
  obtain ⟨k, htext, hk⟩ := fmtNum_eq_print v
  rw [htext]
  exact parse_print hk

/-! ## The characters of numbers -/

/-- A character of ASCII that neither separates words nor is escaped. -/
def isPlain (c : Char) : Bool := c.toNat < 128 && !Text.isWhitespace c && !Xml.isSpecial c

theorem isPlain_of_isNumeral {c : Char} (h : isNumeral c = true) : isPlain c = true := by
  have hn := toNat_of_isNumeral h
  have hspecial : Xml.isSpecial c = false := by
    simp only [Xml.isSpecial, Bool.or_eq_false_iff, beq_eq_false_iff_ne]
    refine ⟨⟨⟨?_, ?_⟩, ?_⟩, ?_⟩ <;> rintro rfl <;> revert hn <;> decide
  rw [isPlain, isWhitespace_of_isNumeral h, hspecial]
  simp only [Bool.not_false, Bool.and_true, decide_eq_true_eq]
  omega

theorem isPlain_print {k : ℚ → ℕ} {x : XRat} : ∀ c ∈ (print k x).toList, isPlain c = true := by
  intro c hc
  cases x with
  | fin q =>
    rw [print, String.toList_ofList, fixed_eq_signed] at hc
    exact isPlain_of_isNumeral (isNumeral_signed hc)
  | inf s =>
    cases s with
    | false => exact List.all_eq_true.mp (by decide : "inf".toList.all isPlain = true) c hc
    | true => exact List.all_eq_true.mp (by decide : "-inf".toList.all isPlain = true) c hc
  | nan => exact List.all_eq_true.mp (by decide : "NaN".toList.all isPlain = true) c hc

theorem isPlain_fmtNum {v : XRat} : ∀ c ∈ (fmtNum v).toList, isPlain c = true := by
  obtain ⟨k, htext, -⟩ := fmtNum_eq_print v
  rw [htext]
  exact isPlain_print

theorem fmtNum_ne_nil (v : XRat) : (fmtNum v).toList ≠ [] := by
  intro h
  have hparse := parse_fmtNum v
  rw [String.toList_eq_nil_iff.mp h] at hparse
  have hempty : XRat.parse "" = none := rfl
  cases hempty.symm.trans hparse

theorem isWord_of_isPlain {w : List Char} (hne : w ≠ []) (h : ∀ c ∈ w, isPlain c = true) :
    Text.IsWord w := by
  refine ⟨hne, fun c hc => ?_⟩
  have := h c hc
  simp only [isPlain, Bool.and_eq_true, Bool.not_eq_true'] at this
  exact this.1.2

theorem isWord_fmtNum (v : XRat) : Text.IsWord (fmtNum v).toList :=
  isWord_of_isPlain (fmtNum_ne_nil v) isPlain_fmtNum

/-! ## Raw values -/

/-- What is lost of a number is half of a millionth at most. -/
theorem abs_toMillionths_sub_le (q : ℚ) : |toMillionths q - q| ≤ 1 / 2000000 := by
  have h := abs_roundAway_sub_le (q * 1000000)
  have hdiff : toMillionths q - q = ((roundAway (q * 1000000) : ℚ) - q * 1000000) / 1000000 := by
    rw [toMillionths]
    field_simp
  rw [hdiff, abs_div, abs_of_pos (by norm_num : (0 : ℚ) < 1000000)]
  linarith

variable {ty : DataType} {scale translate : ℚ} {raw : ℤ}

/-- The number is rounded to a raw value of the type, or lies past it where the range ends. -/
def RoundsTo (ty : DataType) (x : ℚ) (raw : ℤ) : Prop :=
  (raw = (typeRange ty).1 ∨ RoundsUpTo raw x) ∧ (raw = (typeRange ty).2 ∨ RoundsDownTo raw x)

instance (x : ℚ) : Decidable (RoundsTo ty x raw) := inferInstanceAs (Decidable (_ ∧ _))

instance : Decidable (InRange ty raw) := inferInstanceAs (Decidable (_ ∧ _))

theorem clampRaw_eq_iff {z : ℤ} (hr : InRange ty raw) : clampRaw ty z = raw ↔
    (raw = (typeRange ty).1 ∨ raw ≤ z) ∧ (raw = (typeRange ty).2 ∨ z ≤ raw) := by
  obtain ⟨h1, h2⟩ := hr
  unfold clampRaw
  omega

theorem nearestRaw_eq_iff (hr : InRange ty raw) (user : ℚ) :
    nearestRaw ty scale translate user = raw ↔ RoundsTo ty (inRaw scale translate user) raw := by
  rw [nearestRaw, clampRaw_eq_iff hr, RoundsTo, le_roundAway_iff, roundAway_le_iff]

/-- **What is written of a raw value is rounded to it again** where the scale is greater than the last
decimal. -/
theorem roundsTo_toMillionths (hs : 1 / 1000000 < |scale|) :
    RoundsTo ty (inRaw scale translate (toMillionths (decoded scale translate raw))) raw := by
  have hne : scale ≠ 0 := by
    rintro rfl
    norm_num at hs
  have hpos : 0 < |scale| := abs_pos.mpr hne
  have hoff : inRaw scale translate (toMillionths (decoded scale translate raw)) - raw =
      (toMillionths (decoded scale translate raw) - decoded scale translate raw) / scale := by
    rw [inRaw, decoded]
    field_simp
    ring
  have hlt : |inRaw scale translate (toMillionths (decoded scale translate raw)) - raw| < 1 / 2 := by
    rw [hoff, abs_div, div_lt_iff₀ hpos]
    have := abs_toMillionths_sub_le (decoded scale translate raw)
    linarith
  obtain ⟨hlower, hupper⟩ := abs_lt.mp hlt
  exact ⟨.inr (.inl (by linarith)), .inr (.inl (by linarith))⟩

theorem clampRaw_nan (ty : DataType) : clampRaw ty (F64.toI64 nan).toInt = 0 := by
  cases ty <;> rfl

theorem quantise_sixDecimals {c : ConstantDef XRat} (hne : scale ≠ 0) :
    quantise c (fin scale, fin translate)
      (sixDecimals (F64.mul (F64.add (F64.ofInt raw) (fin translate)) (fin scale))) =
      nearestRaw c.ty scale translate (toMillionths (decoded scale translate raw)) := by
  have hvalue : F64.mul (F64.add (F64.ofInt raw) (fin translate)) (fin scale) =
      fin (decoded scale translate raw) := rfl
  rw [hvalue, sixDecimals_fin, quantise_fin hne]

end RustyTune.TuneModel.Msq
