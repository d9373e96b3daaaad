import Mathlib.Algebra.Order.Group.MinMax
import Mathlib.Tactic.Linarith
import RustyTune.Lib.XRat

/-!
# Rounding to the nearest integer

* `roundAway_le_iff`, `le_roundAway_iff`: what is rounded to no more, and to no less, than an integer;
  halves go away from zero.
* `roundUp`: halves go up. `roundUp_eq_iff`.
* `toInt_toI64`, `toNat_toU64`: whole numbers as they are cast.
* **`abs_clamp_sub_le`**: the nearest integer, put within bounds, is the nearest one there.
-/

namespace RustyTune

open XRat (roundAway)

/-! ## Halves away from zero -/

/-- The number is rounded to `n` or less. -/
def RoundsDownTo (n : ℤ) (q : ℚ) : Prop := q < n + 1 / 2 ∨ n < 0 ∧ q = n + 1 / 2

/-- The number is rounded to `n` or more. -/
def RoundsUpTo (n : ℤ) (q : ℚ) : Prop := (n : ℚ) - 1 / 2 < q ∨ 0 < n ∧ q = n - 1 / 2

instance (n : ℤ) (q : ℚ) : Decidable (RoundsDownTo n q) := inferInstanceAs (Decidable (_ ∨ _))

instance (n : ℤ) (q : ℚ) : Decidable (RoundsUpTo n q) := inferInstanceAs (Decidable (_ ∨ _))

theorem roundAway_neg (q : ℚ) : roundAway (-q) = -roundAway q := by
  unfold roundAway
  rcases lt_trichotomy q 0 with h | rfl | h
  · rw [if_pos (by linarith), if_neg (by linarith), neg_neg]
  · norm_num
  · rw [if_neg (by linarith), if_pos h.le, neg_neg]

theorem roundsDownTo_neg {n : ℤ} {q : ℚ} : RoundsDownTo (-n) (-q) ↔ RoundsUpTo n q := by
  unfold RoundsDownTo RoundsUpTo
  push_cast
  refine or_congr ⟨fun h => by linarith, fun h => by linarith⟩
    (and_congr (by omega) ⟨fun h => by linarith, fun h => by linarith⟩)

theorem roundAway_le_iff {n : ℤ} {q : ℚ} : roundAway q ≤ n ↔ RoundsDownTo n q := by
  unfold roundAway RoundsDownTo
  split_ifs with h
  · -- a number that is not negative: halves go up
    rw [← Int.lt_add_one_iff, Int.floor_lt]
    push_cast
    constructor
    · intro hlt
      exact .inl (by linarith)
    · rintro (hlt | ⟨hn, rfl⟩)
      · linarith
      · have : (n : ℚ) ≤ -1 := by exact_mod_cast Int.le_sub_one_of_lt hn
        linarith
  · rw [neg_le, Int.le_floor]
    push_cast
    constructor
    · intro hle
      by_cases heq : q = n + 1 / 2
      · refine .inr ⟨?_, heq⟩
        have : (n : ℚ) < 0 := by linarith
        exact_mod_cast this
      · exact .inl (lt_of_le_of_ne (by linarith) heq)
    · rintro (hlt | ⟨-, rfl⟩) <;> linarith

theorem le_roundAway_iff {n : ℤ} {q : ℚ} : n ≤ roundAway q ↔ RoundsUpTo n q := by
  rw [← roundsDownTo_neg, ← roundAway_le_iff, roundAway_neg, neg_le_neg_iff]

theorem RoundsDownTo.mono {n : ℤ} {q q' : ℚ} (h : RoundsDownTo n q') (hle : q ≤ q') :
    RoundsDownTo n q := by
  rcases h with h | ⟨hn, rfl⟩
  · exact .inl (hle.trans_lt h)
  · rcases hle.lt_or_eq with hlt | heq
    · exact .inl hlt
    · exact .inr ⟨hn, heq⟩

theorem roundsDownTo_of_le {n : ℤ} {q : ℚ} (h : q ≤ n) : RoundsDownTo n q := .inl (by linarith)

theorem roundsUpTo_of_le {n : ℤ} {q : ℚ} (h : n ≤ q) : RoundsUpTo n q := .inl (by linarith)

theorem roundsDownTo_min {n : ℤ} {q q' : ℚ} :
    RoundsDownTo n (min q q') ↔ RoundsDownTo n q ∨ RoundsDownTo n q' := by
  constructor
  · intro h
    rcases min_choice q q' with heq | heq <;> rw [heq] at h
    · exact .inl h
    · exact .inr h
  · rintro (h | h)
    · exact h.mono (min_le_left q q')
    · exact h.mono (min_le_right q q')

theorem roundsDownTo_max {n : ℤ} {q q' : ℚ} :
    RoundsDownTo n (max q q') ↔ RoundsDownTo n q ∧ RoundsDownTo n q' := by
  constructor
  · intro h
    exact ⟨h.mono (le_max_left q q'), h.mono (le_max_right q q')⟩
  · rintro ⟨h, h'⟩
    rcases max_choice q q' with heq | heq <;> rwa [heq]

theorem roundsUpTo_max {n : ℤ} {q q' : ℚ} :
    RoundsUpTo n (max q q') ↔ RoundsUpTo n q ∨ RoundsUpTo n q' := by
  rw [← roundsDownTo_neg, ← min_neg_neg, roundsDownTo_min, roundsDownTo_neg, roundsDownTo_neg]

theorem roundsUpTo_min {n : ℤ} {q q' : ℚ} :
    RoundsUpTo n (min q q') ↔ RoundsUpTo n q ∧ RoundsUpTo n q' := by
  rw [← roundsDownTo_neg, ← max_neg_neg, roundsDownTo_max, roundsDownTo_neg, roundsDownTo_neg]

theorem roundAway_eq_iff {n : ℤ} {q : ℚ} :
    roundAway q = n ↔ RoundsDownTo n q ∧ RoundsUpTo n q := by
  rw [le_antisymm_iff, roundAway_le_iff, le_roundAway_iff]

@[simp] theorem roundAway_intCast (n : ℤ) : roundAway n = n :=
  roundAway_eq_iff.mpr ⟨roundsDownTo_of_le le_rfl, roundsUpTo_of_le le_rfl⟩

theorem roundAway_mono {p q : ℚ} (h : p ≤ q) : roundAway p ≤ roundAway q :=
  roundAway_le_iff.mpr ((roundAway_le_iff.mp le_rfl).mono h)

theorem abs_roundAway_sub_le (q : ℚ) : |(roundAway q : ℚ) - q| ≤ 1 / 2 := by
  obtain ⟨hdown, hup⟩ := roundAway_eq_iff.mp (Eq.refl (roundAway q))
  rw [abs_le]
  constructor
  · rcases hdown with h | ⟨-, h⟩ <;> linarith
  · rcases hup with h | ⟨-, h⟩ <;> linarith

/-! ## Casts -/

theorem truncate_intCast (n : ℤ) : XRat.truncate n = n := by
  unfold XRat.truncate
  split_ifs
  · exact Int.floor_intCast n
  · rw [← Int.cast_neg, Int.floor_intCast, neg_neg]

theorem toInt_toI64 (n : ℤ) :
    (F64.toI64 (XRat.fin n)).toInt = max (-2 ^ 63) (min n (2 ^ 63 - 1)) := by
  change (Int64.ofInt (XRat.saturate (-2 ^ 63) (2 ^ 63 - 1) (XRat.truncate n))).toInt = _
  rw [truncate_intCast, XRat.saturate, Int64.toInt_ofInt_of_le (by omega) (by omega)]

theorem toNat_toU64 (n : ℤ) :
    (F64.toU64 (XRat.fin n)).toNat = (max 0 (min n (2 ^ 64 - 1))).toNat := by
  change (UInt64.ofNat (XRat.saturate 0 (2 ^ 64 - 1) (XRat.truncate n)).toNat).toNat = _
  rw [truncate_intCast, XRat.saturate, UInt64.toNat_ofNat', Nat.mod_eq_of_lt (by omega)]

/-! ## Halves up -/

/-- To the nearest integer, halves up. -/
def roundUp (q : ℚ) : ℤ := ⌊q + 1 / 2⌋

theorem roundUp_eq_iff {n : ℤ} {q : ℚ} : roundUp q = n ↔ (n : ℚ) - 1 / 2 ≤ q ∧ q < n + 1 / 2 := by
  rw [roundUp, Int.floor_eq_iff]
  exact and_congr ⟨fun h => by linarith, fun h => by linarith⟩
    ⟨fun h => by linarith, fun h => by linarith⟩

/-! ## Within bounds -/

/-- **The nearest integer, put within bounds, is the nearest one within them.** -/
theorem abs_clamp_sub_le {q : ℚ} {r lo hi : ℤ} (hr : |(r : ℚ) - q| ≤ 1 / 2) {n : ℤ} (hlo : lo ≤ n)
    (hhi : n ≤ hi) : |((max lo (min r hi) : ℤ) : ℚ) - q| ≤ |(n : ℚ) - q| := by
  obtain ⟨h1, h2⟩ := abs_le.mp hr
  rcases lt_trichotomy n (max lo (min r hi)) with hlt | heq | hgt
  · -- `n` is below what is taken, which is `r` at most
    have hle : max lo (min r hi) ≤ r := by omega
    have h3 : (n : ℚ) + 1 ≤ (max lo (min r hi) : ℤ) := by exact_mod_cast hlt
    have h4 : ((max lo (min r hi) : ℤ) : ℚ) ≤ r := by exact_mod_cast hle
    have hn : (n : ℚ) - q ≤ 0 := by linarith
    rw [abs_of_nonpos hn, abs_le]
    constructor <;> linarith
  · rw [heq]
  · have hle : r ≤ max lo (min r hi) := by omega
    have h3 : ((max lo (min r hi) : ℤ) : ℚ) + 1 ≤ n := by exact_mod_cast hgt
    have h4 : (r : ℚ) ≤ (max lo (min r hi) : ℤ) := by exact_mod_cast hle
    have hn : 0 ≤ (n : ℚ) - q := by linarith
    rw [abs_of_nonneg hn, abs_le]
    constructor <;> linarith

end RustyTune
