import RustyTune.TuneModel.Choices
import RustyTune.TuneModel.Traps

/-!
# Which indices a field can hold

* `FieldHolds`: within its word a field holds the numbers of its width; past the word there are only
  copies of the sign.
* `getLsbD_readBack`: what stands in a field after a write.
* **`fieldRaw_fieldSet_iff`**: an index that is put into a field reads back exactly when the field can
  hold it.
-/

namespace RustyTune.TuneModel

open TsIni Exec

/-- How many bits the mask of a field has; in a release build the operations wrap. -/
def maskWidth (lo hi : UInt8) : ℕ := (hi - lo + 1).toNat % 64

/-- Bit `i` of a field in which the bits `k` have been put, in a word with the sign `negative` before:
what lies past the word is its sign. -/
def fieldBit (ty : DataType) (lo : UInt8) (negative : Bool) (k : BitVec 64) (i : ℕ) : Bool :=
  if lo.toNat % 64 + i < 8 * ty.size then k.getLsbD i
  else if lo.toNat % 64 < 8 * ty.size then ty.signed && k.getLsbD (8 * ty.size - 1 - lo.toNat % 64)
  else negative

/-- **The field of a word can hold the index.** A field within its word holds the numbers of its
width. -/
def FieldHolds (F : Type) [F64 F] (m : Machine) (ty : DataType) (lo hi : UInt8) (cur idx : ℤ) : Prop :=
  if lo.toNat ≤ hi.toNat ∧ hi.toNat < 8 * ty.size then 0 ≤ idx ∧ idx < 2 ^ bitWidth lo hi
  else (m.build = .debug → Fits 62 lo hi) ∧ ∃ n : ℕ, idx = n ∧ ∀ i, n.testBit i =
    (decide (i < maskWidth lo hi) && fieldBit ty lo (decide (cur < 0)) (indexBits F idx) i)

/-! ## Words past their bytes -/

/-- The bits of a word: past its bytes they are its sign. -/
theorem getLsbD_decodeRaw_sign {ty : DataType} {b : List UInt8} (hlen : b.length = ty.size) {j : ℕ}
    (hj : 8 * ty.size ≤ j) (h64 : j < 64) : (BitVec.ofInt 64 (decodeRaw ty b)).getLsbD j =
      (ty.signed && (leNat b).testBit (8 * ty.size - 1)) := by
  have hlt : leNat b < 2 ^ (8 * ty.size) := by
    rw [← pow_size, ← hlen]
    exact leNat_lt b
  rw [decodeRaw]
  split_ifs with hs
  · have hword : BitVec.ofInt 64 (Int.bmod (leNat b) (256 ^ ty.size)) =
        (BitVec.ofNat (8 * ty.size) (leNat b)).signExtend 64 := by
      rw [BitVec.signExtend, BitVec.toInt_eq_toNat_bmod, BitVec.toNat_ofNat, Nat.mod_eq_of_lt hlt,
        pow_size]
    rw [hword, BitVec.getLsbD_signExtend, decide_eq_true h64, if_neg (Nat.not_lt.mpr hj), hs,
      Bool.true_and, Bool.true_and, BitVec.msb_eq_getLsbD_last, BitVec.getLsbD_ofNat]
    have hpos : 0 < 8 * ty.size := by cases ty <;> decide
    rw [decide_eq_true (by omega), Bool.true_and]
  · have hnat : (BitVec.ofInt 64 (leNat b : ℤ)).getLsbD j = (leNat b).testBit j := by
      rw [BitVec.ofInt_natCast, BitVec.getLsbD_ofNat, decide_eq_true h64, Bool.true_and]
    rw [hnat, Nat.testBit_lt_two_pow (Nat.lt_of_lt_of_le hlt (Nat.pow_le_pow_right (by decide) hj))]
    simp [hs]

section Fields

variable {m : Machine} {ty : DataType} {lo hi : UInt8} {w v k cur : BitVec 64}

/-- The mask of a field narrower than 64 bits has its width. -/
theorem maskWidth_eq (hle : lo.toNat ≤ hi.toNat) (hnarrow : hi.toNat < lo.toNat + 63) :
    maskWidth lo hi = bitWidth lo hi := by
  have hsub : (hi - lo).toNat = hi.toNat - lo.toNat := UInt8.toNat_sub_of_le hi lo hle
  have hadd : (hi - lo + 1).toNat = bitWidth lo hi := by
    rw [UInt8.toNat_add, hsub, bitWidth]
    exact Nat.mod_eq_of_lt (by change _ + 1 < 256; omega)
  rw [maskWidth, hadd, bitWidth]
  omega

theorem fieldWidth_ok {width : UInt8} (h : fieldWidth m lo hi = .ok width) : width = hi - lo + 1 := by
  rw [fieldWidth, bind_eq_ok] at h
  obtain ⟨d, hd, h⟩ := h
  rw [m.checked_debug h, m.checked_debug hd]

theorem getLsbD_onesU64_wrapped {ones : BitVec 64} (h : onesU64 m lo hi = .ok ones) (i : ℕ) :
    ones.getLsbD i = decide (i < maskWidth lo hi) := by
  obtain ⟨width, hwidth, rfl⟩ := onesU64_ok h
  rw [fieldWidth_ok hwidth, maskWidth, getLsbD_ones (Nat.mod_lt _ (by decide))]

/-- The bits of a word after a write to its bytes. -/
theorem getLsbD_word (ty : DataType) (w : BitVec 64) {j : ℕ} (hj : j < 64) :
    (BitVec.ofInt 64 (decodeRaw ty (rawBytes ty w.toInt))).getLsbD j =
      if j < 8 * ty.size then w.getLsbD j else ty.signed && w.getLsbD (8 * ty.size - 1) := by
  have hpos : 0 < 8 * ty.size := by cases ty <;> decide
  split_ifs with hin
  · rw [getLsbD_decodeRaw ty _ hin, testBit_rawBytes ty w hin]
  · rw [getLsbD_decodeRaw_sign (length_rawBytes ..) (Nat.not_lt.mp hin) hj,
      testBit_rawBytes ty w (by omega)]

/-- **What stands in a field after a write.** -/
theorem getLsbD_readBack (hset : fieldSet m lo hi cur k = .ok w)
    (hget : fieldRaw m lo hi (BitVec.ofInt 64 (decodeRaw ty (rawBytes ty w.toInt))) = .ok v) (i : ℕ) :
    v.getLsbD i = (decide (i < maskWidth lo hi) &&
      fieldBit ty lo (ty.signed && cur.getLsbD (8 * ty.size - 1)) k i) := by
  obtain ⟨mask, hmask, -⟩ := fieldSet_ok hset
  obtain ⟨ones, hones, -⟩ := fieldMask_ok hmask
  obtain ⟨ones', hones', rfl⟩ := fieldRaw_ok hget
  obtain rfl := ones_eq hones hones'
  have hsize := size_bits_le ty
  have hpos : 0 < 8 * ty.size := by cases ty <;> decide
  have hwidth : maskWidth lo hi < 64 := Nat.mod_lt _ (by decide)
  have hmaskBit : ∀ j, mask.getLsbD j = true ↔
      j < 64 ∧ lo.toNat % 64 ≤ j ∧ j - lo.toNat % 64 < maskWidth lo hi := by
    intro j
    rw [getLsbD_fieldMask hmask hones, getLsbD_onesU64_wrapped hones, decide_eq_true_eq]
  rw [BitVec.getLsbD_and, getLsbD_onesU64_wrapped hones, Bool.and_comm]
  by_cases hi' : i < maskWidth lo hi
  · rw [decide_eq_true hi', Bool.true_and, Bool.true_and, fieldBit, BitVec.getLsbD_sshiftRight,
      decide_eq_false (by omega), Bool.not_false, Bool.true_and, BitVec.msb_eq_getLsbD_last,
      getLsbD_word ty w (by decide : 64 - 1 < 64), if_neg (by omega : ¬ 64 - 1 < 8 * ty.size)]
    by_cases hin : lo.toNat % 64 + i < 8 * ty.size
    · rw [if_pos (by omega), if_pos hin, getLsbD_word ty w (by omega), if_pos hin,
        getLsbD_fieldSet hset hmask, if_pos ((hmaskBit _).mpr ⟨by omega, by omega, by omega⟩),
        Nat.add_sub_cancel_left]
    · -- past the word both the bit and the end of the shift are its sign
      have hsign : (if lo.toNat % 64 + i < 64 then
          (BitVec.ofInt 64 (decodeRaw ty (rawBytes ty w.toInt))).getLsbD (lo.toNat % 64 + i)
          else ty.signed && w.getLsbD (8 * ty.size - 1)) =
          (ty.signed && w.getLsbD (8 * ty.size - 1)) := by
        split_ifs with h64
        · rw [getLsbD_word ty w h64, if_neg hin]
        · rfl
      rw [hsign, if_neg hin, getLsbD_fieldSet hset hmask]
      by_cases hlo : lo.toNat % 64 < 8 * ty.size
      · rw [if_pos hlo, if_pos ((hmaskBit _).mpr ⟨by omega, by omega, by omega⟩)]
      · rw [if_neg hlo, if_neg fun h => hlo (by have := ((hmaskBit _).mp h).2.1; omega)]
  · rw [decide_eq_false hi', Bool.false_and, Bool.false_and]

theorem sign_decodeRaw {b : List UInt8} (hlen : b.length = ty.size) :
    (ty.signed && (BitVec.ofInt 64 (decodeRaw ty b)).getLsbD (8 * ty.size - 1)) =
      decide (decodeRaw ty b < 0) := by
  have hpos : 0 < 8 * ty.size := by cases ty <;> decide
  have hlt : leNat b < 2 ^ (8 * ty.size) := by
    rw [← pow_size, ← hlen]
    exact leNat_lt b
  rw [getLsbD_decodeRaw ty b (by omega), decodeRaw]
  by_cases hs : ty.signed = true
  · have hbv : Int.bmod (leNat b) (256 ^ ty.size) = (BitVec.ofNat (8 * ty.size) (leNat b)).toInt := by
      rw [BitVec.toInt_eq_toNat_bmod, BitVec.toNat_ofNat, Nat.mod_eq_of_lt hlt, pow_size]
    rw [if_pos hs, hs, Bool.true_and, hbv, ← BitVec.msb_eq_toInt, BitVec.msb_eq_getLsbD_last,
      BitVec.getLsbD_ofNat, decide_eq_true (by omega), Bool.true_and]
  · rw [if_neg hs, Bool.eq_false_iff.mpr hs, Bool.false_and, eq_comm, decide_eq_false_iff_not]
    omega

theorem fieldRaw_returns (h : m.build = .debug → Fits 62 lo hi) (word : BitVec 64) :
    ∃ v, fieldRaw m lo hi word = .ok v := by
  have hchecked : ∀ {α : Type} (ok : Bool) (a : α), AbortsOnly (· = .overflow) (m.checked ok a) := by
    intro α ok a e he
    unfold Machine.checked at he
    split_ifs at he
    exact (Except.error.inj he).symm
  have hoverflow : AbortsOnly (· = .overflow) (fieldRaw m lo hi word) :=
    (((hchecked _ _).bind fun _ _ => hchecked _ _).bind fun _ _ =>
      (hchecked _ _).bind fun _ _ => hchecked _ _).bind fun _ _ =>
        (hchecked _ _).bind fun _ _ => abortsOnly_ok _
  cases hv : fieldRaw m lo hi word with
  | ok v => exact ⟨v, rfl⟩
  | error e => exact absurd (hoverflow e hv) (fieldRaw_noTrap_iff.mpr h e hv).1

theorem toInt_readBack {f : ℕ → Bool} (h : ∀ i, v.getLsbD i = (decide (i < maskWidth lo hi) && f i))
    {idx : ℤ} : v.toInt = idx ↔
      ∃ n : ℕ, idx = n ∧ ∀ i, n.testBit i = (decide (i < maskWidth lo hi) && f i) := by
  have hwidth : maskWidth lo hi < 64 := Nat.mod_lt _ (by decide)
  have hmsb : v.msb = false := by
    rw [BitVec.msb_eq_getLsbD_last, h, decide_eq_false (by omega), Bool.false_and]
  rw [BitVec.toInt_eq_toNat_of_msb hmsb]
  constructor
  · rintro rfl
    exact ⟨v.toNat, rfl, h⟩
  · rintro ⟨n, rfl, hn⟩
    exact congrArg Nat.cast (Nat.eq_of_testBit_eq fun i => (h i).trans (hn i).symm)

variable {F : Type} [F64 F] {idx : ℤ}

/-- Within its word a field holds the numbers of its width. -/
theorem exists_testBit_iff [WholeF64 F] (hle : lo.toNat ≤ hi.toNat) (hhi : hi.toNat < 8 * ty.size)
    (negative : Bool) : (∃ n : ℕ, idx = n ∧ ∀ i, n.testBit i =
      (decide (i < maskWidth lo hi) && fieldBit ty lo negative (indexBits F idx) i)) ↔
        0 ≤ idx ∧ idx < 2 ^ bitWidth lo hi := by
  have hsize := size_bits_le ty
  have hwidth := maskWidth_eq hle (by omega)
  have hlow : ∀ n : ℕ, (∀ i, n.testBit i =
      (decide (i < maskWidth lo hi) && fieldBit ty lo negative (indexBits F idx) i)) ↔
        n = (indexBits F idx).toNat % 2 ^ bitWidth lo hi := by
    intro n
    have hbit : ∀ i, ((indexBits F idx).toNat % 2 ^ bitWidth lo hi).testBit i =
        (decide (i < maskWidth lo hi) && fieldBit ty lo negative (indexBits F idx) i) := by
      intro i
      rw [Nat.testBit_mod_two_pow, hwidth]
      by_cases hi' : i < bitWidth lo hi
      · rw [fieldBit, if_pos (by rw [bitWidth] at hi'; omega)]
        rfl
      · rw [decide_eq_false hi', Bool.false_and, Bool.false_and]
    exact ⟨fun h => Nat.eq_of_testBit_eq fun i => (h i).trans (hbit i).symm, fun h => h ▸ hbit⟩
  simp only [hlow]
  constructor
  · rintro ⟨n, rfl, hn⟩
    have hlt : n < 2 ^ bitWidth lo hi := hn ▸ Nat.mod_lt _ (Nat.pow_pos (by decide))
    exact ⟨Int.natCast_nonneg n, by exact_mod_cast hlt⟩
  · rintro ⟨hpos, hlt⟩
    obtain ⟨n, rfl⟩ := Int.eq_ofNat_of_zero_le hpos
    have hn : n < 2 ^ bitWidth lo hi := by exact_mod_cast hlt
    have h32 : n < 2 ^ 32 :=
      Nat.lt_of_lt_of_le hn (Nat.pow_le_pow_right (by decide) (by rw [bitWidth]; omega))
    have hcast : (indexBits F (n : ℤ)).toNat = n := WholeF64.toU64_ofInt n h32
    exact ⟨n, rfl, by rw [hcast, Nat.mod_eq_of_lt hn]⟩

/-- **An index that is put into a field reads back exactly when the field can hold it.** -/
theorem fieldRaw_fieldSet_iff [WholeF64 F] {bytes : List UInt8} {offset : ℕ} {raw : ℤ}
    (hraw : readRaw bytes offset ty = some raw)
    (hset : fieldSet m lo hi (BitVec.ofInt 64 raw) (indexBits F idx) = .ok w) :
    (∃ v, fieldRaw m lo hi (BitVec.ofInt 64 (decodeRaw ty (rawBytes ty w.toInt))) = .ok v ∧
      v.toInt = idx) ↔ FieldHolds F m ty lo hi raw idx := by
  obtain ⟨hin, rfl⟩ := readRaw_eq_some.mp hraw
  have hvalue : ∀ {v}, fieldRaw m lo hi (BitVec.ofInt 64 (decodeRaw ty (rawBytes ty w.toInt))) = .ok v →
      (v.toInt = idx ↔ ∃ n : ℕ, idx = n ∧ ∀ i, n.testBit i = (decide (i < maskWidth lo hi) &&
        fieldBit ty lo (decide (decodeRaw ty (slice bytes offset ty.size) < 0)) (indexBits F idx) i)) := by
    intro v hv
    have hbits := getLsbD_readBack hset hv
    rw [sign_decodeRaw (slice_length hin)] at hbits
    exact toInt_readBack hbits
  rw [FieldHolds]
  split_ifs with hword
  · have hfits : Fits 62 lo hi := ⟨hword.1, by have := size_bits_le ty; omega,
      by have := size_bits_le ty; omega⟩
    obtain ⟨v, hv⟩ := fieldRaw_returns (m := m) (fun _ => hfits)
      (BitVec.ofInt 64 (decodeRaw ty (rawBytes ty w.toInt)))
    refine Iff.trans ?_ ((hvalue hv).trans (exists_testBit_iff hword.1 hword.2 _))
    constructor
    · rintro ⟨v', hv', h⟩
      exact Except.ok.inj (hv.symm.trans hv') ▸ h
    · exact fun h => ⟨v, hv, h⟩
  · constructor
    · rintro ⟨v, hv, h⟩
      have hnoTrap : NoTrap (fieldRaw m lo hi
          (BitVec.ofInt 64 (decodeRaw ty (rawBytes ty w.toInt)))) := by
        rw [hv]
        exact abortsOnly_ok v
      exact ⟨fieldRaw_noTrap_iff.mp hnoTrap, (hvalue hv).mp h⟩
    · rintro ⟨hfits, h⟩
      obtain ⟨v, hv⟩ := fieldRaw_returns hfits (BitVec.ofInt 64 (decodeRaw ty (rawBytes ty w.toInt)))
      exact ⟨v, hv, (hvalue hv).mpr h⟩

end Fields

/-- The rationals have all whole numbers. -/
instance : WholeF64 XRat where
  toU64_ofInt n hn := by
    rw [UInt32.size] at hn
    refine (toNat_index ((n : ℤ) : ℚ)).trans ?_
    rw [roundAway_intCast]
    omega

end RustyTune.TuneModel
