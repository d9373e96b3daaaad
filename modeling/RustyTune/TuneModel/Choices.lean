import RustyTune.Lib.Nearest
import RustyTune.TsIni.Telemetry
import RustyTune.TuneModel.Fields

/-!
# Choices

A choice is a field of the bits `lo` to `hi` of a word, here with `lo ≤ hi` within the word.

* `fieldValue_eq`: the number a field holds; **`fieldValue_fieldSet`**: after a write the low bits of
  the index stand in it.
* **`setChoice_saturates_iff`**: when a value that a field cannot hold is put to the nearest end.
  **`choice_masked`**: not always.
* **`channel_eq_constantValue_iff`**: when a channel and a constant of the same field and bytes have the
  same value. **`channel_sign_lost`**: not always.
-/

namespace RustyTune.TuneModel

open TsIni Exec

/-! ## Fields within a word -/

section Fields

variable {m : Machine} {lo hi : UInt8}

/-- How many bits the field has. -/
def bitWidth (lo hi : UInt8) : ℕ := hi.toNat - lo.toNat + 1

theorem fieldWidth_eq (m : Machine) (hle : lo.toNat ≤ hi.toNat) (hhi : hi.toNat < 63) :
    ∃ width, fieldWidth m lo hi = .ok width ∧ width.toNat = bitWidth lo hi := by
  have hsub : (hi - lo).toNat = hi.toNat - lo.toNat := UInt8.toNat_sub_of_le hi lo hle
  have hadd : (hi - lo + 1).toNat = bitWidth lo hi := by
    rw [UInt8.toNat_add, hsub, bitWidth]
    exact Nat.mod_eq_of_lt (by change _ + 1 < 256; omega)
  refine ⟨hi - lo + 1, ?_, hadd⟩
  have hone : (hi - lo).toNat + (1 : UInt8).toNat < 2 ^ 8 := by
    rw [hsub]
    change _ + 1 < 256
    omega
  rw [fieldWidth, Machine.subU8, decide_eq_true hle, m.checked_true, ok_bind, Machine.addU8,
    decide_eq_true hone, m.checked_true]

theorem getLsbD_ones {k : ℕ} (hk : k < 64) (i : ℕ) :
    ((1 : BitVec 64) <<< k - 1).getLsbD i = decide (i < k) := by
  have hlt : 2 ^ k < 2 ^ 64 := Nat.pow_lt_pow_right (by decide) hk
  have hpos : 0 < 2 ^ k := Nat.pow_pos (by decide)
  have hshift : ((1 : BitVec 64) <<< k).toNat = 2 ^ k := by
    rw [BitVec.toNat_shiftLeft, Nat.shiftLeft_eq, show (1 : BitVec 64).toNat = 1 from rfl, Nat.one_mul,
      Nat.mod_eq_of_lt hlt]
  have hones : ((1 : BitVec 64) <<< k - 1).toNat = 2 ^ k - 1 := by
    rw [BitVec.toNat_sub_of_le, hshift]
    · rfl
    · rw [BitVec.le_def, hshift]
      exact hpos
  rw [BitVec.getLsbD, hones, Nat.testBit_two_pow_sub_one]

/-- The mask of a field has as many bits as the field. -/
theorem getLsbD_onesU64 {ones : BitVec 64} (hle : lo.toNat ≤ hi.toNat) (hhi : hi.toNat < 63)
    (h : onesU64 m lo hi = .ok ones) (i : ℕ) : ones.getLsbD i = decide (i < bitWidth lo hi) := by
  obtain ⟨width, hwidth, hw⟩ := fieldWidth_eq m hle hhi
  obtain ⟨width', hwidth', rfl⟩ := onesU64_ok h
  have hlt : bitWidth lo hi < 64 := by
    rw [bitWidth]
    omega
  rw [← Except.ok.inj (hwidth.symm.trans hwidth'), hw, Nat.mod_eq_of_lt hlt, getLsbD_ones hlt]

theorem onesU64_total (m : Machine) (hle : lo.toNat ≤ hi.toNat) (hhi : hi.toNat < 63) :
    ∃ ones, onesU64 m lo hi = .ok ones := by
  obtain ⟨width, hwidth, hw⟩ := fieldWidth_eq m hle hhi
  have hlt : width.toNat < 64 := by
    rw [hw, bitWidth]
    omega
  have hne : (1 : BitVec 64) <<< (width.toNat % 64) ≠ 0 := by
    intro h
    have hbit := congrArg (fun w : BitVec 64 => w.getLsbD (width.toNat % 64)) h
    simp [Nat.mod_lt] at hbit
  refine ⟨(1 : BitVec 64) <<< (width.toNat % 64) - 1, ?_⟩
  rw [onesU64, hwidth, ok_bind, Machine.shlU64, decide_eq_true hlt, m.checked_true, ok_bind,
    Machine.predU64, decide_eq_true hne, m.checked_true]

theorem fieldValue_total (m : Machine) (hle : lo.toNat ≤ hi.toNat) (hhi : hi.toNat < 63)
    (word : BitVec 64) : ∃ v, fieldValue m lo hi word = .ok v := by
  obtain ⟨ones, hones⟩ := onesU64_total m hle hhi
  refine ⟨(word >>> (lo.toNat % 64)) &&& ones, ?_⟩
  rw [fieldValue, hones, ok_bind, Machine.shrU64, decide_eq_true (by omega), m.checked_true]
  rfl

theorem fieldSet_total (m : Machine) (hle : lo.toNat ≤ hi.toNat) (hhi : hi.toNat < 63)
    (word index : BitVec 64) : ∃ w, fieldSet m lo hi word index = .ok w := by
  obtain ⟨ones, hones⟩ := onesU64_total m hle hhi
  have hlo : lo.toNat < 64 := by omega
  let mask := ones <<< (lo.toNat % 64)
  refine ⟨(word &&& ~~~mask) ||| ((index <<< (lo.toNat % 64)) &&& mask), ?_⟩
  rw [fieldSet, fieldMask, hones, ok_bind, Machine.shlU64, decide_eq_true hlo, m.checked_true, ok_bind,
    Machine.shlU64, decide_eq_true hlo, m.checked_true]
  rfl

/-- **The number that a field holds.** -/
theorem fieldValue_toNat {word v : BitVec 64} (hle : lo.toNat ≤ hi.toNat) (hhi : hi.toNat < 63)
    (h : fieldValue m lo hi word = .ok v) :
    v.toNat = word.toNat / 2 ^ lo.toNat % 2 ^ bitWidth lo hi := by
  obtain ⟨ones, hones, -⟩ := fieldValue_ok h
  refine Nat.eq_of_testBit_eq fun i => ?_
  have hbit := getLsbD_fieldValue h hones i
  rw [getLsbD_onesU64 hle hhi hones, Nat.mod_eq_of_lt (by omega : lo.toNat < 64)] at hbit
  rw [Nat.testBit_mod_two_pow, ← Nat.shiftRight_eq_div_pow, Nat.testBit_shiftRight]
  change v.getLsbD i = _
  rw [hbit, Bool.and_comm]
  rfl

/-- **After a write the low bits of the index stand in the field.** -/
theorem fieldValue_fieldSet {ty : DataType} {cur index w v : BitVec 64} (hle : lo.toNat ≤ hi.toNat)
    (hhi : hi.toNat < 8 * ty.size) (hset : fieldSet m lo hi cur index = .ok w)
    (hget : fieldValue m lo hi (BitVec.ofInt 64 (decodeRaw ty (rawBytes ty w.toInt))) = .ok v) :
    v.toNat = index.toNat % 2 ^ bitWidth lo hi := by
  have hsize := size_bits_le ty
  have hhi' : hi.toNat < 63 := by omega
  obtain ⟨ones, hones, -⟩ := fieldValue_ok hget
  obtain ⟨mask, hmask, -⟩ := fieldSet_ok hset
  have hlo : lo.toNat % 64 = lo.toNat := Nat.mod_eq_of_lt (by omega)
  refine Nat.eq_of_testBit_eq fun i => ?_
  rw [Nat.testBit_mod_two_pow]
  change v.getLsbD i = _
  rw [getLsbD_fieldValue hget hones, getLsbD_onesU64 hle hhi' hones, hlo]
  by_cases hi' : i < bitWidth lo hi
  · have hin : lo.toNat + i < 8 * ty.size := by
      rw [bitWidth] at hi'
      omega
    have hbit : mask.getLsbD (lo.toNat + i) = true := by
      rw [getLsbD_fieldMask hmask hones, hlo, Nat.add_sub_cancel_left,
        getLsbD_onesU64 hle hhi' hones]
      exact ⟨by omega, Nat.le_add_right .., decide_eq_true hi'⟩
    rw [getLsbD_decodeRaw ty _ hin, testBit_rawBytes ty w hin, getLsbD_fieldSet hset hmask, if_pos hbit,
      hlo, Nat.add_sub_cancel_left, decide_eq_true hi', Bool.and_true, Bool.true_and]
    rfl
  · rw [decide_eq_false hi', Bool.and_false, Bool.false_and]

end Fields

/-! ## Writing a choice -/

open XRat

theorem toNat_index (user : ℚ) :
    (F64.toU64 (F64.max (F64.round (XRat.fin user)) 0)).toBitVec.toNat =
      (max 0 (min (roundAway user) (2 ^ 64 - 1))).toNat := by
  have hmax : F64.max (F64.round (XRat.fin user)) 0 = .fin ((max (roundAway user) 0 : ℤ) : ℚ) := by
    change (if XRat.lt (.fin (roundAway user)) (.fin 0) then XRat.fin 0 else .fin (roundAway user)) = _
    by_cases h : roundAway user < 0
    · have hq : ((roundAway user : ℤ) : ℚ) < 0 := by exact_mod_cast h
      simp [XRat.lt, hq, max_eq_right h.le]
    · have hq : ¬ ((roundAway user : ℤ) : ℚ) < 0 := by exact_mod_cast h
      simp [XRat.lt, hq, max_eq_left (not_lt.mp h)]
  rw [hmax, UInt64.toNat_toBitVec, toNat_toU64]
  omega

theorem emod_eq_pred_iff {r n : ℤ} (hn : 0 < n) : r % n = n - 1 ↔ n ∣ r + 1 := by
  constructor
  · intro h
    have := Int.mul_ediv_add_emod r n
    exact ⟨r / n + 1, by rw [mul_add]; omega⟩
  · rintro ⟨k, hk⟩
    have hr : r = n - 1 + n * (k - 1) := by
      rw [mul_sub]
      omega
    rw [hr, Int.add_mul_emod_self_left]
    exact Int.emod_eq_of_lt (by omega) (by omega)

/-- What is left of a value in a field, and what would be left of it at the nearest end. -/
theorem index_emod_eq_iff {r : ℤ} {w : ℕ} (hw : w ≤ 64) :
    (((max 0 (min r (2 ^ 64 - 1))).toNat % 2 ^ w : ℕ) : ℤ) = max 0 (min r (2 ^ w - 1)) ↔
      r < 2 ^ w ∨ 2 ^ w ∣ r + 1 ∨ 2 ^ 64 ≤ r := by
  have hpos : (0 : ℤ) < 2 ^ w := by positivity
  have hle : (2 : ℤ) ^ w ≤ 2 ^ 64 := pow_le_pow_right₀ (by norm_num) hw
  have hcast : (((max 0 (min r (2 ^ 64 - 1))).toNat % 2 ^ w : ℕ) : ℤ) =
      max 0 (min r (2 ^ 64 - 1)) % 2 ^ w := by
    push_cast
    rw [Int.toNat_of_nonneg (le_max_left ..)]
  rw [hcast]
  rcases lt_or_ge r (2 ^ w) with hlt | hge
  · -- the field can hold the value, or it is negative
    refine iff_of_true ?_ (.inl hlt)
    rw [min_eq_left (by omega), min_eq_left (by omega)]
    exact Int.emod_eq_of_lt (le_max_left ..) (max_lt hpos hlt)
  · rw [min_eq_right (by omega : (2 : ℤ) ^ w - 1 ≤ r), max_eq_right (by omega : (0 : ℤ) ≤ 2 ^ w - 1)]
    rcases lt_or_ge r (2 ^ 64) with hlt | hbig
    · rw [min_eq_left (by omega), max_eq_right (by omega), emod_eq_pred_iff hpos]
      constructor
      · exact fun h => .inr (.inl h)
      · rintro (h | h | h)
        · omega
        · exact h
        · omega
    · -- all bits of the cast are set
      refine iff_of_true ?_ (.inr (.inr hbig))
      rw [min_eq_right (by omega), max_eq_right (by norm_num), emod_eq_pred_iff hpos,
        sub_add_cancel]
      exact pow_dvd_pow 2 hw

namespace Tune

section Generic

variable {F : Type} [F64 F] {m : Machine} {t : Tune F} {name : String} {c : ConstantDef F}
  {lo hi : UInt8} {p : PageState} {offset : ℕ}

theorem constantValue_bits (hc : t.constant name = some c) (hcls : c.cls = .bits)
    (hshape : c.shape = some (.bits lo hi)) (hl : t.located c = some (p, offset)) :
    t.constantValue m name = match readRaw p.data offset c.ty with
      | none => return none
      | some raw => return some (.num (F64.ofInt
          (← fieldValue m lo hi (BitVec.ofInt 64 raw)).toNat)) := by
  simp only [constantValue, constantValueWith, hc, hl, hcls, hshape]
  cases readRaw p.data offset c.ty <;> rfl

theorem setBits_clamp (hc : t.constant name = some c) (hcls : c.cls = .bits) (user : F) :
    t.setConstantImpl m name user true = t.setConstantUnclamped m name user := by
  simp only [setConstantUnclamped, setConstantImpl, hc, orError, pure_bind, hcls]
  cases c.shape with
  | none => rfl
  | some shape => cases shape <;> rfl

end Generic

variable {m : Machine} {t t' : Tune XRat} {name : String} {c : ConstantDef XRat} {lo hi : UInt8}
  {pageIdx offset : ℕ} {p : PageState}

section Write

variable (hc : t.constant name = some c) (hcls : c.cls = .bits)
  (hshape : c.shape = some (.bits lo hi)) (hloc : location c = some (pageIdx, offset))
  (hp : t.page pageIdx = some p) (hin : offset + c.ty.size ≤ p.data.length)
  (hle : lo.toNat ≤ hi.toNat) (hhi : hi.toNat < 8 * c.ty.size)
include hc hcls hshape hloc hp hin hle hhi

/-- **Of the number that a value is cast to, the field holds the low bits.** -/
theorem setChoice_value (user : ℚ) : ∃ t', (t.setConstant m name (.fin user)).run = .ok (.ok t') ∧
    t'.constantValue m name = .ok (some (.num (F64.ofInt
      (((max 0 (min (roundAway user) (2 ^ 64 - 1))).toNat % 2 ^ bitWidth lo hi : ℕ) : ℤ)))) := by
  have hsize := size_bits_le c.ty
  have hhi' : hi.toNat < 63 := by omega
  have hcur := readRaw_of_le hin
  obtain ⟨w, hset⟩ := fieldSet_total m hle hhi'
    (BitVec.ofInt 64 (decodeRaw c.ty (slice p.data offset c.ty.size)))
    (F64.toU64 (F64.max (F64.round (XRat.fin user)) 0)).toBitVec
  refine ⟨t.writePage pageIdx offset c.ty w.toInt, ?_, ?_⟩
  · rw [setConstant, setBits_clamp hc hcls, setBits_ok hc hcls]
    exact ⟨lo, hi, pageIdx, offset, p, _, w, hshape, hloc, hp, hcur, hset, rfl⟩
  · obtain ⟨v, hget⟩ := fieldValue_total m hle hhi'
      (BitVec.ofInt 64 (decodeRaw c.ty (rawBytes c.ty w.toInt)))
    have hv := fieldValue_fieldSet hle hhi hset hget
    rw [toNat_index] at hv
    rw [constantValue_bits (t := t.writePage _ _ _ _) hc hcls hshape (located_writePage hloc hp),
      readRaw_writeRaw_low hin _]
    dsimp only
    rw [hget, ← hv]
    rfl

/-- **A value is stored as the nearest one that the field can hold exactly when it is no more than the
last one, or its low bits are all set.** -/
theorem setChoice_saturates_iff (user : ℚ) :
    ∃ t', (t.setConstant m name (.fin user)).run = .ok (.ok t') ∧
      (t'.constantValue m name = .ok (some (.num (.fin
        (max 0 (min (roundAway user) (2 ^ bitWidth lo hi - 1)) : ℤ)))) ↔
      roundAway user < 2 ^ bitWidth lo hi ∨ 2 ^ bitWidth lo hi ∣ roundAway user + 1 ∨
        2 ^ 64 ≤ roundAway user) := by
  have hsize := size_bits_le c.ty
  obtain ⟨t', hset, hval⟩ := setChoice_value hc hcls hshape hloc hp hin hle hhi user
  refine ⟨t', hset, ?_⟩
  rw [hval, ← index_emod_eq_iff (by rw [bitWidth]; omega)]
  constructor
  · intro h
    have := XRat.fin.inj (Value.num.inj (Option.some.inj (Except.ok.inj h)))
    exact_mod_cast this
  · intro h
    rw [h]
    rfl

end Write

end Tune

/-- A choice in the bits 2 and 3 of the first byte. -/
def fanMode : ConstantDef XRat where
  name := "fanMode"
  cls := .bits
  ty := .u08
  page := some 1
  offset := some 0
  shape := some (.bits 2 3)
  units := none
  scale := .num 1
  translate := .num 0
  lo := none
  hi := none
  digits := none
  labels := ["Off", "On", "PWM"]
  stringLen := none
  noMsqSave := false

def fan : Tune XRat :=
  Tune.new { header := { pageSizes := [1] }, constants := IndexMap.ofList [("fanMode", fanMode)] }

theorem setChoice_saturates_iff_fan :
    ∃ t', (fan.setConstant ⟨.debug, 8⟩ "fanMode" (.fin 2)).run = .ok (.ok t') ∧
      (t'.constantValue ⟨.debug, 8⟩ "fanMode" = .ok (some (.num (.fin
        (max 0 (min (roundAway 2) (2 ^ bitWidth 2 3 - 1)) : ℤ)))) ↔
      roundAway 2 < 2 ^ bitWidth 2 3 ∨ 2 ^ bitWidth 2 3 ∣ roundAway 2 + 1 ∨ 2 ^ 64 ≤ roundAway 2) :=
  Tune.setChoice_saturates_iff (t := fan) (c := fanMode) (p := ⟨[0], [0], [0]⟩) rfl rfl rfl rfl rfl
    (by decide) (by decide) (by decide) 2

/-- **A choice that there is not is stored as another one.** The fifth is stored as the first. -/
theorem choice_masked : ¬ ∀ (m : Machine) (t t' : Tune XRat) (name : String) (c : ConstantDef XRat)
    (lo hi : UInt8) (pageIdx offset : ℕ) (p : PageState) (user : ℚ),
    t.constant name = some c → c.cls = .bits → c.shape = some (.bits lo hi) →
    Tune.location c = some (pageIdx, offset) → t.page pageIdx = some p →
    offset + c.ty.size ≤ p.data.length → lo.toNat ≤ hi.toNat → hi.toNat < 8 * c.ty.size →
    (t.setConstant m name (.fin user)).run = .ok (.ok t') →
    t'.constantValue m name = .ok (some (.num (.fin
      (max 0 (min (roundAway user) (2 ^ bitWidth lo hi - 1)) : ℤ)))) := by
  intro h
  obtain ⟨t', hset, hval⟩ := Tune.setChoice_value (m := ⟨.debug, 8⟩) (t := fan) (c := fanMode)
    (p := ⟨[0], [0], [0]⟩) (show fan.constant "fanMode" = some fanMode from rfl) rfl rfl rfl rfl
    (by decide) (by decide) (by decide) 5
  have heq := h _ fan t' "fanMode" fanMode 2 3 0 0 ⟨[0], [0], [0]⟩ 5 rfl rfl rfl rfl rfl (by decide)
    (by decide) (by decide) hset
  rw [hval] at heq
  have hcast := Int.cast_injective (XRat.fin.inj (Value.num.inj (Option.some.inj (Except.ok.inj heq))))
  exact absurd hcast (by decide +kernel)

/-! ## Channels -/

section Channels

variable {m : Machine} {ty : DataType} {lo hi : UInt8} {bytes : List UInt8}

theorem bitsOf_eq (m : Machine) (lo hi : UInt8) (raw : BitVec 64) :
    Telemetry.bitsOf m lo hi raw = fieldValue m lo hi raw := by
  simp only [Telemetry.bitsOf, fieldValue, onesU64, fieldWidth, bind_assoc]

theorem toNat_telemetry (hlen : bytes.length = ty.size) :
    (F64.toU64 (F64.ofInt (if ty.signed then (BitVec.ofNat (8 * ty.size) (leNat bytes)).toInt
      else leNat bytes) : XRat)).toBitVec.toNat =
      if ty.signed = true ∧ 2 ^ (8 * ty.size - 1) ≤ leNat bytes then 0 else leNat bytes := by
  have hlt := leNat_lt_size hlen
  change (F64.toU64 (XRat.fin ((_ : ℤ) : ℚ))).toNat = _
  rw [toNat_toU64]
  by_cases hsigned : ty.signed = true
  · rw [if_pos hsigned, BitVec.toInt_eq_toNat_bmod, BitVec.toNat_ofNat]
    cases ty <;> simp only [DataType.signed, DataType.size, true_and, Bool.false_eq_true,
      Int.bmod] at hsigned hlt ⊢ <;> norm_num at hlt ⊢ <;> split_ifs <;> omega
  · have hle : 256 ^ ty.size ≤ 2 ^ 32 := by cases ty <;> decide
    rw [if_neg hsigned, if_neg fun h => hsigned h.1]
    omega

theorem fieldValue_decodeRaw {v : BitVec 64} (hle : lo.toNat ≤ hi.toNat) (hhi : hi.toNat < 8 * ty.size)
    (h : fieldValue m lo hi (BitVec.ofInt 64 (decodeRaw ty bytes)) = .ok v) :
    v.toNat = leNat bytes / 2 ^ lo.toNat % 2 ^ bitWidth lo hi := by
  have hsize := size_bits_le ty
  have hhi' : hi.toNat < 63 := by omega
  obtain ⟨ones, hones, -⟩ := fieldValue_ok h
  refine Nat.eq_of_testBit_eq fun i => ?_
  have hbit := getLsbD_fieldValue h hones i
  rw [getLsbD_onesU64 hle hhi' hones, Nat.mod_eq_of_lt (by omega : lo.toNat < 64)] at hbit
  rw [Nat.testBit_mod_two_pow, ← Nat.shiftRight_eq_div_pow, Nat.testBit_shiftRight]
  change v.getLsbD i = _
  rw [hbit, Bool.and_comm]
  by_cases hi' : i < bitWidth lo hi
  · rw [getLsbD_decodeRaw]
    rw [bitWidth] at hi'
    omega
  · rw [decide_eq_false hi', Bool.false_and, Bool.false_and]

variable {t : Tune XRat} {tel : Telemetry XRat} {name channel : String} {c : ConstantDef XRat}
  {offset : UInt32} {base : ℕ} {p : PageState}

theorem channel_bits {ty : DataType}
    (hchannel : tel.df.outputChannels.get? channel = some (.bits ty offset lo hi)) :
    tel.channel m channel = match (Telemetry.readRaw tel.block offset.toNat ty : Option XRat) with
      | none => return none
      | some raw => return some (.num (F64.ofInt
          (← Telemetry.bitsOf m lo hi (F64.toU64 raw).toBitVec).toNat)) := by
  simp only [Telemetry.channel, Telemetry.channelWith, hchannel]
  cases (Telemetry.readRaw tel.block offset.toNat ty : Option XRat) <;> rfl

/-- **A channel and a constant of the same field and bytes have the same value exactly when the word is
not negative, or the field is zero.** The constant's value is the number in the bits; where the bytes
end before the word, both have none. -/
theorem channel_eq_constantValue_iff
    (hchannel : tel.df.outputChannels.get? channel = some (.bits c.ty offset lo hi))
    (hc : t.constant name = some c) (hcls : c.cls = .bits) (hshape : c.shape = some (.bits lo hi))
    (hl : t.located c = some (p, base))
    (hbytes : slice? p.data base c.ty.size = slice? tel.block offset.toNat c.ty.size)
    (hle : lo.toNat ≤ hi.toNat) (hhi : hi.toNat < 8 * c.ty.size) :
    (tel.channel m channel = .ok none ↔ tel.block.length < offset.toNat + c.ty.size) ∧
    (t.constantValue m name = .ok none ↔ tel.block.length < offset.toNat + c.ty.size) ∧
    ∀ word, slice? tel.block offset.toNat c.ty.size = some word →
      let n := leNat word / 2 ^ lo.toNat % 2 ^ bitWidth lo hi
      t.constantValue m name = .ok (some (.num (.fin n))) ∧
      (tel.channel m channel = .ok (some (.num (.fin n))) ↔
        c.ty.signed = false ∨ leNat word < 2 ^ (8 * c.ty.size - 1) ∨ n = 0) := by
  have hsize := size_bits_le c.ty
  have hhi' : hi.toNat < 63 := by omega
  rw [channel_bits hchannel, Tune.constantValue_bits hc hcls hshape hl, Telemetry.readRaw, readRaw, hbytes,
    ← slice?_eq_none]
  cases hword : slice? tel.block offset.toNat c.ty.size with
  | none => exact ⟨iff_of_true rfl rfl, iff_of_true rfl rfl, fun word h => by cases h⟩
  | some word =>
    have hlen : word.length = c.ty.size := by
      obtain ⟨hin, rfl⟩ := slice?_eq_some.mp hword
      exact slice_length hin
    obtain ⟨v, hv⟩ := fieldValue_total m hle hhi' (BitVec.ofInt 64 (decodeRaw c.ty word))
    obtain ⟨v', hv'⟩ := fieldValue_total m hle hhi' (F64.toU64 (F64.ofInt
      (if c.ty.signed then (BitVec.ofNat (8 * c.ty.size) (leNat word)).toInt
        else leNat word) : XRat)).toBitVec
    have hn := fieldValue_decodeRaw hle hhi hv
    have hn' := fieldValue_toNat hle hhi' hv'
    rw [toNat_telemetry hlen] at hn'
    simp only [Option.map_some, bitsOf_eq, hv, hv', ok_bind]
    refine ⟨iff_of_false (fun h => by cases Except.ok.inj h) (fun h => by cases h),
      iff_of_false (fun h => by cases Except.ok.inj h) (fun h => by cases h), ?_⟩
    intro word' hword'
    obtain rfl := Option.some.inj hword'
    have hmod : 0 / 2 ^ lo.toNat % 2 ^ bitWidth lo hi = 0 := by simp
    refine ⟨by rw [hn]; rfl, ?_⟩
    have hiff : (.ok (some (.num (F64.ofInt (v'.toNat : ℤ)))) : Exec (Option (Value XRat))) =
        .ok (some (.num (.fin ((leNat word / 2 ^ lo.toNat % 2 ^ bitWidth lo hi : ℕ) : ℚ)))) ↔
        v'.toNat = leNat word / 2 ^ lo.toNat % 2 ^ bitWidth lo hi := by
      constructor
      · intro h
        have hq : ((v'.toNat : ℤ) : ℚ) =
            ((leNat word / 2 ^ lo.toNat % 2 ^ bitWidth lo hi : ℕ) : ℤ) :=
          XRat.fin.inj (Value.num.inj (Option.some.inj (Except.ok.inj h)))
        exact Int.ofNat_inj.mp (Int.cast_injective hq)
      · intro h
        rw [h]
        rfl
    refine hiff.trans ?_
    rw [hn']
    split_ifs with hneg
    · rw [hmod]
      constructor
      · exact fun h => .inr (.inr h.symm)
      · rintro (h | h | h)
        · exact absurd h (by simp [hneg.1])
        · exact absurd hneg.2 (Nat.not_le.mpr h)
        · exact h.symm
    · refine iff_of_true rfl ?_
      by_cases hs : c.ty.signed = true
      · exact .inr (.inl (Nat.not_le.mp fun h => hneg ⟨hs, h⟩))
      · exact .inl (Bool.eq_false_of_not_eq_true hs)

end Channels

/-- The bits 2 and 3 of a signed byte, as a constant and as a channel. -/
def signedBits : IniDef XRat where
  header := { pageSizes := [1] }
  constants := IndexMap.ofList [("fanMode", { fanMode with ty := .s08 })]
  outputChannels := IndexMap.ofList [("fan", .bits .s08 0 2 3)]

def onPage (byte : UInt8) : Tune XRat := (Tune.new signedBits).loadPage 0 [byte]

theorem channel_eq_constantValue_iff_positive :
    let n := leNat [4] / 2 ^ (2 : UInt8).toNat % 2 ^ bitWidth 2 3
    (onPage 4).constantValue ⟨.debug, 8⟩ "fanMode" = .ok (some (.num (.fin n))) ∧
      ((Telemetry.new signedBits [4]).channel ⟨.debug, 8⟩ "fan" = .ok (some (.num (.fin n))) ↔
        DataType.s08.signed = false ∨ leNat [4] < 2 ^ (8 * DataType.s08.size - 1) ∨ n = 0) :=
  (channel_eq_constantValue_iff (c := { fanMode with ty := .s08 }) (p := ⟨[4], [4], [4]⟩) rfl
    (show (onPage 4).constant "fanMode" = some { fanMode with ty := .s08 } from rfl) rfl rfl rfl rfl
    (by decide) (by decide)).2.2 [4] rfl

/-- **A channel of a negative word has no bits set.** The constant has. -/
theorem channel_sign_lost : ¬ ∀ (m : Machine) (t : Tune XRat) (tel : Telemetry XRat)
    (name channel : String) (c : ConstantDef XRat) (lo hi : UInt8) (offset : UInt32) (base : ℕ)
    (p : PageState), tel.df.outputChannels.get? channel = some (.bits c.ty offset lo hi) →
    t.constant name = some c → c.cls = .bits → c.shape = some (.bits lo hi) →
    t.located c = some (p, base) →
    slice? p.data base c.ty.size = slice? tel.block offset.toNat c.ty.size →
    lo.toNat ≤ hi.toNat → hi.toNat < 8 * c.ty.size →
    tel.channel m channel = t.constantValue m name := by
  intro h
  have heq := h ⟨.debug, 8⟩ (onPage 132) (Telemetry.new signedBits [132]) "fanMode" "fan"
    { fanMode with ty := .s08 } 2 3 0 0 ⟨[132], [132], [132]⟩ rfl rfl rfl rfl rfl rfl (by decide)
    (by decide)
  exact absurd heq (by decide +kernel)

end RustyTune.TuneModel
