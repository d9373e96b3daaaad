import RustyTune.TuneModel.Coding

/-!
# Bit fields

* `getLsbD_decodeRaw`, `testBit_rawBytes`: the bits of a word and the bits of its bytes.
* **`getLsbD_fieldSet`**: a write sets the bits of the mask to those of the index and keeps the
  others; `getLsbD_fieldValue`, `getLsbD_fieldRaw`: a field is read from the same bits.
* **`writeRaw_fieldSet_eq_self`**: a field that reads the same after a write was written over itself.
-/

namespace RustyTune.TuneModel

open TsIni Exec

/-! ## Words and bytes -/

theorem decodeRaw_emod (ty : DataType) (b : List UInt8) :
    decodeRaw ty b % (256 ^ ty.size : ℕ) = (leNat b : ℤ) % (256 ^ ty.size : ℕ) := by
  rw [decodeRaw]
  split_ifs
  · exact Int.bmod_emod ..
  · rfl

theorem pow_size (ty : DataType) : 256 ^ ty.size = 2 ^ (8 * ty.size) := by
  rw [show 256 = 2 ^ 8 by norm_num, ← pow_mul]

theorem size_bits_le (ty : DataType) : 8 * ty.size ≤ 32 := by
  have := ty.size_le
  omega

/-- The bits of a number within 64 bits, below a width. -/
theorem getLsbD_ofInt_of_emod {z : ℤ} {n s j : ℕ} (hs : s ≤ 64) (hj : j < s)
    (h : z % (2 ^ s : ℕ) = (n : ℤ) % (2 ^ s : ℕ)) : (BitVec.ofInt 64 z).getLsbD j = n.testBit j := by
  have hmod : (BitVec.ofInt 64 z).toNat % 2 ^ s = n % 2 ^ s := by
    rw [BitVec.toNat_ofInt]
    have h64 : (0 : ℤ) ≤ z % (2 ^ 64 : ℕ) := Int.emod_nonneg _ (by decide)
    have hdvd : ((2 ^ s : ℕ) : ℤ) ∣ ((2 ^ 64 : ℕ) : ℤ) := by exact_mod_cast pow_dvd_pow 2 hs
    refine Int.ofNat_inj.mp ?_
    rw [Int.natCast_emod, Int.toNat_of_nonneg h64, Int.emod_emod_of_dvd z hdvd, h, Int.natCast_emod]
  have := congrArg (Nat.testBit · j) hmod
  simpa [Nat.testBit_mod_two_pow, hj, BitVec.getLsbD] using this

/-- The low bits of a word are those of its bytes. -/
theorem getLsbD_decodeRaw (ty : DataType) (b : List UInt8) {j : ℕ} (hj : j < 8 * ty.size) :
    (BitVec.ofInt 64 (decodeRaw ty b)).getLsbD j = (leNat b).testBit j := by
  refine getLsbD_ofInt_of_emod (s := 8 * ty.size) ?_ hj ?_
  · have := size_bits_le ty
    omega
  · have := decodeRaw_emod ty b
    rwa [pow_size] at this

theorem testBit_rawBytes (ty : DataType) (w : BitVec 64) {j : ℕ} (hj : j < 8 * ty.size) :
    (leNat (rawBytes ty w.toInt)).testBit j = w.getLsbD j := by
  have hle := size_bits_le ty
  have hmod := leNat_rawBytes ty w.toInt
  rw [pow_size] at hmod
  have := getLsbD_ofInt_of_emod (z := w.toInt) (n := leNat (rawBytes ty w.toInt))
    (s := 8 * ty.size) (by omega) hj (by rw [hmod, Int.emod_emod])
  rw [← this, BitVec.ofInt_toInt]

theorem eq_of_testBit {b b' : List UInt8} (hlen : b.length = b'.length)
    (h : ∀ j < 8 * b.length, (leNat b).testBit j = (leNat b').testBit j) : b = b' := by
  refine leNat_inj hlen (Nat.eq_of_testBit_eq fun j => ?_)
  by_cases hj : j < 8 * b.length
  · exact h j hj
  · have hb := leNat_lt b
    have hb' := leNat_lt b'
    rw [show 256 = 2 ^ 8 by norm_num, ← pow_mul] at hb hb'
    have hle : 2 ^ (8 * b.length) ≤ 2 ^ j := Nat.pow_le_pow_right (by decide) (by omega)
    rw [← hlen] at hb'
    rw [Nat.testBit_lt_two_pow (by omega), Nat.testBit_lt_two_pow (by omega)]

/-! ## Reading and setting a field -/

section Fields

variable {m : Machine} {lo hi : UInt8}

theorem onesU64_ok {ones : BitVec 64} (h : onesU64 m lo hi = .ok ones) :
    ∃ width, fieldWidth m lo hi = .ok width ∧ ones = ((1 : BitVec 64) <<< (width.toNat % 64)) - 1 := by
  simp only [onesU64, bind_eq_ok] at h
  obtain ⟨width, hw, x, hx, h⟩ := h
  exact ⟨width, hw, by rw [m.checked_debug h, m.checked_debug hx]⟩

theorem onesI64_ok {ones : BitVec 64} (h : onesI64 m lo hi = .ok ones) :
    ∃ width, fieldWidth m lo hi = .ok width ∧ ones = ((1 : BitVec 64) <<< (width.toNat % 64)) - 1 := by
  simp only [onesI64, bind_eq_ok] at h
  obtain ⟨width, hw, x, hx, h⟩ := h
  exact ⟨width, hw, by rw [m.checked_debug h, m.checked_debug hx]⟩

/-- Both ways of reading a field go by the same mask. -/
theorem ones_eq {a b : BitVec 64} (ha : onesU64 m lo hi = .ok a) (hb : onesI64 m lo hi = .ok b) :
    a = b := by
  obtain ⟨w, hw, rfl⟩ := onesU64_ok ha
  obtain ⟨w', hw', rfl⟩ := onesI64_ok hb
  rw [Except.ok.inj (hw.symm.trans hw')]

theorem fieldMask_ok {mask : BitVec 64} (h : fieldMask m lo hi = .ok mask) :
    ∃ ones, onesU64 m lo hi = .ok ones ∧ mask = ones <<< (lo.toNat % 64) := by
  rw [fieldMask, bind_eq_ok] at h
  obtain ⟨ones, ho, h⟩ := h
  exact ⟨ones, ho, m.checked_debug h⟩

theorem fieldSet_ok {cur idx w : BitVec 64} (h : fieldSet m lo hi cur idx = .ok w) :
    ∃ mask, fieldMask m lo hi = .ok mask ∧
      w = (cur &&& ~~~mask) ||| ((idx <<< (lo.toNat % 64)) &&& mask) := by
  simp only [fieldSet, bind_eq_ok, pure_eq_ok] at h
  obtain ⟨mask, hm, shifted, hs, rfl⟩ := h
  exact ⟨mask, hm, by rw [m.checked_debug hs]⟩

theorem fieldValue_ok {word v : BitVec 64} (h : fieldValue m lo hi word = .ok v) :
    ∃ ones, onesU64 m lo hi = .ok ones ∧ v = (word >>> (lo.toNat % 64)) &&& ones := by
  simp only [fieldValue, bind_eq_ok, pure_eq_ok] at h
  obtain ⟨ones, ho, shifted, hs, rfl⟩ := h
  exact ⟨ones, ho, by rw [m.checked_debug hs]⟩

theorem fieldRaw_ok {word v : BitVec 64} (h : fieldRaw m lo hi word = .ok v) :
    ∃ ones, onesI64 m lo hi = .ok ones ∧ v = (word.sshiftRight (lo.toNat % 64)) &&& ones := by
  simp only [fieldRaw, bind_eq_ok, pure_eq_ok] at h
  obtain ⟨ones, ho, shifted, hs, rfl⟩ := h
  exact ⟨ones, ho, by rw [m.checked_debug hs]⟩

/-- Whether a field can be read does not depend on the word. -/
theorem fieldRaw_total {word v : BitVec 64} (h : fieldRaw m lo hi word = .ok v)
    (word' : BitVec 64) : ∃ v', fieldRaw m lo hi word' = .ok v' := by
  simp only [fieldRaw, bind_eq_ok, pure_eq_ok] at h ⊢
  obtain ⟨ones, ho, shifted, hs, -⟩ := h
  refine ⟨_, ones, ho, word'.sshiftRight (lo.toNat % 64), ?_, rfl⟩
  simp only [Machine.shrI64, Machine.checked] at hs ⊢
  split_ifs at hs with hno
  rw [if_neg hno]

/-- **A write sets the bits of the mask to those of the index, and keeps the others.** -/
theorem getLsbD_fieldSet {cur idx w mask : BitVec 64} (h : fieldSet m lo hi cur idx = .ok w)
    (hm : fieldMask m lo hi = .ok mask) (j : ℕ) :
    w.getLsbD j = if mask.getLsbD j then idx.getLsbD (j - lo.toNat % 64) else cur.getLsbD j := by
  obtain ⟨mask', hm', rfl⟩ := fieldSet_ok h
  obtain rfl := Except.ok.inj (hm.symm.trans hm')
  obtain ⟨ones, -, rfl⟩ := fieldMask_ok hm
  simp only [BitVec.getLsbD_or, BitVec.getLsbD_and, BitVec.getLsbD_not, BitVec.getLsbD_shiftLeft]
  by_cases hj : j < 64
  · by_cases hl : j < lo.toNat % 64
    · simp [hj, hl]
    · cases ones.getLsbD (j - lo.toNat % 64) <;> simp [hj, hl]
  · simp [hj, BitVec.getLsbD_of_ge cur j (by omega)]

/-- A bit of the mask is a bit of the field, from `lo` on. -/
theorem getLsbD_fieldMask {mask ones : BitVec 64} (hm : fieldMask m lo hi = .ok mask)
    (ho : onesU64 m lo hi = .ok ones) (j : ℕ) : mask.getLsbD j = true ↔
      j < 64 ∧ lo.toNat % 64 ≤ j ∧ ones.getLsbD (j - lo.toNat % 64) = true := by
  obtain ⟨ones', ho', rfl⟩ := fieldMask_ok hm
  obtain rfl := Except.ok.inj (ho.symm.trans ho')
  simp [BitVec.getLsbD_shiftLeft, and_assoc]

theorem getLsbD_fieldValue {word v ones : BitVec 64} (h : fieldValue m lo hi word = .ok v)
    (ho : onesU64 m lo hi = .ok ones) (i : ℕ) :
    v.getLsbD i = (word.getLsbD (lo.toNat % 64 + i) && ones.getLsbD i) := by
  obtain ⟨ones', ho', rfl⟩ := fieldValue_ok h
  obtain rfl := Except.ok.inj (ho.symm.trans ho')
  simp

theorem getLsbD_fieldRaw {word v ones : BitVec 64} (h : fieldRaw m lo hi word = .ok v)
    (ho : onesU64 m lo hi = .ok ones) {i : ℕ} (hi' : lo.toNat % 64 + i < 64) :
    v.getLsbD i = (word.getLsbD (lo.toNat % 64 + i) && ones.getLsbD i) := by
  obtain ⟨ones', ho', rfl⟩ := fieldRaw_ok h
  obtain rfl := ones_eq ho ho'
  simp [BitVec.getLsbD_sshiftRight, hi', show ¬ 64 ≤ i by omega]

/-! ## A field written on a page -/

/-- A raw value that is written into the page reads back as its low bytes. -/
theorem readRaw_writeRaw_low {bytes : List UInt8} {offset : ℕ} {ty : DataType}
    (hlen : offset + ty.size ≤ bytes.length) (raw : ℤ) :
    readRaw (writeRaw bytes offset ty raw).1 offset ty = some (decodeRaw ty (rawBytes ty raw)) := by
  have hsl : slice (overwrite bytes offset (rawBytes ty raw)) offset (rawBytes ty raw).length = _ :=
    slice_overwrite (by rwa [length_rawBytes])
  rw [length_rawBytes] at hsl
  rw [readRaw_of_le (by rwa [length_writeRaw]), writeRaw_of_le hlen, hsl]

/-- **A field that reads the same after a write was written over itself.** -/
theorem writeRaw_fieldSet_eq_self {bytes : List UInt8} {offset : ℕ} {ty : DataType} {cur : ℤ}
    (hcur : readRaw bytes offset ty = some cur) {idx w v : BitVec 64}
    (hset : fieldSet m lo hi (BitVec.ofInt 64 cur) idx = .ok w)
    (hget : fieldRaw m lo hi (BitVec.ofInt 64 cur) = .ok v)
    (hget' : fieldRaw m lo hi (BitVec.ofInt 64 (decodeRaw ty (rawBytes ty w.toInt))) = .ok v) :
    (writeRaw bytes offset ty w.toInt).1 = bytes := by
  obtain ⟨hlen, rfl⟩ := readRaw_eq_some.mp hcur
  obtain ⟨mask, hm, -⟩ := fieldSet_ok hset
  obtain ⟨ones, ho, -⟩ := fieldMask_ok hm
  have hsl := slice_length hlen
  have hsize := size_bits_le ty
  have hbytes : rawBytes ty w.toInt = slice bytes offset ty.size := by
    refine eq_of_testBit (by rw [length_rawBytes, hsl]) fun j hj => ?_
    rw [length_rawBytes] at hj
    rw [testBit_rawBytes ty w hj, getLsbD_fieldSet hset hm]
    split_ifs with hmask
    · -- a bit of the field: both words read the same there
      obtain ⟨h64, hl, hone⟩ := (getLsbD_fieldMask hm ho j).mp hmask
      have hj' : lo.toNat % 64 + (j - lo.toNat % 64) = j := by omega
      have h1 := getLsbD_fieldRaw hget ho (i := j - lo.toNat % 64) (by omega)
      have h2 := getLsbD_fieldRaw hget' ho (i := j - lo.toNat % 64) (by omega)
      rw [hj', hone, Bool.and_true, getLsbD_decodeRaw ty _ hj] at h1 h2
      rw [testBit_rawBytes ty w hj, getLsbD_fieldSet hset hm, if_pos hmask] at h2
      rw [← h2, h1]
    · exact getLsbD_decodeRaw ty _ hj
  rw [writeRaw_of_le hlen, hbytes]
  exact overwrite_slice hlen

end Fields

/-! ## Indices -/

variable {F : Type} [F64 F]

/-- The bits that a write of a choice takes from its index. -/
def indexBits (F : Type) [F64 F] (idx : ℤ) : BitVec 64 :=
  (F64.toU64 (F64.max (F64.round (F64.ofInt idx : F)) 0)).toBitVec

end RustyTune.TuneModel
