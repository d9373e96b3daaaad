import Mathlib.Data.Int.ModEq
import RustyTune.Lib.Endian
import RustyTune.Lib.Slice
import RustyTune.TsIni.Model

/-!
# Raw values in a page

A raw value is a little-endian number of one, two or four bytes, with or without a sign.

* `readRaw`, `writeRaw`: a raw value out of a page and into it; `typeRange`: what a type can hold.
* **`decodeRaw_rawBytes`**, **`rawBytes_decodeRaw`**: on the values a type can hold, the bytes and
  the value determine each other.
* **`writeRaw_eq_self_iff`**: a write changes the page unless the value stands there already.
* `writeRaws`: values one after the other; **`readRaw_writeRaws`**, **`writeRaws_eq_self_iff`**: those
  that lie in the page are written, the others are not.
-/

namespace RustyTune.TuneModel

open TsIni

/-- The smallest and the largest number of a type. -/
def typeRange : DataType → ℤ × ℤ
  | .u08 | .ascii => (0, 255)
  | .s08 => (-128, 127)
  | .u16 => (0, 65535)
  | .s16 => (-32768, 32767)
  | .u32 => (0, 4294967295)
  | .s32 => (-2147483648, 2147483647)

/-- A number that the type can hold. -/
def InRange (ty : DataType) (raw : ℤ) : Prop := (typeRange ty).1 ≤ raw ∧ raw ≤ (typeRange ty).2

/-- `raw.clamp(lo, hi)` with the range of the type. -/
def clampRaw (ty : DataType) (raw : ℤ) : ℤ := max (typeRange ty).1 (min raw (typeRange ty).2)

/-- The number that the bytes of a value stand for. -/
def decodeRaw (ty : DataType) (b : List UInt8) : ℤ :=
  if ty.signed then (leNat b : ℤ).bmod (256 ^ ty.size) else (leNat b : ℤ)

/-- The low bytes of a number, as many as the type has. -/
def rawBytes (ty : DataType) (raw : ℤ) : List UInt8 :=
  leBytes ty.size (raw % (256 ^ ty.size : ℕ)).toNat

def readRaw (bytes : List UInt8) (offset : ℕ) (ty : DataType) : Option ℤ :=
  (slice? bytes offset ty.size).map (decodeRaw ty)

/-- The page with the value written, and whether it was: there is no write past the end. -/
def writeRaw (bytes : List UInt8) (offset : ℕ) (ty : DataType) (raw : ℤ) : List UInt8 × Bool :=
  if offset + ty.size ≤ bytes.length then (overwrite bytes offset (rawBytes ty raw), true)
  else (bytes, false)

/-! ## Bytes and values -/

theorem clampRaw_inRange (ty : DataType) (raw : ℤ) : InRange ty (clampRaw ty raw) := by
  have : (typeRange ty).1 ≤ (typeRange ty).2 := by cases ty <;> decide
  unfold InRange clampRaw
  omega

theorem clampRaw_of_inRange {ty : DataType} {raw : ℤ} (h : InRange ty raw) :
    clampRaw ty raw = raw := by
  obtain ⟨h1, h2⟩ := h
  unfold clampRaw
  omega

@[simp] theorem length_rawBytes (ty : DataType) (raw : ℤ) : (rawBytes ty raw).length = ty.size :=
  length_leBytes _ _

theorem leNat_rawBytes (ty : DataType) (raw : ℤ) :
    (leNat (rawBytes ty raw) : ℤ) = raw % (256 ^ ty.size : ℕ) := by
  have hpos : (0 : ℤ) < (256 ^ ty.size : ℕ) := by exact_mod_cast Nat.pow_pos (by decide)
  have h0 := Int.emod_nonneg raw hpos.ne'
  have hlt := Int.emod_lt_of_pos raw hpos
  rw [rawBytes, leNat_leBytes, Nat.mod_eq_of_lt (by omega), Int.toNat_of_nonneg h0]

theorem leNat_lt_size {ty : DataType} {b : List UInt8} (hb : b.length = ty.size) :
    leNat b < 256 ^ ty.size := hb ▸ leNat_lt b

/-- What the bytes of a value stand for is a number of the type. -/
theorem decodeRaw_inRange {ty : DataType} {b : List UInt8} (hb : b.length = ty.size) :
    InRange ty (decodeRaw ty b) := by
  have hlt := leNat_lt_size hb
  cases ty <;> simp only [InRange, typeRange, decodeRaw, DataType.signed, DataType.size,
    Bool.false_eq_true, if_false, if_true, Int.bmod] at hlt ⊢ <;> norm_num at hlt ⊢ <;> omega

/-- **A number of the type is what its bytes stand for.** -/
theorem decodeRaw_rawBytes {ty : DataType} {raw : ℤ} (h : InRange ty raw) :
    decodeRaw ty (rawBytes ty raw) = raw := by
  rw [decodeRaw, leNat_rawBytes]
  obtain ⟨h1, h2⟩ := h
  cases ty <;> simp only [typeRange, DataType.signed, DataType.size, Bool.false_eq_true, if_false,
    if_true, Int.bmod] at h1 h2 ⊢ <;> norm_num at h1 h2 ⊢ <;> omega

/-- **Bytes are those of the number they stand for.** -/
theorem rawBytes_decodeRaw {ty : DataType} {b : List UInt8} (hb : b.length = ty.size) :
    rawBytes ty (decodeRaw ty b) = b := by
  refine leNat_inj (by rw [length_rawBytes, hb]) ?_
  have hlt := leNat_lt_size hb
  have hmod : decodeRaw ty b % (256 ^ ty.size : ℕ) = (leNat b : ℤ) % (256 ^ ty.size : ℕ) := by
    rw [decodeRaw]
    split_ifs
    · exact Int.bmod_emod ..
    · rfl
  have := leNat_rawBytes ty (decodeRaw ty b)
  rw [hmod, Int.emod_eq_of_lt (by omega) (by exact_mod_cast hlt)] at this
  exact_mod_cast this

/-! ## Reading and writing -/

section Access

variable {bytes : List UInt8} {offset : ℕ} {ty : DataType} {raw : ℤ}

theorem readRaw_eq_some :
    readRaw bytes offset ty = some raw ↔
      offset + ty.size ≤ bytes.length ∧ decodeRaw ty (slice bytes offset ty.size) = raw := by
  simp only [readRaw, Option.map_eq_some_iff, slice?_eq_some]
  constructor
  · rintro ⟨b, ⟨hlen, rfl⟩, h⟩
    exact ⟨hlen, h⟩
  · rintro ⟨hlen, h⟩
    exact ⟨_, ⟨hlen, rfl⟩, h⟩

theorem readRaw_eq_none : readRaw bytes offset ty = none ↔ bytes.length < offset + ty.size := by
  rw [readRaw, Option.map_eq_none_iff, slice?_eq_none]

theorem readRaw_of_le (h : offset + ty.size ≤ bytes.length) :
    readRaw bytes offset ty = some (decodeRaw ty (slice bytes offset ty.size)) :=
  readRaw_eq_some.mpr ⟨h, rfl⟩

theorem readRaw_inRange (h : readRaw bytes offset ty = some raw) : InRange ty raw := by
  obtain ⟨hlen, rfl⟩ := readRaw_eq_some.mp h
  exact decodeRaw_inRange (slice_length hlen)

theorem slice_of_readRaw (h : readRaw bytes offset ty = some raw) :
    slice bytes offset ty.size = rawBytes ty raw := by
  obtain ⟨hlen, rfl⟩ := readRaw_eq_some.mp h
  rw [rawBytes_decodeRaw (slice_length hlen)]

theorem readRaw_congr {bytes' : List UInt8} (hlen : bytes'.length = bytes.length)
    (h : ∀ i, offset ≤ i → i < offset + ty.size → bytes'[i]? = bytes[i]?) :
    readRaw bytes' offset ty = readRaw bytes offset ty := by
  rw [readRaw, readRaw, slice?, slice?, hlen, slice_congr h]

theorem writeRaw_of_le (h : offset + ty.size ≤ bytes.length) :
    writeRaw bytes offset ty raw = (overwrite bytes offset (rawBytes ty raw), true) := if_pos h

theorem writeRaw_of_lt (h : bytes.length < offset + ty.size) :
    writeRaw bytes offset ty raw = (bytes, false) := if_neg (by omega)

@[simp] theorem length_writeRaw : (writeRaw bytes offset ty raw).1.length = bytes.length := by
  unfold writeRaw
  split_ifs with h
  · exact length_overwrite (by rwa [length_rawBytes])
  · rfl

theorem getElem?_writeRaw {i : ℕ} (hi : ¬ (offset ≤ i ∧ i < offset + ty.size)) :
    (writeRaw bytes offset ty raw).1[i]? = bytes[i]? := by
  unfold writeRaw
  split_ifs with h
  · exact getElem?_overwrite_of_not_mem (by rwa [length_rawBytes]) (by rwa [length_rawBytes])
  · rfl

/-- A number of the type that is written into the page stands there. -/
theorem readRaw_writeRaw (hlen : offset + ty.size ≤ bytes.length) (h : InRange ty raw) :
    readRaw (writeRaw bytes offset ty raw).1 offset ty = some raw := by
  have hsl : slice (overwrite bytes offset (rawBytes ty raw)) offset (rawBytes ty raw).length = _ :=
    slice_overwrite (by rwa [length_rawBytes])
  rw [length_rawBytes] at hsl
  rw [readRaw_of_le (by rwa [length_writeRaw]), writeRaw_of_le hlen, hsl, decodeRaw_rawBytes h]

theorem writeRaw_readRaw (h : readRaw bytes offset ty = some raw) :
    (writeRaw bytes offset ty raw).1 = bytes := by
  have hlen := (readRaw_eq_some.mp h).1
  rw [writeRaw_of_le hlen, ← slice_of_readRaw h]
  exact overwrite_slice hlen

/-- **A write of a number of the type changes the page unless the number stands there already.** -/
theorem writeRaw_eq_self_iff {cur : ℤ} (hcur : readRaw bytes offset ty = some cur)
    (h : InRange ty raw) : (writeRaw bytes offset ty raw).1 = bytes ↔ cur = raw := by
  constructor
  · intro heq
    have := readRaw_writeRaw (readRaw_eq_some.mp hcur).1 h
    rw [heq, hcur] at this
    exact Option.some.inj this
  · rintro rfl
    exact writeRaw_readRaw hcur

end Access

/-! ## Values one after the other -/

/-- Values written from the offset on; those past the end are left out. -/
def writeRaws (bytes : List UInt8) (offset : ℕ) (ty : DataType) : List ℤ → List UInt8
  | [] => bytes
  | raw :: raws => writeRaws (writeRaw bytes offset ty raw).1 (offset + ty.size) ty raws

section Writes

variable {ty : DataType}

@[simp] theorem length_writeRaws (bytes : List UInt8) (offset : ℕ) (raws : List ℤ) :
    (writeRaws bytes offset ty raws).length = bytes.length := by
  induction raws generalizing bytes offset with
  | nil => rfl
  | cons raw raws ih => rw [writeRaws, ih, length_writeRaw]

theorem getElem?_writeRaws {bytes : List UInt8} {offset i : ℕ} {raws : List ℤ}
    (hi : ¬ (offset ≤ i ∧ i < offset + raws.length * ty.size)) :
    (writeRaws bytes offset ty raws)[i]? = bytes[i]? := by
  induction raws generalizing bytes offset with
  | nil => rfl
  | cons raw raws ih =>
    rw [List.length_cons, Nat.succ_mul] at hi
    rw [writeRaws, ih (by omega), getElem?_writeRaw (by omega)]

theorem readRaw_writeRaws_of_le {bytes : List UInt8} {offset o : ℕ} {raws : List ℤ}
    (h : o + ty.size ≤ offset ∨ offset + raws.length * ty.size ≤ o) :
    readRaw (writeRaws bytes offset ty raws) o ty = readRaw bytes o ty :=
  readRaw_congr (length_writeRaws ..) fun _ _ _ => getElem?_writeRaws (by omega)

/-- **Every value that lies in the page is written.** -/
theorem readRaw_writeRaws {bytes : List UInt8} {offset : ℕ} {raws : List ℤ}
    (hr : ∀ raw ∈ raws, InRange ty raw) {k : ℕ} {raw : ℤ} (hk : raws[k]? = some raw)
    (hlen : offset + k * ty.size + ty.size ≤ bytes.length) :
    readRaw (writeRaws bytes offset ty raws) (offset + k * ty.size) ty = some raw := by
  induction raws generalizing bytes offset k with
  | nil => exact nomatch hk
  | cons raw' raws ih =>
    rw [writeRaws]
    cases k with
    | zero =>
      obtain rfl := Option.some.inj (show some raw' = some raw from hk)
      rw [Nat.zero_mul, Nat.add_zero] at hlen ⊢
      rw [readRaw_writeRaws_of_le (Or.inl (Nat.le_refl _))]
      exact readRaw_writeRaw hlen (hr _ List.mem_cons_self)
    | succ k =>
      rw [Nat.succ_mul] at hlen ⊢
      have hlen' : offset + ty.size + k * ty.size + ty.size ≤ (writeRaw bytes offset ty raw').1.length := by
        rw [length_writeRaw]
        omega
      have := ih (fun r h => hr r (List.mem_cons_of_mem _ h)) hk hlen'
      rwa [Nat.add_right_comm, Nat.add_assoc] at this

/-- **A write of values leaves the page exactly when those that lie in it stand there already.** -/
theorem writeRaws_eq_self_iff {bytes : List UInt8} {offset : ℕ} {raws : List ℤ}
    (hr : ∀ raw ∈ raws, InRange ty raw) :
    writeRaws bytes offset ty raws = bytes ↔ ∀ (k : ℕ) (raw cur : ℤ), raws[k]? = some raw →
      readRaw bytes (offset + k * ty.size) ty = some cur → cur = raw := by
  constructor
  · intro heq k raw cur hk hcur
    have := readRaw_writeRaws hr hk (readRaw_eq_some.mp hcur).1
    rw [heq, hcur] at this
    exact Option.some.inj this
  · intro h
    induction raws generalizing offset with
    | nil => rfl
    | cons raw raws ih =>
      have hself : (writeRaw bytes offset ty raw).1 = bytes := by
        rcases hcur : readRaw bytes offset ty with - | cur
        · rw [writeRaw_of_lt (readRaw_eq_none.mp hcur)]
        · refine (writeRaw_eq_self_iff hcur (hr _ List.mem_cons_self)).mpr (h 0 raw cur rfl ?_)
          rwa [Nat.zero_mul, Nat.add_zero]
      rw [writeRaws, hself]
      refine ih (fun r hr' => hr r (List.mem_cons_of_mem _ hr')) fun k r cur hk hcur => ?_
      refine h (k + 1) r cur hk ?_
      rwa [Nat.succ_mul, Nat.add_comm (k * ty.size), ← Nat.add_assoc]

end Writes

end RustyTune.TuneModel
