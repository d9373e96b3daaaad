import Mathlib.Data.Int.Notation
import Mathlib.Data.Nat.Notation

/-!
# The floating point operations of a program

* `F64 F`: the operations a program performs on `f64`, over any type `F` of numbers. Nothing is
  assumed of them, so what is proved for every `F` holds of IEEE doubles.
* `LawfulF64 F`: equal numbers compare alike, the lesser and the greater of two are among them, and
  finite numbers are in order. `OrderedF64 F`: their order is linear. `WholeF64 F`: small whole numbers
  are among them.
-/

namespace RustyTune

/-- The operations on `f64` values. -/
class F64 (F : Type) where
  /-- A whole number; also the cast `as f64`. -/
  ofInt : ℤ → F
  nan : F
  neg : F → F
  abs : F → F
  /-- To the nearest whole number, halves away from zero. -/
  round : F → F
  trunc : F → F
  add : F → F → F
  sub : F → F → F
  mul : F → F → F
  div : F → F → F
  rem : F → F → F
  max : F → F → F
  min : F → F → F
  eq : F → F → Bool
  lt : F → F → Bool
  le : F → F → Bool
  isFinite : F → Bool
  /-- `as i64`, saturating. -/
  toI64 : F → Int64
  /-- `as u64` and `as usize`, saturating. -/
  toU64 : F → UInt64
  /-- `str::parse::<f64>`, `.ok()`. -/
  parse : String → Option F
  /-- `{}`. -/
  display : F → String
  /-- `{:.1}`. -/
  display1 : F → String

namespace F64

variable {F : Type} [F64 F]

instance (n : ℕ) : OfNat F n where
  ofNat := F64.ofInt (n : ℤ)

/-- A truth value as a number. -/
def ofBool (b : Bool) : F := F64.ofInt (if b then (1 : ℤ) else 0)

/-- `as u8`, saturating. -/
def toU8 (x : F) : UInt8 := UInt8.ofNat (Nat.min 255 (F64.toU64 x).toNat)

/-- `as u16`, saturating. -/
def toU16 (x : F) : UInt16 := UInt16.ofNat (Nat.min 65535 (F64.toU64 x).toNat)

/-- `as u32`, saturating. -/
def toU32 (x : F) : UInt32 := UInt32.ofNat (Nat.min 4294967295 (F64.toU64 x).toNat)

end F64

/-- Laws of IEEE doubles; zeros of either sign are equal. -/
class LawfulF64 (F : Type) [F64 F] : Prop where
  le_of_eq : ∀ a b t : F, F64.eq a b = true → F64.le a t = F64.le b t ∧ F64.le t a = F64.le t b
  min_eq : ∀ a b : F, F64.min a b = a ∨ F64.min a b = b
  max_eq : ∀ a b : F, F64.max a b = a ∨ F64.max a b = b
  lt_asymm : ∀ a b : F, F64.lt a b = true → F64.lt b a = false
  /-- A finite number is on one side or the other. -/
  lt_cotrans : ∀ a b c : F, F64.isFinite b = true → F64.lt a c = true →
    F64.lt a b = true ∨ F64.lt b c = true

/-- Of finite doubles one is at most the other. -/
class OrderedF64 (F : Type) [F64 F] : Prop where
  lt_iff : ∀ a b : F, F64.isFinite a = true → F64.isFinite b = true →
    (F64.lt a b = true ↔ F64.le b a = false)
  le_trans : ∀ a b c : F, F64.le a b = true → F64.le b c = true → F64.le a c = true

/-- Whole numbers of 32 bits are doubles, and are cast back to themselves. -/
class WholeF64 (F : Type) [F64 F] : Prop where
  toU64_ofInt : ∀ n < UInt32.size, (F64.toU64 (F64.max (F64.round (F64.ofInt (n : ℕ) : F)) 0)).toNat = n

end RustyTune
