import RustyTune.Lib.Decimal
import RustyTune.Lib.F64

/-!
# Exact arithmetic

* `XRat`: the rationals with two infinities and no number; every operation on rationals is exact,
  the special values follow IEEE.
* Its `F64` instance, with printing (`XRat.display`) and parsing (`XRat.parse`) of decimals; it is
  lawful.
-/

namespace RustyTune

inductive XRat
  | fin (q : ℚ)
  | inf (negative : Bool)
  | nan
  deriving DecidableEq

namespace XRat

/-- To the nearest integer, halves away from zero. -/
def roundAway (q : ℚ) : ℤ := if 0 ≤ q then ⌊q + 1 / 2⌋ else -⌊-q + 1 / 2⌋

/-- To the nearest integer, halves to the even one. -/
def roundEven (q : ℚ) : ℤ :=
  let n := ⌊q⌋
  if q - n < 1 / 2 then n else if 1 / 2 < q - n then n + 1 else n + n % 2

/-- Towards zero. -/
def truncate (q : ℚ) : ℤ := if 0 ≤ q then ⌊q⌋ else -⌊-q⌋

def neg : XRat → XRat
  | fin q => fin (-q)
  | inf s => inf (!s)
  | nan => nan

def abs : XRat → XRat
  | fin q => fin |q|
  | inf _ => inf false
  | nan => nan

/-- A function on the rationals that keeps the special values. -/
def mapFin (f : ℚ → ℤ) : XRat → XRat
  | fin q => fin (f q)
  | x => x

def add : XRat → XRat → XRat
  | fin a, fin b => fin (a + b)
  | inf s, inf s' => if s = s' then inf s else nan
  | inf s, fin _ | fin _, inf s => inf s
  | _, _ => nan

/-- The infinity of the sign of a product, nothing times infinity being no number. -/
def signedInf (q : ℚ) (s : Bool) : XRat := if q = 0 then nan else inf ((q < 0) ^^ s)

def mul : XRat → XRat → XRat
  | fin a, fin b => fin (a * b)
  | inf s, inf s' => inf (s ^^ s')
  | inf s, fin q | fin q, inf s => signedInf q s
  | _, _ => nan

def div : XRat → XRat → XRat
  | fin a, fin b => if b = 0 then signedInf a false else fin (a / b)
  | inf s, fin q => inf ((q < 0) ^^ s)
  | fin _, inf _ => fin 0
  | _, _ => nan

/-- The remainder of a division that truncates; its sign is that of the dividend. -/
def rem : XRat → XRat → XRat
  | fin a, fin b => if b = 0 then nan else fin (a - b * truncate (a / b))
  | fin a, inf _ => fin a
  | _, _ => nan

def lt : XRat → XRat → Bool
  | fin a, fin b => a < b
  | inf s, inf s' => s && !s'
  | inf s, fin _ => s
  | fin _, inf s => !s
  | _, _ => false

def eq : XRat → XRat → Bool
  | fin a, fin b => a = b
  | inf s, inf s' => s = s'
  | _, _ => false

def le (x y : XRat) : Bool := lt x y || eq x y

/-- The other one where one is no number. -/
def max : XRat → XRat → XRat
  | nan, y => y
  | x, nan => x
  | x, y => if lt x y then y else x

def min : XRat → XRat → XRat
  | nan, y => y
  | x, nan => x
  | x, y => if lt y x then y else x

def saturate (lo hi i : ℤ) : ℤ := Max.max lo (Min.min i hi)

/-- A cast to integers within bounds. -/
def toInt (lo hi : ℤ) : XRat → ℤ
  | fin q => saturate lo hi (truncate q)
  | inf s => if s then lo else hi
  | nan => 0

/-- How many decimals a number needs, 20 at most. -/
def decimals (q : ℚ) : ℕ := ((List.range 21).find? fun k => (q * 10 ^ k).den = 1).getD 20

/-- A number with `k` decimals. -/
def fixed (k : ℕ) (q : ℚ) : List Char :=
  let n := roundEven (q * 10 ^ k)
  if n < 0 then '-' :: decimal n.natAbs k else decimal n.natAbs k

/-- What is printed, numbers with the decimals given. -/
def print (k : ℚ → ℕ) : XRat → String
  | fin q => String.ofList (fixed (k q) q)
  | inf s => if s then "-inf" else "inf"
  | nan => "NaN"

/-- A number or special value without sign, in any case. -/
def parseMagnitude (s : List Char) : Option XRat :=
  let word := s.map Char.toLower
  if word = "inf".toList ∨ word = "infinity".toList then some (inf false)
  else if word = "nan".toList then some nan
  else (parseDecimal s).map fin

def parse (s : String) : Option XRat :=
  match s.toList with
  | '-' :: s => (parseMagnitude s).map neg
  | '+' :: s => parseMagnitude s
  | s => parseMagnitude s

instance : F64 XRat where
  ofInt i := fin i
  nan := nan
  neg := neg
  abs := abs
  round := mapFin roundAway
  trunc := mapFin truncate
  add := add
  sub x y := add x (neg y)
  mul := mul
  div := div
  rem := rem
  max := max
  min := min
  eq := eq
  lt := lt
  le := le
  isFinite x := x matches fin _
  toI64 x := Int64.ofInt (toInt (-2 ^ 63) (2 ^ 63 - 1) x)
  toU64 x := UInt64.ofNat (toInt 0 (2 ^ 64 - 1) x).toNat
  parse := parse
  display := print decimals
  display1 := print fun _ => 1

/-! ## Rationals -/

theorem isFinite_iff {x : XRat} : F64.isFinite x = true ↔ ∃ q, x = fin q := by
  cases x with
  | fin q => exact iff_of_true rfl ⟨q, rfl⟩
  | inf s => exact iff_of_false Bool.false_ne_true (fun ⟨_, h⟩ => nomatch h)
  | nan => exact iff_of_false Bool.false_ne_true (fun ⟨_, h⟩ => nomatch h)

@[simp] theorem isFinite_fin (q : ℚ) : F64.isFinite (fin q) = true := rfl

@[simp] theorem ofNat_eq_fin (n : ℕ) : (OfNat.ofNat n : XRat) = fin (OfNat.ofNat n : ℕ) := rfl

@[simp] theorem lt_fin (a b : ℚ) : F64.lt (fin a) (fin b) = decide (a < b) := rfl

@[simp] theorem le_fin (a b : ℚ) : F64.le (fin a) (fin b) = decide (a ≤ b) := by
  change (decide (a < b) || decide (a = b)) = decide (a ≤ b)
  rw [← Bool.decide_or]
  exact decide_eq_decide.mpr le_iff_lt_or_eq.symm

@[simp] theorem eq_fin_iff {x : XRat} {q : ℚ} : F64.eq x (fin q) = true ↔ x = fin q := by
  cases x with
  | fin p => exact decide_eq_true_iff.trans (fin.injEq p q ▸ Iff.rfl)
  | inf s => exact iff_of_false Bool.false_ne_true (fun h => nomatch h)
  | nan => exact iff_of_false Bool.false_ne_true (fun h => nomatch h)

@[simp] theorem add_fin (a b : ℚ) : F64.add (fin a) (fin b) = fin (a + b) := rfl

@[simp] theorem sub_fin (a b : ℚ) : F64.sub (fin a) (fin b) = fin (a - b) :=
  congrArg fin (sub_eq_add_neg a b).symm

@[simp] theorem mul_fin (a b : ℚ) : F64.mul (fin a) (fin b) = fin (a * b) := rfl

theorem div_fin {b : ℚ} (hb : b ≠ 0) (a : ℚ) : F64.div (fin a) (fin b) = fin (a / b) := if_neg hb

/-! ## Laws -/

instance : LawfulF64 XRat where
  le_of_eq a b t h := by
    have hab : a = b := by
      cases a with
      | fin q => cases b <;> simp_all [F64.eq, eq]
      | inf s => cases b <;> simp_all [F64.eq, eq]
      | nan => exact absurd h Bool.false_ne_true
    subst hab
    exact ⟨rfl, rfl⟩
  min_eq a b := by
    change min a b = a ∨ min a b = b
    cases a <;> cases b <;> simp only [min] <;> grind
  max_eq a b := by
    change max a b = a ∨ max a b = b
    cases a <;> cases b <;> simp only [max] <;> grind
  lt_asymm a b h := by
    change lt a b = true at h
    change lt b a = false
    cases a <;> cases b <;> simp_all [lt, le_of_lt]
  lt_cotrans a b c hb h := by
    change lt a c = true at h
    change lt a b = true ∨ lt b c = true
    cases b with
    | inf s => exact absurd hb Bool.false_ne_true
    | nan => exact absurd hb Bool.false_ne_true
    | fin q =>
      cases a <;> cases c <;> simp_all [lt]
      next x y => exact (lt_or_ge x q).imp id fun hge => lt_of_le_of_lt hge h

instance : OrderedF64 XRat where
  lt_iff a b ha hb := by
    cases a with
    | inf s => exact absurd ha Bool.false_ne_true
    | nan => exact absurd ha Bool.false_ne_true
    | fin p =>
      cases b with
      | inf s => exact absurd hb Bool.false_ne_true
      | nan => exact absurd hb Bool.false_ne_true
      | fin q =>
        change lt (fin p) (fin q) = true ↔ le (fin q) (fin p) = false
        simp only [lt, le, eq, decide_eq_true_eq, Bool.or_eq_false_iff, decide_eq_false_iff_not, not_lt]
        exact ⟨fun h => ⟨h.le, h.ne'⟩, fun h => lt_of_le_of_ne h.1 (Ne.symm h.2)⟩
  le_trans a b c h h' := by
    change le a b = true at h
    change le b c = true at h'
    change le a c = true
    cases a <;> cases b <;> cases c <;> simp_all only [le, lt, eq, Bool.or_eq_true, decide_eq_true_eq,
      Bool.and_eq_true] <;> grind

example : F64.display (XRat.fin (-47 / 20)) = "-2.35" := by decide +kernel
example : parse "-2.350" = some (fin (-47 / 20)) := by decide +kernel

end XRat

end RustyTune
