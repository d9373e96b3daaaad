import Mathlib.Data.Nat.Bitwise
import Mathlib.Tactic.Ring

/-!
# Bytes of a number

* `leNat`, `leBytes w`: a little-endian byte string as a number, and the `w` bytes of a number.
  They are inverse (`leNat_leBytes`, `leBytes_leNat`).
* **`testBit_leNat`**: bit `8 * j + k` of the number is bit `k` of byte `j`.
* `beNat`, `beBytes`: the same in big-endian order.
-/

namespace RustyTune

/-- The number a little-endian byte string stands for. -/
def leNat : List UInt8 → ℕ
  | [] => 0
  | b :: bs => b.toNat + 256 * leNat bs

/-- The `w` low bytes of `n`, least significant first. -/
def leBytes : ℕ → ℕ → List UInt8
  | 0, _ => []
  | w + 1, n => UInt8.ofNat n :: leBytes w (n / 256)

/-- The number a big-endian byte string stands for. -/
def beNat (bs : List UInt8) : ℕ := leNat bs.reverse

/-- The `w` low bytes of `n`, most significant first. -/
def beBytes (w n : ℕ) : List UInt8 := (leBytes w n).reverse

@[simp] theorem length_leBytes (w n : ℕ) : (leBytes w n).length = w := by
  induction w generalizing n with
  | zero => rfl
  | succ w ih => simp [leBytes, ih]

@[simp] theorem length_beBytes (w n : ℕ) : (beBytes w n).length = w := by simp [beBytes]

theorem leNat_lt (bs : List UInt8) : leNat bs < 256 ^ bs.length := by
  induction bs with
  | nil => simp [leNat]
  | cons b bs ih =>
    have := b.toNat_lt
    rw [leNat, List.length_cons, pow_succ]
    omega

theorem leNat_leBytes (w n : ℕ) : leNat (leBytes w n) = n % 256 ^ w := by
  induction w generalizing n with
  | zero => simp [leBytes, leNat, Nat.mod_one]
  | succ w ih =>
    have hb : (UInt8.ofNat n).toNat = n % 256 := UInt8.toNat_ofNat'
    rw [leBytes, leNat, ih, hb, pow_succ, Nat.mul_comm (256 ^ w) 256, Nat.mod_mul]

theorem leBytes_leNat (bs : List UInt8) : leBytes bs.length (leNat bs) = bs := by
  induction bs with
  | nil => rfl
  | cons b bs ih =>
    have := b.toNat_lt
    have hdiv : leNat (b :: bs) / 256 = leNat bs := by rw [leNat]; omega
    have hb : UInt8.ofNat (leNat (b :: bs)) = b := by
      refine UInt8.toNat_inj.mp ?_
      rw [UInt8.toNat_ofNat', leNat]
      omega
    rw [List.length_cons, leBytes, hdiv, ih, hb]

/-- Equal numbers of equally many bytes come from the same bytes. -/
theorem leNat_inj {bs bs' : List UInt8} (hl : bs.length = bs'.length) (h : leNat bs = leNat bs') :
    bs = bs' := by
  rw [← leBytes_leNat bs, ← leBytes_leNat bs', hl, h]

/-- **Bit `8 * j + k` of a little-endian number is bit `k` of its byte `j`.** -/
theorem testBit_leNat (bs : List UInt8) (j : ℕ) {k : ℕ} (hk : k < 8) :
    (leNat bs).testBit (8 * j + k) = (bs[j]?.getD 0).toNat.testBit k := by
  induction bs generalizing j with
  | nil => simp [leNat]
  | cons b bs ih =>
    have hb := b.toNat_lt
    have hsum : leNat (b :: bs) = 2 ^ 8 * leNat bs + b.toNat := by rw [leNat]; ring
    rw [hsum, Nat.testBit_two_pow_mul_add _ (by simpa using hb)]
    cases j with
    | zero => simp [hk]
    | succ j =>
      rw [if_neg (by omega), show 8 * (j + 1) + k - 8 = 8 * j + k by omega, ih]
      simp

theorem beNat_beBytes (w n : ℕ) : beNat (beBytes w n) = n % 256 ^ w := by
  rw [beNat, beBytes, List.reverse_reverse, leNat_leBytes]

theorem beBytes_beNat (bs : List UInt8) : beBytes bs.length (beNat bs) = bs := by
  rw [beBytes, beNat, ← List.length_reverse, leBytes_leNat, List.reverse_reverse]

theorem beBytes_two (n : ℕ) : beBytes 2 n = [UInt8.ofNat (n / 256), UInt8.ofNat n] := rfl

end RustyTune
