import Mathlib.Data.UInt
import Mathlib.Logic.Function.Iterate
import Mathlib.Tactic.Common

/-!
# Remainders of a shift register

A register of `w` bits takes a message byte by byte, lowest bit first, and divides it by a polynomial
`g` whose highest bit is set, as cyclic redundancy checks do.

* `step_xor`: the register is linear; `step_injective`: no state is reached twice.
* `register_eq_iff`: what a part of at most `w` bits does to the register is that of one word.
* **`register_burst`**: two messages that differ only within such a part leave different remainders.
-/

namespace RustyTune.Crc

variable {w : ℕ} (g : BitVec w)

def step (c : BitVec w) : BitVec w := if c.getLsbD 0 then (c >>> 1) ^^^ g else c >>> 1

def byte (c : BitVec w) (b : UInt8) : BitVec w := (step g)^[8] (c ^^^ b.toBitVec.setWidth w)

def register (c : BitVec w) (bs : List UInt8) : BitVec w := bs.foldl (byte g) c

/-! ## The step -/

theorem step_xor (a b : BitVec w) : step g (a ^^^ b) = step g a ^^^ step g b := by
  ext i hi
  by_cases ha : a.getLsbD 0 = true <;> by_cases hb : b.getLsbD 0 = true <;>
    simp [step, ha, hb, Bool.xor_left_comm, Bool.xor_comm]

/-- A state with its lowest bit clear only moves down. -/
theorem step_double {y : BitVec w} (hy : y.getLsbD (w - 1) = false) : step g (y <<< 1) = y := by
  ext i hi
  have hlow : (y <<< 1).getLsbD 0 = false := by simp
  rw [step, hlow, if_neg Bool.false_ne_true]
  simp only [BitVec.getElem_ushiftRight, BitVec.getLsbD_shiftLeft]
  by_cases htop : 1 + i < w
  · simp [htop, BitVec.getLsbD_eq_getElem hi]
  · have hlast : i = w - 1 := by omega
    rw [← BitVec.getLsbD_eq_getElem hi, hlast, hy]
    simp [htop, ← hlast]

variable {g}

theorem eq_zero_of_step (hg : g.getLsbD (w - 1) = true) {d : BitVec w} (h : step g d = 0) : d = 0 := by
  have hbit : d.getLsbD 0 = false := by
    by_contra hset
    rw [Bool.not_eq_false] at hset
    rw [step, if_pos hset] at h
    have htop := congrArg (fun c : BitVec w => c.getLsbD (w - 1)) h
    have hpos : 0 < w := by
      by_contra hw
      rw [BitVec.getLsbD_of_ge _ _ (by omega)] at hset
      cases hset
    simp [hg, BitVec.getLsbD_of_ge d (1 + (w - 1)) (by omega)] at htop
  rw [step, hbit, if_neg Bool.false_ne_true] at h
  ext i hi
  rw [← BitVec.getLsbD_eq_getElem hi]
  cases i with
  | zero => simpa using hbit
  | succ i =>
    have := congrArg (fun c : BitVec w => c.getLsbD i) h
    simpa [Nat.add_comm] using this

theorem step_injective (hg : g.getLsbD (w - 1) = true) : Function.Injective (step g) := by
  intro a b h
  have hzero : a ^^^ b = 0 := by
    apply eq_zero_of_step hg
    rw [step_xor, h, BitVec.xor_self]
    rfl
  calc a = a ^^^ b ^^^ b := by rw [BitVec.xor_assoc, BitVec.xor_self, BitVec.xor_zero]
    _ = b := by rw [hzero]; exact BitVec.zero_xor

theorem iterate_xor (n : ℕ) (a b : BitVec w) :
    (step g)^[n] (a ^^^ b) = (step g)^[n] a ^^^ (step g)^[n] b := by
  induction n generalizing a b with
  | zero => rfl
  | succ n ih => rw [Function.iterate_succ_apply, step_xor, ih]; rfl

/-- A state with its low bits clear only moves down. -/
theorem iterate_shiftLeft {n : ℕ} {y : BitVec w} (hy : ∀ i, w ≤ i + n → y.getLsbD i = false) :
    (step g)^[n] (y <<< n) = y := by
  induction n with
  | zero => simp
  | succ n ih =>
    rw [Function.iterate_succ_apply, BitVec.shiftLeft_add, step_double,
      ih fun i hi => hy i (by omega)]
    rw [BitVec.getLsbD_shiftLeft]
    by_cases hn : w - 1 < n
    · simp [hn]
    · simp [hy (w - 1 - n) (by omega)]

/-! ## A part of the message -/

/-- The bytes as a word, the first one lowest. -/
def word : List UInt8 → BitVec w
  | [] => 0
  | b :: bs => b.toBitVec.setWidth w ^^^ word bs <<< 8

theorem getLsbD_word {bs : List UInt8} {i : ℕ} (hi : 8 * bs.length ≤ i) :
    (word bs : BitVec w).getLsbD i = false := by
  induction bs generalizing i with
  | nil => exact BitVec.getLsbD_zero
  | cons b bs ih =>
    rw [List.length_cons] at hi
    rw [word, BitVec.getLsbD_xor, BitVec.getLsbD_shiftLeft, ih (by omega), BitVec.getLsbD_setWidth,
      BitVec.getLsbD_of_ge b.toBitVec i (by omega)]
    simp

theorem word_injective {xs ys : List UInt8} (hlen : xs.length = ys.length) (hw : 8 * xs.length ≤ w)
    (h : (word xs : BitVec w) = word ys) : xs = ys := by
  induction xs generalizing ys with
  | nil => exact (List.length_eq_zero_iff.mp hlen.symm).symm
  | cons x xs ih =>
    cases ys with
    | nil => cases hlen
    | cons y ys =>
      rw [List.length_cons] at hw
      have hbit : ∀ i, (word (x :: xs) : BitVec w).getLsbD i = (word (y :: ys) : BitVec w).getLsbD i :=
        fun i => by rw [h]
      simp only [word, BitVec.getLsbD_xor, BitVec.getLsbD_shiftLeft, BitVec.getLsbD_setWidth] at hbit
      have hhead : x = y := by
        rw [← UInt8.toBitVec_inj]
        apply BitVec.eq_of_getLsbD_eq
        intro i hi
        have := hbit i
        simpa [hi, show i < w by omega] using this
      have htail : (word xs : BitVec w) = word ys := by
        apply BitVec.eq_of_getLsbD_eq
        intro i hi
        by_cases htop : i + 8 < w
        · have := hbit (i + 8)
          have h8 : ¬ i + 8 < 8 := by omega
          simpa [htop, h8, BitVec.getLsbD_of_ge] using this
        · rw [getLsbD_word (by omega), getLsbD_word (by simp only [List.length_cons] at hlen; omega)]
      rw [hhead, ih (Nat.succ.inj hlen) (by omega) htail]

theorem byte_xor_word {bs : List UInt8} (hw : 8 * (bs.length + 1) ≤ w) (c : BitVec w) (b : UInt8) :
    byte g c b ^^^ word bs = (step g)^[8] (c ^^^ word (b :: bs)) := by
  have hword : (step g)^[8] (word bs <<< 8) = word bs :=
    iterate_shiftLeft fun i hi => getLsbD_word (by omega)
  rw [word, ← BitVec.xor_assoc, iterate_xor, hword]
  rfl

/-- **A part of at most `w` bits acts as one word.** -/
theorem register_eq_iff (hg : g.getLsbD (w - 1) = true) {xs ys : List UInt8}
    (hlen : xs.length = ys.length) (hw : 8 * xs.length ≤ w) {c d : BitVec w} :
    register g c xs = register g d ys ↔ c ^^^ word xs = d ^^^ word ys := by
  induction xs generalizing ys c d with
  | nil =>
    obtain rfl := List.length_eq_zero_iff.mp hlen.symm
    exact (BitVec.xor_left_inj _).symm
  | cons x xs ih =>
    cases ys with
    | nil => cases hlen
    | cons y ys =>
      rw [List.length_cons] at hw
      have hlen' := Nat.succ.inj hlen
      calc register g c (x :: xs) = register g d (y :: ys)
          ↔ byte g c x ^^^ word xs = byte g d y ^^^ word ys := ih hlen' (by omega)
        _ ↔ c ^^^ word (x :: xs) = d ^^^ word (y :: ys) := by
          rw [byte_xor_word hw, byte_xor_word (hlen' ▸ hw)]
          exact (step_injective hg).iterate 8 |>.eq_iff

theorem register_append (c : BitVec w) (xs ys : List UInt8) :
    register g c (xs ++ ys) = register g (register g c xs) ys := List.foldl_append

/-- Equal states before the same bytes, and only these, give equal states after them. -/
theorem register_inj (hg : g.getLsbD (w - 1) = true) {c d : BitVec w} (bs : List UInt8) :
    register g c bs = register g d bs ↔ c = d := by
  induction bs generalizing c d with
  | nil => exact Iff.rfl
  | cons b bs ih =>
    refine ih.trans (((step_injective hg).iterate 8).eq_iff.trans ?_)
    exact BitVec.xor_left_inj _

/-- **A burst is never missed**: messages that differ only within `w` bits leave different
remainders. -/
theorem register_burst (hg : g.getLsbD (w - 1) = true) {xs ys : List UInt8}
    (hlen : xs.length = ys.length) (hw : 8 * xs.length ≤ w) (hne : xs ≠ ys) (c : BitVec w)
    (before after : List UInt8) :
    register g c (before ++ xs ++ after) ≠ register g c (before ++ ys ++ after) := by
  intro h
  simp only [register_append, register_inj hg, register_eq_iff hg hlen hw] at h
  exact hne (word_injective hlen hw ((BitVec.xor_right_inj _).mp h))

end RustyTune.Crc
