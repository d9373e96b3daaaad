import Mathlib.Data.List.Basic
import Mathlib.Tactic.Common

/-!
# Encodings of text

* `utf8Encode`: the bytes of a text. `utf8Lossy`: the text of any bytes, with a replacement
  character for each longest run of bytes that begins a character and does not end it.
* `utf8Lossy_utf8Encode`: the bytes of a text are read as that text.
* `latin1`: each byte as the character of its number.
-/

namespace RustyTune.Text

/-- U+FFFD, what stands for bytes that are no character. -/
def replacement : Char := Char.ofNat 0xFFFD

def isContinuation (b : UInt8) : Bool := 0x80 ≤ b && b ≤ 0xBF

/-- The second byte of a character of three bytes: no surrogates, nothing that fits in two. -/
def isSecondOf3 (a b : UInt8) : Bool :=
  if a = 0xE0 then 0xA0 ≤ b && b ≤ 0xBF
  else if a = 0xED then 0x80 ≤ b && b ≤ 0x9F
  else isContinuation b

/-- The second byte of a character of four bytes: nothing that fits in three, or past the end. -/
def isSecondOf4 (a b : UInt8) : Bool :=
  if a = 0xF0 then 0x90 ≤ b && b ≤ 0xBF
  else if a = 0xF4 then 0x80 ≤ b && b ≤ 0x8F
  else isContinuation b

/-- The six low bits of a continuation byte, appended to the bits before. -/
def withBits (n : ℕ) (b : UInt8) : ℕ := n * 64 + b.toNat % 64

/-- `String::from_utf8_lossy`. -/
def utf8Lossy : List UInt8 → List Char
  | [] => []
  | a :: rest =>
    if a < 0x80 then Char.ofNat a.toNat :: utf8Lossy rest
    else if 0xC2 ≤ a ∧ a ≤ 0xDF then
      match rest with
      | [] => [replacement]
      | b :: rest' =>
        if isContinuation b then Char.ofNat (withBits (a.toNat % 32) b) :: utf8Lossy rest'
        else replacement :: utf8Lossy (b :: rest')
    else if 0xE0 ≤ a ∧ a ≤ 0xEF then
      match rest with
      | [] => [replacement]
      | b :: rest' =>
        if isSecondOf3 a b then
          match rest' with
          | [] => [replacement]
          | c :: rest'' =>
            if isContinuation c then
              Char.ofNat (withBits (withBits (a.toNat % 16) b) c) :: utf8Lossy rest''
            else replacement :: utf8Lossy (c :: rest'')
        else replacement :: utf8Lossy (b :: rest')
    else if 0xF0 ≤ a ∧ a ≤ 0xF4 then
      match rest with
      | [] => [replacement]
      | b :: rest' =>
        if isSecondOf4 a b then
          match rest' with
          | [] => [replacement]
          | c :: rest'' =>
            if isContinuation c then
              match rest'' with
              | [] => [replacement]
              | d :: rest''' =>
                if isContinuation d then
                  Char.ofNat (withBits (withBits (withBits (a.toNat % 8) b) c) d) :: utf8Lossy rest'''
                else replacement :: utf8Lossy (d :: rest''')
            else replacement :: utf8Lossy (c :: rest'')
        else replacement :: utf8Lossy (b :: rest')
    else replacement :: utf8Lossy rest

def utf8Encode (s : List Char) : List UInt8 := s.flatMap String.utf8EncodeChar

theorem utf8Lossy_utf8EncodeChar (c : Char) (bytes : List UInt8) :
    utf8Lossy (String.utf8EncodeChar c ++ bytes) = c :: utf8Lossy bytes := by
  have hc : Char.ofNat c.val.toNat = c := Char.ofNat_toNat c
  have hvalid : c.val.toNat < 55296 ∨ 57343 < c.val.toNat ∧ c.val.toNat < 1114112 := c.valid
  rw [String.utf8EncodeChar]
  generalize c.val.toNat = v at hc hvalid
  -- the tests of the bytes are tests of numbers
  split_ifs with h₁ h₂ h₃ <;> rw [← hc, List.cons_append, utf8Lossy.eq_def] <;>
    simp only [List.cons_append, List.nil_append, isContinuation, isSecondOf3, isSecondOf4, withBits,
      UInt8.lt_iff_toNat_lt, UInt8.le_iff_toNat_le, ← UInt8.toNat_inj, UInt8.toNat_ofNat',
      UInt8.toNat_ofNat, Bool.and_eq_true, decide_eq_true_eq]
  · rw [if_pos (by omega), Nat.mod_eq_of_lt (by omega)]
  · rw [if_neg (by omega), if_pos (by omega), if_pos (by omega)]
    congr 2
    omega
  · rw [if_neg (by omega), if_neg (by omega), if_pos (by omega),
      if_pos (by split_ifs <;> simp <;> omega), if_pos (by omega)]
    congr 2
    omega
  · rw [if_neg (by omega), if_neg (by omega), if_neg (by omega), if_pos (by omega),
      if_pos (by split_ifs <;> simp <;> omega), if_pos (by omega), if_pos (by omega)]
    congr 2
    omega

theorem utf8Lossy_utf8Encode (s : List Char) : utf8Lossy (utf8Encode s) = s := by
  induction s with
  | nil => rfl
  | cons c s ih =>
    have hbytes : utf8Encode (c :: s) = String.utf8EncodeChar c ++ utf8Encode s := List.flatMap_cons
    rw [hbytes, utf8Lossy_utf8EncodeChar, ih]

/-- Each byte as the character of its number. -/
def latin1 (bytes : List UInt8) : List Char := bytes.map fun b => Char.ofNat b.toNat

example : utf8Lossy [0x61, 0xC3, 0xA9, 0xE2, 0x82, 0x62, 0xFF] =
    ['a', 'é', replacement, 'b', replacement] := by decide +kernel

end RustyTune.Text
