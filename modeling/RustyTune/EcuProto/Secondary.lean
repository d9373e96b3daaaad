import Mathlib.Data.List.Infix
import Mathlib.Tactic.Common

/-!
# The secondary port

Responses of the secondary port have neither envelope nor checksum: the bytes `'r' 0x30` are echoed,
then the payload follows. The decoder is a machine with three states; it is compared with a scan of
the whole stream.

* `SecondaryDecoder`: the machine, `payloads`: what it yields when it is fed byte by byte.
* `leftmost`: where a pattern occurs first; `scan`: the payloads behind the leftmost echoes.
* `SecondaryDecoder.unread`: the bytes that the machine holds. **`push_scan`**: one byte keeps what the
  scan makes of them and the bytes to come; hence **`payloads_eq_scan`**.
* `scan_noise`: an echo behind noise in which there is none is the one that is found.
-/

namespace RustyTune.EcuProto

/-! ## The machine -/

inductive SecondaryState
  | cmdEcho
  | canCmd
  | payload
  deriving DecidableEq, Repr

/-- `secondary::Decoder` -/
structure SecondaryDecoder where
  state : SecondaryState
  /-- The payload size of the pending request. -/
  expect : ℕ
  buf : List UInt8
  deriving DecidableEq, Repr

/-- `'r'` -/
def echoCmd : UInt8 := 0x72

/-- The command behind the CAN id. -/
def echoCanCmd : UInt8 := 0x30

namespace SecondaryDecoder

def new (expect : ℕ) : SecondaryDecoder := ⟨.cmdEcho, expect, []⟩

def reset (d : SecondaryDecoder) (expect : ℕ) : SecondaryDecoder :=
  { d with state := .cmdEcho, expect, buf := [] }

/-- The payload once it is complete. -/
def push (d : SecondaryDecoder) (byte : UInt8) : SecondaryDecoder × Option (List UInt8) :=
  match d.state with
  | .cmdEcho => (if byte = echoCmd then { d with state := .canCmd } else d, none)
  | .canCmd =>
    if byte = echoCanCmd then ({ d with state := .payload, buf := [] }, none)
    -- another `'r'` may itself start the echo
    else if byte ≠ echoCmd then ({ d with state := .cmdEcho }, none)
    else (d, none)
  | .payload =>
    let buf := d.buf ++ [byte]
    if buf.length = d.expect then ({ d with state := .cmdEcho, buf := [] }, some buf)
    else ({ d with buf }, none)

end SecondaryDecoder

/-- The payloads of a decoder fed byte by byte. -/
def payloads (d : SecondaryDecoder) : List UInt8 → List (List UInt8)
  | [] => []
  | b :: bs => (d.push b).2.toList ++ payloads (d.push b).1 bs

/-- A decoder that is reset is a new one. -/
theorem SecondaryDecoder.reset_eq_new (d : SecondaryDecoder) (expect : ℕ) : d.reset expect = new expect :=
  rfl

/-! ## The scan -/

section Leftmost

variable {α : Type} [DecidableEq α] {pat l : List α} {i : ℕ}

/-- The first place of `l` at which `pat` stands. -/
def leftmost (pat l : List α) : Option ℕ := l.tails.findIdx? fun t => pat.isPrefixOf t

theorem leftmost_of_isPrefix (h : pat <+: l) : leftmost pat l = some 0 := by
  have hpat : pat.isPrefixOf l = true := List.isPrefixOf_iff_prefix.mpr h
  cases l <;> simp [leftmost, List.findIdx?_cons, hpat]

theorem leftmost_cons {a : α} (h : ¬ pat <+: a :: l) :
    leftmost pat (a :: l) = (leftmost pat l).map (· + 1) := by
  have hpat : pat.isPrefixOf (a :: l) = false := by
    rwa [← List.isPrefixOf_iff_prefix, Bool.not_eq_true] at h
  simp [leftmost, List.findIdx?_cons, hpat]

/-- **The first place**: the pattern stands there and at no place before. -/
theorem leftmost_eq_some_iff (hpat : pat ≠ []) :
    leftmost pat l = some i ↔ pat <+: l.drop i ∧ ∀ j < i, ¬ pat <+: l.drop j := by
  induction l generalizing i with
  | nil => simp [leftmost, List.findIdx?_cons, hpat]
  | cons a l ih =>
    by_cases h : pat <+: a :: l
    · rw [leftmost_of_isPrefix h]
      constructor
      · rintro ⟨⟩
        exact ⟨h, fun j hj => absurd hj (Nat.not_lt_zero j)⟩
      · rintro ⟨-, hfirst⟩
        rcases Nat.eq_zero_or_pos i with rfl | hi
        · rfl
        · exact absurd h (hfirst 0 hi)
    · rw [leftmost_cons h]
      cases i with
      | zero => simp [h]
      | succ i =>
        rw [Option.map_eq_some_iff]
        constructor
        · rintro ⟨k, hk, hki⟩
          obtain rfl := Nat.succ.inj hki
          obtain ⟨hstands, hfirst⟩ := ih.mp hk
          refine ⟨hstands, fun j hj => ?_⟩
          cases j with
          | zero => exact h
          | succ j => exact hfirst j (Nat.lt_of_succ_lt_succ hj)
        · rintro ⟨hstands, hfirst⟩
          exact ⟨i, ih.mpr ⟨hstands, fun j hj => hfirst (j + 1) (Nat.succ_lt_succ hj)⟩, rfl⟩

theorem leftmost_add_length_le (hpat : pat ≠ []) (h : leftmost pat l = some i) :
    i + pat.length ≤ l.length := by
  have hle := ((leftmost_eq_some_iff hpat).mp h).1.length_le
  have hpos := List.length_pos_iff.mpr hpat
  rw [List.length_drop] at hle
  omega

end Leftmost

/-- The bytes that the decoder looks for. -/
def echo : List UInt8 := [echoCmd, echoCanCmd]

/-- The declarative scan: the `n` bytes behind the leftmost echo are a payload, and the scan goes on
behind them; an incomplete tail has none. -/
def scan (n : ℕ) (bs : List UInt8) : List (List UInt8) :=
  match h : leftmost echo bs with
  | none => []
  | some i =>
    let rest := bs.drop (i + 2)
    if rest.length < n then [] else rest.take n :: scan n (rest.drop n)
termination_by bs.length
decreasing_by
  have hle : i + 2 ≤ bs.length := leftmost_add_length_le (List.cons_ne_nil _ _) h
  simp only [List.length_drop]
  omega

variable {n : ℕ} {bs : List UInt8}

theorem scan_of_leftmost_eq_none (h : leftmost echo bs = none) : scan n bs = [] := by
  rw [scan]
  split
  · rfl
  · next hi => exact nomatch h.symm.trans hi

theorem scan_of_leftmost_eq_some {i : ℕ} (h : leftmost echo bs = some i) :
    scan n bs = if (bs.drop (i + 2)).length < n then []
      else (bs.drop (i + 2)).take n :: scan n ((bs.drop (i + 2)).drop n) := by
  rw [scan]
  split
  · next hnone => exact nomatch h.symm.trans hnone
  · next j hj => rw [Option.some.inj (hj.symm.trans h)]

@[simp] theorem scan_nil : scan n [] = [] := scan_of_leftmost_eq_none rfl

theorem scan_skip {b : UInt8} (h : ¬ echo <+: b :: bs) : scan n (b :: bs) = scan n bs := by
  have hcons := leftmost_cons h
  cases hl : leftmost echo bs with
  | none => rw [scan_of_leftmost_eq_none (by rw [hcons, hl]; rfl), scan_of_leftmost_eq_none hl]
  | some i =>
    have hsucc : leftmost echo (b :: bs) = some (i + 1) := by rw [hcons, hl]; rfl
    have hdrop : (b :: bs).drop (i + 1 + 2) = bs.drop (i + 2) := rfl
    rw [scan_of_leftmost_eq_some hsucc, scan_of_leftmost_eq_some hl, hdrop]

/-- What is behind an echo at the front, if it is complete. -/
theorem scan_echo (n : ℕ) (bs : List UInt8) :
    scan n (echo ++ bs) = if bs.length < n then [] else bs.take n :: scan n (bs.drop n) :=
  scan_of_leftmost_eq_some (leftmost_of_isPrefix (List.prefix_append echo bs))

/-! ## The machine is the scan -/

namespace SecondaryDecoder

/-- The bytes that the decoder holds. -/
def unread (d : SecondaryDecoder) : List UInt8 :=
  match d.state with
  | .cmdEcho => []
  | .canCmd => [echoCmd]
  | .payload => echo ++ d.buf

/-- What holds of a decoder between two bytes: a payload that it reads is not complete. -/
def WF (n : ℕ) (d : SecondaryDecoder) : Prop :=
  d.expect = n ∧ (d.state = .payload → d.buf.length < n)

theorem new_wf (n : ℕ) : (new n).WF n := ⟨rfl, fun h => nomatch h⟩

/-- **One byte**: what it yields with what the decoder holds then is what the scan makes of the bytes
that it held and this one. -/
theorem push_scan {d : SecondaryDecoder} (hn : 0 < n) (hd : d.WF n) (b : UInt8) (bs : List UInt8) :
    (d.push b).1.WF n ∧
      (d.push b).2.toList ++ scan n ((d.push b).1.unread ++ bs) = scan n (d.unread ++ b :: bs) := by
  obtain ⟨state, expect, buf⟩ := d
  obtain ⟨rfl, hbuf⟩ := hd
  cases state with
  | cmdEcho =>
    by_cases hb : b = echoCmd
    · subst hb
      exact ⟨⟨rfl, fun h => nomatch h⟩, rfl⟩
    · have hskip : ¬ echo <+: b :: bs := fun h => hb (List.cons_prefix_cons.mp h).1.symm
      simp [push, hb, WF, unread, scan_skip hskip]
  | canCmd =>
    by_cases hcan : b = echoCanCmd
    · subst hcan
      exact ⟨⟨rfl, fun _ => hn⟩, rfl⟩
    · -- the `'r'` before does not start an echo
      have hskip : ¬ echo <+: echoCmd :: b :: bs := fun h =>
        hcan (List.cons_prefix_cons.mp (List.cons_prefix_cons.mp h).2).1.symm
      by_cases hb : b = echoCmd
      · subst hb
        exact ⟨⟨rfl, fun h => nomatch h⟩, (scan_skip hskip).symm⟩
      · have hskip' : ¬ echo <+: b :: bs := fun h => hb (List.cons_prefix_cons.mp h).1.symm
        simp [push, hcan, hb, WF, unread, scan_skip hskip, scan_skip hskip']
  | payload =>
    have hlt : buf.length < expect := hbuf rfl
    have hheld : echo ++ buf ++ b :: bs = echo ++ (buf ++ [b] ++ bs) := by simp
    by_cases hend : (buf ++ [b]).length = expect
    · have hshort : ¬ (buf ++ [b] ++ bs).length < expect := by
        rw [List.length_append, hend]
        omega
      have htake : (buf ++ [b] ++ bs).take expect = buf ++ [b] := by rw [← hend, List.take_left]
      have hdrop : (buf ++ [b] ++ bs).drop expect = bs := by rw [← hend, List.drop_left]
      simp only [push, if_pos hend, unread, hheld, scan_echo, if_neg hshort, htake, hdrop]
      exact ⟨⟨rfl, fun h => nomatch h⟩, rfl⟩
    · have hmore : (buf ++ [b]).length < expect := by
        rw [List.length_append, List.length_singleton] at hend ⊢
        omega
      simp only [push, if_neg hend, unread, hheld]
      exact ⟨⟨rfl, fun _ => hmore⟩, by rw [List.append_assoc echo]; rfl⟩

end SecondaryDecoder

/-- **A decoder yields what the scan makes of the bytes it holds and those to come.** -/
theorem payloads_eq_scan {d : SecondaryDecoder} (hn : 0 < n) (hd : d.WF n) (bs : List UInt8) :
    payloads d bs = scan n (d.unread ++ bs) := by
  induction bs generalizing d with
  | nil =>
    obtain ⟨state, expect, buf⟩ := d
    obtain ⟨rfl, hbuf⟩ := hd
    cases state with
    | cmdEcho => exact scan_nil.symm
    | canCmd => exact (scan_of_leftmost_eq_none rfl).symm
    | payload =>
      rw [payloads, SecondaryDecoder.unread, List.append_nil, scan_echo, if_pos (hbuf rfl)]
  | cons b bs ih =>
    obtain ⟨hwf, hstep⟩ := SecondaryDecoder.push_scan hn hd b bs
    rw [payloads, ih hwf, hstep]

/-- **The decoder finds the first echo.** Its payloads are those of the scan. -/
theorem secondary_scans (n : ℕ) (hn : 1 ≤ n) (bs : List UInt8) :
    payloads (.new n) bs = scan n bs :=
  payloads_eq_scan hn (SecondaryDecoder.new_wf n) bs

/-- Noise, and an echo behind another `'r'`. -/
theorem secondary_scans_resync :
    payloads (.new 2) [0xAA, 0x72, 0x72, 0x30, 7, 8] = scan 2 [0xAA, 0x72, 0x72, 0x30, 7, 8] :=
  secondary_scans 2 (by decide) _

/-! ## Noise -/

/-- **The echo behind noise without one is found**, whatever the noise ends with. -/
theorem scan_noise {noise payload : List UInt8} (hnoise : ¬ echo <:+: noise)
    (rest : List UInt8) (hp : payload.length = n) :
    scan n (noise ++ (echo ++ (payload ++ rest))) = payload :: scan n rest := by
  induction noise with
  | nil =>
    have hlt : ¬ (payload ++ rest).length < n := by
      rw [List.length_append]
      omega
    rw [List.nil_append, scan_echo, if_neg hlt, ← hp, List.take_left, List.drop_left]
  | cons b noise ih =>
    have hrest : ¬ echo <:+: noise := fun h => hnoise (h.trans (List.suffix_cons b noise).isInfix)
    refine (scan_skip fun h => ?_).trans (ih hrest)
    obtain ⟨rfl, hcan⟩ := List.cons_prefix_cons.mp h
    cases noise with
    | nil => exact absurd (List.cons_prefix_cons.mp hcan).1 (by decide)
    | cons c noise =>
      obtain ⟨rfl, -⟩ := List.cons_prefix_cons.mp hcan
      exact hnoise (List.prefix_append echo noise).isInfix

/-- The test of the source. -/
example : payloads (.new 2) [0xAA, 0x72, 0x72, 0x30, 7, 8] = [[7, 8]] := by decide

end RustyTune.EcuProto
