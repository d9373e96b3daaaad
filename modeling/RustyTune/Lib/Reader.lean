import Mathlib.Data.List.Basic
import Mathlib.Data.UInt
import Mathlib.Tactic.Common

/-!
# Reading lines

* `readLine`: the first line of some bytes, with its line end, and the bytes after it.
* `readLines`: all lines, one after the other; **`readLines_eq_cons`**: what is left after the first
  of them. `flatten_readLines`: nothing is lost. `readLines_flatten`: lines that are joined come
  apart again.
-/

namespace RustyTune.Reader

/-- `read_line`: up to the first line end, which is included. -/
def readLine : List UInt8 → List UInt8 × List UInt8
  | [] => ([], [])
  | b :: bytes =>
    if b = 10 then ([b], bytes)
    else
      let (line, rest) := readLine bytes
      (b :: line, rest)

/-- `read_line` until nothing is read. -/
def readLines : List UInt8 → List (List UInt8)
  | [] => []
  | b :: bytes =>
    if b = 10 then [b] :: readLines bytes
    else
      match readLines bytes with
      | [] => [[b]]
      | line :: lines => (b :: line) :: lines

theorem readLines_eq_nil {bytes : List UInt8} : readLines bytes = [] ↔ bytes = [] := by
  cases bytes with
  | nil => simp [readLines]
  | cons b bytes =>
    rw [readLines]
    split_ifs
    · simp
    · split <;> simp

/-- The first of the lines is the one that is read first. -/
theorem readLines_eq_cons {bytes line : List UInt8} {lines : List (List UInt8)}
    (h : readLines bytes = line :: lines) :
    ∃ rest, readLine bytes = (line, rest) ∧ bytes = line ++ rest ∧ readLines rest = lines := by
  induction bytes generalizing line lines with
  | nil => exact nomatch h
  | cons b bytes ih =>
    rw [readLines] at h
    rw [readLine]
    by_cases hb : b = 10
    · rw [if_pos hb] at h ⊢
      obtain ⟨rfl, rfl⟩ := List.cons.inj h
      exact ⟨bytes, rfl, rfl, rfl⟩
    · rw [if_neg hb] at h ⊢
      cases hbytes : readLines bytes with
      | nil =>
        rw [hbytes] at h
        obtain ⟨rfl, rfl⟩ := List.cons.inj h
        obtain rfl := readLines_eq_nil.mp hbytes
        exact ⟨[], rfl, rfl, rfl⟩
      | cons line' lines' =>
        rw [hbytes] at h
        obtain ⟨rfl, rfl⟩ := List.cons.inj h
        obtain ⟨rest, hline, hrest, hlines⟩ := ih hbytes
        exact ⟨rest, by rw [hline], congrArg (b :: ·) hrest, hlines⟩

theorem flatten_readLines (bytes : List UInt8) : (readLines bytes).flatten = bytes := by
  induction bytes with
  | nil => rfl
  | cons b bytes ih =>
    rw [readLines]
    split_ifs
    · rw [List.flatten_cons, ih, List.singleton_append]
    · cases hbytes : readLines bytes with
      | nil =>
        rw [readLines_eq_nil.mp hbytes]
        rfl
      | cons line lines =>
        rw [hbytes] at ih
        rw [← ih]
        rfl

theorem ne_nil_of_mem_readLines {bytes line : List UInt8} (h : line ∈ readLines bytes) :
    line ≠ [] := by
  induction bytes generalizing line with
  | nil => exact nomatch h
  | cons b bytes ih =>
    rw [readLines] at h
    split_ifs at h
    · rcases List.mem_cons.mp h with rfl | h
      · exact List.cons_ne_nil _ _
      · exact ih h
    · cases hbytes : readLines bytes with
      | nil =>
        rw [hbytes] at h
        rw [List.mem_singleton.mp h]
        exact List.cons_ne_nil _ _
      | cons line' lines =>
        rw [hbytes] at h ih
        rcases List.mem_cons.mp h with rfl | h
        · exact List.cons_ne_nil _ _
        · exact ih (List.mem_cons_of_mem _ h)

theorem readLines_append {line : List UInt8} (h : 10 ∉ line) (rest : List UInt8) :
    readLines (line ++ 10 :: rest) = (line ++ [10]) :: readLines rest := by
  induction line with
  | nil => rfl
  | cons b line ih =>
    rw [List.mem_cons, not_or] at h
    rw [List.cons_append, readLines, if_neg (Ne.symm h.1), ih h.2]
    rfl

theorem readLines_flatten {lines : List (List UInt8)}
    (h : ∀ line ∈ lines, ∃ front : List UInt8, 10 ∉ front ∧ line = front ++ [10]) :
    readLines lines.flatten = lines := by
  induction lines with
  | nil => rfl
  | cons line lines ih =>
    obtain ⟨front, hfront, rfl⟩ := h line List.mem_cons_self
    rw [List.flatten_cons, List.append_assoc, List.singleton_append, readLines_append hfront,
      ih fun l hl => h l (List.mem_cons_of_mem _ hl)]

end RustyTune.Reader
