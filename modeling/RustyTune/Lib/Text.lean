import Mathlib.Data.Bool.AllAny
import Mathlib.Data.List.TakeWhile
import Mathlib.Tactic.Common

/-!
# Texts

* `isWhitespace`: the characters of Unicode's `White_Space`, which `trim` and `splitWhitespace`
  go by.
* `trimEndWhere`, `trimStartWhere`: without the leading or trailing characters of a kind.
* `splitWhitespace`: the words of a text; **`splitWhitespace_words`**: words with a blank after each
  come apart again.
* `lines`: the lines of a text; **`lines_joinLines`**: lines that are joined come apart again.
* `splitOnce`, `stripPrefix`, `stripSuffix`: at a character, without it at the start or at the end.
* `parseUnsigned`: the number a text stands for; `escapeDebug`: a character as it is shown in quotes.
-/

namespace RustyTune.Text

/-- The characters with the property `White_Space`. -/
def isWhitespace (c : Char) : Bool :=
  let n := c.toNat
  (9 ≤ n && n ≤ 13) || n == 0x20 || n == 0x85 || n == 0xA0 || n == 0x1680 ||
    (0x2000 ≤ n && n ≤ 0x200A) || n == 0x2028 || n == 0x2029 || n == 0x202F || n == 0x205F ||
    n == 0x3000

/-- Without the characters at the start of which `p` holds. -/
def trimStartWhere (p : Char → Bool) (s : List Char) : List Char := s.dropWhile p

/-- Without the characters at the end of which `p` holds. -/
def trimEndWhere (p : Char → Bool) (s : List Char) : List Char := (s.reverse.dropWhile p).reverse

def trim (s : List Char) : List Char := trimEndWhere isWhitespace (trimStartWhere isWhitespace s)

theorem mem_dropWhile {p : Char → Bool} {s : List Char} {c : Char} (hc : c ∈ s) (hp : p c = false) :
    c ∈ s.dropWhile p := by
  induction s with
  | nil => exact hc
  | cons d s ih =>
    rw [List.dropWhile_cons]
    split_ifs with hd
    · rcases List.mem_cons.mp hc with rfl | hc
      · exact absurd hd (by simp [hp])
      · exact ih hc
    · exact hc

theorem mem_trim {s : List Char} {c : Char} (hc : c ∈ s) (hw : isWhitespace c = false) :
    c ∈ trim s := by
  rw [trim, trimEndWhere, List.mem_reverse]
  exact mem_dropWhile (List.mem_reverse.mpr (mem_dropWhile hc hw)) hw

theorem trim_eq_nil {s : List Char} : trim s = [] ↔ ∀ c ∈ s, isWhitespace c = true := by
  constructor
  · intro h c hc
    by_contra hw
    have := mem_trim hc (by simpa using hw)
    rw [h] at this
    exact nomatch this
  · intro h
    have hstart : trimStartWhere isWhitespace s = [] := List.dropWhile_eq_nil_iff.mpr h
    rw [trim, hstart]
    rfl

theorem trim_trim_eq_nil {s : List Char} : trim (trim s) = [] ↔ trim s = [] := by
  constructor
  · intro h
    refine trim_eq_nil.mpr fun c hc => ?_
    by_contra hw
    exact hw (trim_eq_nil.mp h c (mem_trim hc (by simpa using hw)))
  · intro h
    rw [h]
    rfl

theorem trim_blank_append {a : List Char} (ha : ∀ c ∈ a, isWhitespace c = true) (s : List Char) :
    trim (a ++ s) = trim s := by
  rw [trim, trim, trimStartWhere, trimStartWhere, List.dropWhile_append_of_pos ha]

theorem trim_append_blank {b : List Char} (hb : ∀ c ∈ b, isWhitespace c = true) (s : List Char) :
    trim (s ++ b) = trim s := by
  by_cases hs : ∀ c ∈ s, isWhitespace c = true
  · rw [trim_eq_nil.mpr hs, trim_eq_nil]
    intro c hc
    rcases List.mem_append.mp hc with hc | hc
    exacts [hs c hc, hb c hc]
  · have hne : (s.dropWhile isWhitespace).isEmpty = false := by
      rw [List.isEmpty_eq_false_iff]
      intro h
      exact hs (List.dropWhile_eq_nil_iff.mp h)
    have hb' : ∀ c ∈ b.reverse, isWhitespace c = true := fun c hc => hb c (List.mem_reverse.mp hc)
    rw [trim, trim, trimStartWhere, trimStartWhere, List.dropWhile_append, hne, if_neg (by simp),
      trimEndWhere, trimEndWhere, List.reverse_append, List.dropWhile_append_of_pos hb']

theorem trimEndWhere_append_cons {p : Char → Bool} {d : Char} (hd : p d = false)
    (s t : List Char) : trimEndWhere p (s ++ d :: t) = s ++ d :: trimEndWhere p t := by
  have hstop : (d :: s.reverse).dropWhile p = d :: s.reverse :=
    List.dropWhile_cons_of_neg (by simp [hd])
  have hdrop : (t.reverse ++ d :: s.reverse).dropWhile p =
      t.reverse.dropWhile p ++ d :: s.reverse := by
    rw [List.dropWhile_append, hstop]
    by_cases ht : t.reverse.dropWhile p = []
    · rw [ht]
      rfl
    · rw [if_neg (by simpa using ht)]
  rw [trimEndWhere, trimEndWhere, List.reverse_append, List.reverse_cons, List.append_assoc,
    List.singleton_append, hdrop, List.reverse_append, List.reverse_cons, List.reverse_reverse,
    List.append_assoc, List.singleton_append]

theorem trim_cons_append_cons {c d : Char} (hc : isWhitespace c = false)
    (hd : isWhitespace d = false) (s t : List Char) :
    trim (c :: (s ++ d :: t)) = c :: (s ++ d :: trimEndWhere isWhitespace t) := by
  have hstart : trimStartWhere isWhitespace (c :: (s ++ d :: t)) = (c :: s) ++ d :: t := by
    rw [trimStartWhere, List.dropWhile_cons_of_neg (by simp [hc])]
    rfl
  rw [trim, hstart, trimEndWhere_append_cons hd]
  rfl

theorem exists_trim (s : List Char) :
    ∃ a b, (∀ c ∈ a, isWhitespace c = true) ∧ (∀ c ∈ b, isWhitespace c = true) ∧
      s = a ++ trim s ++ b := by
  refine ⟨s.takeWhile isWhitespace,
    ((trimStartWhere isWhitespace s).reverse.takeWhile isWhitespace).reverse, ?_, ?_, ?_⟩
  · intro c hc
    exact List.mem_takeWhile_imp hc
  · intro c hc
    exact List.mem_takeWhile_imp (List.mem_reverse.mp hc)
  · rw [trim, trimEndWhere, List.append_assoc, ← List.reverse_append,
      List.takeWhile_append_dropWhile, List.reverse_reverse, trimStartWhere,
      List.takeWhile_append_dropWhile]

/-- The words of a text, with the letters of the one being read in front. -/
def wordsFrom : List Char → List Char → List (List Char)
  | [], [] => []
  | [], word => [word]
  | c :: s, word =>
    if isWhitespace c then
      if word.isEmpty then wordsFrom s [] else word :: wordsFrom s []
    else wordsFrom s (word ++ [c])

/-- The words of a text: what stands between its white space. -/
def splitWhitespace (s : List Char) : List (List Char) := wordsFrom s []

/-- A text that is one word. -/
def IsWord (w : List Char) : Prop := w ≠ [] ∧ ∀ c ∈ w, isWhitespace c = false

theorem wordsFrom_append {w : List Char} (hw : ∀ c ∈ w, isWhitespace c = false) (s word : List Char) :
    wordsFrom (w ++ s) word = wordsFrom s (word ++ w) := by
  induction w generalizing word with
  | nil => rw [List.nil_append, List.append_nil]
  | cons c w ih =>
    rw [List.cons_append, wordsFrom, hw c List.mem_cons_self, if_neg Bool.false_ne_true,
      ih fun d hd => hw d (List.mem_cons_of_mem c hd), List.append_assoc, List.singleton_append]

theorem splitWhitespace_blank_append {b : List Char} (hb : ∀ c ∈ b, isWhitespace c = true)
    (s : List Char) : splitWhitespace (b ++ s) = splitWhitespace s := by
  induction b with
  | nil => rfl
  | cons c b ih =>
    rw [List.cons_append, splitWhitespace, wordsFrom, hb c List.mem_cons_self, if_pos rfl]
    exact ih fun d hd => hb d (List.mem_cons_of_mem c hd)

theorem wordsFrom_append_blank {b : List Char} (hb : ∀ c ∈ b, isWhitespace c = true)
    (s word : List Char) : wordsFrom (s ++ b) word = wordsFrom s word := by
  induction s generalizing word with
  | cons c s ih =>
    rw [List.cons_append, wordsFrom, wordsFrom]
    split_ifs
    · exact ih []
    · rw [ih []]
    · exact ih _
  | nil =>
    rw [List.nil_append]
    cases b with
    | nil => rfl
    | cons c b =>
      have hrest : wordsFrom b [] = [] := by
        have := splitWhitespace_blank_append (fun d hd => hb d (List.mem_cons_of_mem c hd)) []
        rwa [List.append_nil] at this
      conv_lhs => rw [wordsFrom, hb c List.mem_cons_self, if_pos rfl, hrest]
      cases word <;> rfl

/-- The words of a text are those of its trimmed form. -/
theorem splitWhitespace_trim (s : List Char) : splitWhitespace (trim s) = splitWhitespace s := by
  obtain ⟨a, b, ha, hb, hs⟩ := exists_trim s
  conv_rhs => rw [hs, splitWhitespace, wordsFrom_append_blank hb]
  exact (splitWhitespace_blank_append ha (trim s)).symm

theorem splitWhitespace_word {w : List Char} (hw : IsWord w) : splitWhitespace w = [w] := by
  obtain ⟨c, w', rfl⟩ := List.exists_cons_of_ne_nil hw.1
  rw [splitWhitespace]
  conv_lhs => rw [← List.append_nil (c :: w'), wordsFrom_append hw.2, List.nil_append]
  rfl

/-- **Words with a blank after each are the words of their text.** -/
theorem splitWhitespace_words {ws : List (List Char)} (hws : ∀ w ∈ ws, IsWord w) (s : List Char) :
    splitWhitespace ((ws.flatMap fun w => w ++ [' ']) ++ s) = ws ++ splitWhitespace s := by
  induction ws with
  | nil => rfl
  | cons w ws ih =>
    obtain ⟨hne, hw⟩ := hws w List.mem_cons_self
    have hempty : w.isEmpty = false := List.isEmpty_eq_false_iff.mpr hne
    rw [List.flatMap_cons, List.append_assoc, List.append_assoc, splitWhitespace, wordsFrom_append hw,
      List.nil_append, List.singleton_append, wordsFrom, if_pos (by decide), hempty,
      if_neg Bool.false_ne_true, List.cons_append]
    exact congrArg (w :: ·) (ih fun w' hw' => hws w' (List.mem_cons_of_mem w hw'))

theorem wordsFrom_ne_nil {word : List Char} (h : word ≠ []) (s : List Char) :
    wordsFrom s word ≠ [] := by
  induction s generalizing word with
  | nil =>
    cases word with
    | nil => exact absurd rfl h
    | cons c word => exact List.cons_ne_nil _ _
  | cons c s ih =>
    rw [wordsFrom, List.isEmpty_eq_false_iff.mpr h, if_neg Bool.false_ne_true]
    split_ifs
    · exact List.cons_ne_nil _ _
    · exact ih (by simp)

theorem trim_eq_nil_of_splitWhitespace {s : List Char} (h : splitWhitespace s = []) : trim s = [] := by
  refine trim_eq_nil.mpr fun c hc => ?_
  induction s with
  | nil => exact absurd hc List.not_mem_nil
  | cons d s ih =>
    rw [splitWhitespace, wordsFrom] at h
    split_ifs at h with hd
    · rcases List.mem_cons.mp hc with rfl | hc
      · exact hd
      · exact ih h hc
    · exact absurd h (wordsFrom_ne_nil (by simp) s)

/-- Without a carriage return at the end. -/
def dropReturn (line : List Char) : List Char :=
  if line.getLast? = some '\r' then line.dropLast else line

/-- The lines of a text, with the characters of the one being read in front. -/
def linesFrom : List Char → List Char → List (List Char)
  | [], [] => []
  | [], line => [line]
  | c :: s, line => if c = '\n' then dropReturn line :: linesFrom s [] else linesFrom s (line ++ [c])

/-- `str::lines`: what stands between the line ends, each `\n` or `\r\n`. -/
def lines (s : List Char) : List (List Char) := linesFrom s []

/-- `join("\n")`: the texts with a line end between any two. -/
def joinLines : List (List Char) → List Char
  | [] => []
  | [l] => l
  | l :: l' :: ls => l ++ '\n' :: joinLines (l' :: ls)

/-- A text that is one line, not an empty one. -/
def OneLine (l : List Char) : Prop := l ≠ [] ∧ ∀ c ∈ l, c ≠ '\n' ∧ c ≠ '\r'

theorem linesFrom_append {a : List Char} (ha : ∀ c ∈ a, c ≠ '\n') (s line : List Char) :
    linesFrom (a ++ s) line = linesFrom s (line ++ a) := by
  induction a generalizing line with
  | nil => rw [List.nil_append, List.append_nil]
  | cons c a ih =>
    rw [List.cons_append, linesFrom, if_neg (ha c (by simp)),
      ih fun d hd => ha d (List.mem_cons_of_mem c hd), List.append_assoc, List.singleton_append]

theorem dropReturn_of_oneLine {l : List Char} (hl : OneLine l) : dropReturn l = l := by
  refine if_neg fun h => ?_
  exact (hl.2 _ (List.mem_of_getLast? h)).2 rfl

/-- **The lines of joined lines are these lines.** -/
theorem lines_joinLines {ls : List (List Char)} (h : ∀ l ∈ ls, OneLine l) :
    lines (joinLines ls) = ls := by
  induction ls with
  | nil => rfl
  | cons l ls ih =>
    have hl : OneLine l := h l (by simp)
    have hls := ih fun l' hl' => h l' (List.mem_cons_of_mem l hl')
    have hend : ∀ c ∈ l, c ≠ '\n' := fun c hc => (hl.2 c hc).1
    cases ls with
    | nil =>
      obtain ⟨c, l', rfl⟩ := List.exists_cons_of_ne_nil hl.1
      rw [lines, joinLines]
      conv_lhs => rw [← List.append_nil (c :: l'), linesFrom_append hend, List.nil_append]
      rfl
    | cons l' ls =>
      rw [lines, joinLines, linesFrom_append hend, List.nil_append, linesFrom, if_pos rfl,
        dropReturn_of_oneLine hl, ← lines, hls]

/-- What stands before and after the first `c`. -/
def splitOnce (c : Char) : List Char → Option (List Char × List Char)
  | [] => none
  | d :: s => if d = c then some ([], s) else (splitOnce c s).map fun (a, b) => (d :: a, b)

def stripPrefix (c : Char) : List Char → Option (List Char)
  | [] => none
  | d :: s => if d = c then some s else none

def stripSuffix (c : Char) (s : List Char) : Option (List Char) :=
  (stripPrefix c s.reverse).map List.reverse

theorem stripSuffix_eq_some {c : Char} {s t : List Char} :
    stripSuffix c s = some t ↔ s = t ++ [c] := by
  rcases List.eq_nil_or_concat s with rfl | ⟨u, d, rfl⟩
  · simp [stripSuffix, stripPrefix]
  · by_cases hd : d = c
    · simp [stripSuffix, stripPrefix, hd]
    · simp [stripSuffix, stripPrefix, hd]

/-- `str::parse` of an unsigned number below a bound. -/
def parseUnsigned (bound : ℕ) (s : List Char) : Option ℕ :=
  let digits := (stripPrefix '+' s).getD s
  if digits.isEmpty || !digits.all Char.isDigit then none
  else
    let n := digits.foldl (fun n c => 10 * n + (c.toNat - 48)) 0
    if n < bound then some n else none

/-- `char::escape_debug`; characters beyond ASCII are taken as printable. -/
def escapeDebug (c : Char) : String :=
  match c with
  | '\x00' => "\\0"
  | '\t' => "\\t"
  | '\r' => "\\r"
  | '\n' => "\\n"
  | '"' => "\\\""
  | '\\' => "\\\\"
  | c =>
    if c.toNat < 32 ∨ c.toNat = 127 then
      "\\u\x7b" ++ String.ofList (Nat.toDigits 16 c.toNat) ++ "\x7d"
    else c.toString

end RustyTune.Text
