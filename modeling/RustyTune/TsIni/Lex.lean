import RustyTune.Lib.Text
import RustyTune.TsIni.Model

/-!
# Lines and tokens

The value side of `key = v1, v2, ...`: values are separated by commas, but not by those within quotes
or braces.

* `ParseError`: the line, and what is wrong with it.
* `splitKv`, `tokenize`: the key of a line and the tokens of its values.
* `parseShape`, `DataType.parse`: the values with a form of their own.
* **`tokenize_eq_nil`**: there are no tokens where there is no value, and only there.
-/

namespace RustyTune.TsIni

/-- Where parsing fails, and why. -/
structure ParseError where
  line : ℕ
  message : String
  deriving DecidableEq, Repr

def ParseError.display (e : ParseError) : String := s!"line {e.line}: {e.message}"

inductive Token
  /-- A word without quotes: an identifier, a number, a shape. -/
  | bare (s : String)
  /-- The text between quotes. -/
  | str (s : String)
  /-- The text between braces. -/
  | expr (s : String)
  deriving DecidableEq, Repr

namespace Token

def asStr : Token → String
  | bare s | str s | expr s => s

variable {F : Type} [F64 F]

/-- The number of a bare word. -/
def number (num : ℕ) : Token → Except ParseError F
  | bare s =>
    match F64.parse s with
    | some x => .ok x
    | none => .error ⟨num, s!"expected a number, got `{s}`"⟩
  | t => .error ⟨num, s!"expected a number, got `{t.asStr}`"⟩

end Token

/-! ## Keys -/

/-- The first `=` outside quotes, with the characters before it in front. -/
def splitKvFrom (before : List Char) (inQuote : Bool) :
    List Char → Option (List Char × List Char)
  | [] => none
  | c :: s =>
    if c = '"' then splitKvFrom (before ++ [c]) (!inQuote) s
    else if c = '=' ∧ inQuote = false then some (Text.trim before, Text.trim s)
    else splitKvFrom (before ++ [c]) inQuote s

/-- Key and value text of a line. -/
def splitKv (line : List Char) : Option (List Char × List Char) := splitKvFrom [] false line

theorem splitKv_trimmed {line key rest : List Char} (h : splitKv line = some (key, rest)) :
    ∃ s, rest = Text.trim s := by
  suffices ∀ (s before : List Char) (inQuote : Bool),
      splitKvFrom before inQuote s = some (key, rest) → ∃ s, rest = Text.trim s from this _ _ _ h
  intro s
  induction s with
  | nil => exact fun _ _ h => nomatch h
  | cons c s ih =>
    intro before inQuote h
    unfold splitKvFrom at h
    split_ifs at h
    · exact ih _ _ h
    · obtain ⟨-, rfl⟩ := Prod.mk.inj (Option.some.inj h)
      exact ⟨s, rfl⟩
    · exact ih _ _ h

/-! ## Tokens -/

/-- The token of a piece between commas. -/
def pieceToken (num : ℕ) (piece : List Char) : Except ParseError Token :=
  match Text.trim piece with
  | '"' :: rest =>
    match Text.stripSuffix '"' rest with
    | some inner => .ok (.str (String.ofList inner))
    | none => .error ⟨num, "text after closing quote"⟩
  | '{' :: rest =>
    match Text.stripSuffix '}' rest with
    | some inner => .ok (.expr (String.ofList (Text.trim inner)))
    | none => .error ⟨num, "text after closing `\x7d`"⟩
  | piece => .ok (.bare (String.ofList piece))

/-- The tokens so far, and the piece being read. -/
structure Lexer where
  tokens : List Token
  piece : List Char
  inQuote : Bool
  escaped : Bool
  braceDepth : ℕ

namespace Lexer

def start : Lexer := ⟨[], [], false, false, 0⟩

/-- The piece read so far is a token. -/
def pushPiece (num : ℕ) (s : Lexer) : Except ParseError Lexer := do
  return { s with tokens := s.tokens ++ [← pieceToken num s.piece], piece := [] }

/-- The character belongs to the piece. -/
def take (s : Lexer) (c : Char) : Lexer := { s with piece := s.piece ++ [c] }

def step (num : ℕ) (s : Lexer) (c : Char) : Except ParseError Lexer :=
  if s.inQuote then
    let s := s.take c
    if s.escaped then .ok { s with escaped := false }
    else if c = '\\' then .ok { s with escaped := true }
    else if c = '"' then .ok { s with inQuote := false }
    else .ok s
  else if c = '"' then .ok { s.take c with inQuote := true }
  else if c = '{' then do
    -- a condition may follow a value without a comma
    let s ← if s.braceDepth = 0 ∧ Text.trim s.piece ≠ [] then s.pushPiece num else pure s
    return { s.take c with braceDepth := s.braceDepth + 1 }
  else if c = '}' then
    match s.braceDepth with
    | 0 => .error ⟨num, "unbalanced `\x7d`"⟩
    | depth + 1 => .ok { s.take c with braceDepth := depth }
  else if c = ',' ∧ s.braceDepth = 0 then s.pushPiece num
  else .ok (s.take c)

end Lexer

/-- The tokens of a value text; none for an empty one. -/
def tokenize (num : ℕ) (values : List Char) : Except ParseError (List Token) := do
  let s ← values.foldlM (Lexer.step num) Lexer.start
  if s.inQuote then throw ⟨num, "unterminated string"⟩
  if s.braceDepth ≠ 0 then throw ⟨num, "unterminated `\x7b` expression"⟩
  let s ← s.pushPiece num
  return if s.tokens = [.bare ""] then [] else s.tokens

def Blank (s : List Char) : Prop := ∀ c ∈ s, Text.isWhitespace c = true

theorem plain_of_isWhitespace {c : Char} (hc : Text.isWhitespace c = true) :
    c ≠ '"' ∧ c ≠ '\x7b' ∧ c ≠ '\x7d' ∧ c ≠ ',' := by
  refine ⟨?_, ?_, ?_, ?_⟩ <;> rintro rfl <;> exact absurd hc (by decide)

namespace Lexer

variable {num : ℕ}

theorem pushPiece_cases {s s' : Lexer} (h : s.pushPiece num = .ok s') :
    ∃ t, pieceToken num s.piece = .ok t ∧ s' = { s with tokens := s.tokens ++ [t], piece := [] } := by
  unfold pushPiece at h
  cases hp : pieceToken num s.piece with
  | error e => simp [hp, bind, Except.bind] at h
  | ok t =>
    rw [hp] at h
    cases h
    exact ⟨t, rfl, rfl⟩

theorem pushPiece_tokens_ne_nil {num : ℕ} {s s' : Lexer} (h : s.pushPiece num = .ok s') :
    s'.tokens ≠ [] := by
  obtain ⟨t, -, rfl⟩ := pushPiece_cases h
  simp

/-- As long as there is no token, nothing has left the piece. -/
theorem step_piece {num : ℕ} {s s' : Lexer} {c : Char} (h : s.step num c = .ok s')
    (hs : s'.tokens = []) : s.tokens = [] ∧ s'.piece = s.piece ++ [c] := by
  have htake {s1 : Lexer} (h : (.ok s1 : Except ParseError Lexer) = .ok s')
      (h1 : s1.tokens = s.tokens ∧ s1.piece = s.piece ++ [c]) :
      s.tokens = [] ∧ s'.piece = s.piece ++ [c] := by
    cases h
    exact ⟨h1.1 ▸ hs, h1.2⟩
  unfold step at h
  split at h
  · -- within quotes every character belongs to the piece
    dsimp only at h
    split_ifs at h <;> exact htake h ⟨rfl, rfl⟩
  · split at h
    · exact htake h ⟨rfl, rfl⟩
    · split at h
      · split_ifs at h
        · cases hp : s.pushPiece num with
          | error e => rw [hp] at h; exact nomatch h
          | ok s1 =>
            rw [hp] at h
            cases h
            exact absurd (show s1.tokens = [] from hs) (pushPiece_tokens_ne_nil hp)
        · exact htake h ⟨rfl, rfl⟩
      · split at h
        · split at h
          · exact nomatch h
          · exact htake h ⟨rfl, rfl⟩
        · split at h
          · exact absurd hs (pushPiece_tokens_ne_nil h)
          · exact htake h ⟨rfl, rfl⟩

theorem foldlM_piece {num : ℕ} {s s' : Lexer} {values : List Char}
    (h : values.foldlM (step num) s = .ok s') (hs : s'.tokens = []) :
    s.tokens = [] ∧ s'.piece = s.piece ++ values := by
  induction values generalizing s with
  | nil =>
    cases h
    exact ⟨hs, (List.append_nil _).symm⟩
  | cons c values ih =>
    rw [List.foldlM_cons] at h
    cases hc : s.step num c with
    | error e => rw [hc] at h; exact nomatch h
    | ok s1 =>
      rw [hc] at h
      obtain ⟨h1, hpiece⟩ := ih h
      obtain ⟨h0, hpiece1⟩ := step_piece hc h1
      exact ⟨h0, by rw [hpiece, hpiece1, List.append_assoc]; rfl⟩

/-- Characters without a meaning of their own belong to the piece. -/
theorem foldlM_plain {w : List Char}
    (h : ∀ c ∈ w, c ≠ '"' ∧ c ≠ '\x7b' ∧ c ≠ '\x7d' ∧ c ≠ ',') (s : Lexer) (rest : List Char)
    (hq : s.inQuote = false) :
    (w ++ rest).foldlM (step num) s =
      rest.foldlM (step num) { s with piece := s.piece ++ w } := by
  induction w generalizing s with
  | nil => simp
  | cons c w ih =>
    have hstep : step num s c = .ok (s.take c) := by
      simp [step, take, hq, h c List.mem_cons_self]
    rw [List.cons_append, List.foldlM_cons, hstep]
    refine (ih (fun d hd => h d (List.mem_cons_of_mem c hd)) (s.take c) hq).trans ?_
    simp [take]

theorem foldlM_gap {gap : List Char} (h : Blank gap) (s : Lexer) (rest : List Char)
    (hq : s.inQuote = false) :
    (gap ++ rest).foldlM (step num) s =
      rest.foldlM (step num) { s with piece := s.piece ++ gap } :=
  foldlM_plain (fun c hc => plain_of_isWhitespace (h c hc)) s rest hq

end Lexer

theorem pieceToken_eq_blank {num : ℕ} {piece : List Char}
    (h : pieceToken num piece = .ok (.bare "")) : Text.trim piece = [] := by
  unfold pieceToken at h
  split at h
  · split at h <;> exact nomatch h
  · split at h <;> exact nomatch h
  · have := congrArg String.toList (Token.bare.inj (Except.ok.inj h))
    rwa [String.toList_ofList] at this

/-- **There are no tokens where there is no value, and only there.** -/
theorem tokenize_eq_nil {num : ℕ} {values : List Char} :
    tokenize num values = .ok [] ↔ Text.trim values = [] := by
  constructor
  · intro h
    unfold tokenize at h
    cases hs : values.foldlM (Lexer.step num) Lexer.start with
    | error e => rw [hs] at h; exact nomatch h
    | ok s =>
      rw [hs] at h
      change (if s.inQuote then _ else _) = _ at h
      split_ifs at h
      · exact nomatch h
      · exact nomatch h
      · exact nomatch h
      · cases hp : s.pushPiece num with
        | error e => simp [hp, bind, Except.bind] at h
        | ok s1 =>
          rw [hp] at h
          have hnil : (if s1.tokens = [.bare ""] then [] else s1.tokens) = [] := Except.ok.inj h
          split_ifs at hnil with hbare
          · obtain ⟨t, ht, rfl⟩ := Lexer.pushPiece_cases hp
            obtain ⟨hno, rfl⟩ : s.tokens = [] ∧ t = .bare "" := by
              simpa using List.append_eq_singleton_iff.mp hbare
            have hpiece := (Lexer.foldlM_piece hs hno).2
            rw [pieceToken_eq_blank (hpiece ▸ ht)]
          · exact absurd hnil (Lexer.pushPiece_tokens_ne_nil hp)
  · intro h
    have hblank := @Lexer.foldlM_gap num values (Text.trim_eq_nil.mp h) Lexer.start [] rfl
    rw [List.append_nil] at hblank
    have hpiece : pieceToken num values = .ok (.bare "") := by rw [pieceToken, h]
    unfold tokenize
    rw [hblank]
    change (do let s ← Lexer.pushPiece num { Lexer.start with piece := values }
               pure (if s.tokens = [Token.bare ""] then [] else s.tokens)) = _
    rw [Lexer.pushPiece, hpiece]
    rfl

/-! ## Shapes and types -/

/-- A `[...]` token. -/
def parseShape (num : ℕ) (token : String) : Except ParseError Shape :=
  match (Text.stripPrefix '[' (Text.trim token.toList)).bind (Text.stripSuffix ']') with
  | none => .error ⟨num, s!"expected `[shape]`, got `{token}`"⟩
  | some inner =>
    let inner := Text.trim inner
    let bad : Except ParseError Shape :=
      .error ⟨num, s!"malformed shape `[{String.ofList inner}]`"⟩
    let number (bound : ℕ) (s : List Char) : Option ℕ := Text.parseUnsigned bound (Text.trim s)
    match Text.splitOnce ':' inner with
    | some (lo, hi) =>
      match number 256 lo, number 256 hi with
      | some lo, some hi => .ok (.bits (UInt8.ofNat lo) (UInt8.ofNat hi))
      | _, _ => bad
    | none =>
      match Text.splitOnce 'x' inner with
      | some (x, y) =>
        match number 65536 x, number 65536 y with
        | some x, some y => .ok (.array2D (UInt16.ofNat x) (UInt16.ofNat y))
        | _, _ => bad
      | none =>
        match Text.parseUnsigned 65536 inner with
        | some n => .ok (.array1D (UInt16.ofNat n))
        | none => bad

def DataType.parse (num : ℕ) : String → Except ParseError DataType
  | "U08" => .ok u08
  | "S08" => .ok s08
  | "U16" => .ok u16
  | "S16" => .ok s16
  | "U32" => .ok u32
  | "S32" => .ok s32
  | "ASCII" => .ok ascii
  | other => .error ⟨num, s!"unknown data type `{other}`"⟩

end RustyTune.TsIni
