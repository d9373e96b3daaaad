import RustyTune.TsIni.Lex

/-!
# Parsing expressions

* `Tok`, `scan`: the tokens of an expression's text.
* `expression`, `primary`: recursive descent with binding powers, `lbp`.
* `parseExpr`: an expression from its text.
* **`parseExpr_returns`**: it ends in an expression or an error; the recursion is never deeper than
  twice the number of tokens, and `fuel` never runs out.
-/

namespace RustyTune.TsIni

variable {F : Type} [F64 F]

/-- Parsing: a result, an error, or an abort. -/
abbrev Parse (α : Type) : Type := ExceptT ParseError Exec α

def liftParse {α : Type} (x : Except ParseError α) : Parse α := ExceptT.mk (.ok x)

instance {α : Type} : Coe (Except ParseError α) (Parse α) := ⟨liftParse⟩

/-! ## Tokens -/

inductive Tok (F : Type)
  | num (n : F)
  | str (s : String)
  | ident (name : String)
  | op (s : String)
  deriving DecidableEq, Repr

def twoOp : Char → Char → Option String
  | '&', '&' => some "&&"
  | '|', '|' => some "||"
  | '=', '=' => some "=="
  | '!', '=' => some "!="
  | '<', '=' => some "<="
  | '>', '=' => some ">="
  | '<', '<' => some "<<"
  | '>', '>' => some ">>"
  | _, _ => none

def oneOp (c : Char) : Option String :=
  if c ∈ ['+', '-', '*', '/', '%', '(', ')', ',', '?', ':', '<', '>', '!', '&', '|', '^', '[', ']'] then
    some c.toString
  else none

/-- A letter at the start of a name, and one within it. -/
def isIdentStart (c : Char) : Bool := c.isAlpha || c == '_'

def isIdentChar (c : Char) : Bool := c.isAlphanum || c == '_' || c == '.'

def isNumberChar (c : Char) : Bool := c.isDigit || c == '.'

/-- What stands at a character of the text, and how many of the characters after it belong to it. -/
def scanOne (num : ℕ) (text : String) (c : Char) (s : List Char) :
    Except ParseError (Option (Tok F) × ℕ) :=
  if Text.isWhitespace c then .ok (none, 0)
  else if isNumberChar c then
    let digits := s.takeWhile isNumberChar
    match F64.parse (String.ofList (c :: digits)) with
    | some n => .ok (some (.num n), digits.length)
    | none => .error ⟨num, s!"bad number `{String.ofList (c :: digits)}` in \x7b {text} \x7d"⟩
  else if isIdentStart c then
    let name := s.takeWhile isIdentChar
    .ok (some (.ident (String.ofList (c :: name))), name.length)
  else if c = '"' then
    match Text.splitOnce '"' s with
    | some (inner, _) => .ok (some (.str (String.ofList inner)), inner.length + 1)
    | none => .error ⟨num, s!"unterminated string in \x7b {text} \x7d"⟩
  else
    match s.head?.bind (twoOp c) with
    | some op => .ok (some (.op op), 1)
    | none =>
      match oneOp c with
      | some op => .ok (some (.op op), 0)
      | none => .error ⟨num, s!"unexpected `{c}` in \x7b {text} \x7d"⟩

/-- The tokens from a character on; `skip` characters belong to a token that is read already. -/
def scanFrom (num : ℕ) (text : String) : ℕ → List Char → Except ParseError (List (Tok F))
  | _, [] => .ok []
  | skip + 1, _ :: s => scanFrom num text skip s
  | 0, c :: s => do
    let (tok, skip) ← scanOne num text c s
    return tok.toList ++ (← scanFrom num text skip s)

def scan (num : ℕ) (text : String) : Except ParseError (List (Tok F)) :=
  scanFrom num text 0 text.toList

/-! ## The grammar -/

/-- The left binding power of a binary operator. -/
def lbp : String → Option (ℕ × BinOp)
  | "||" => some (1, .or)
  | "&&" => some (2, .and)
  | "|" => some (3, .bitOr)
  | "^" => some (4, .bitXor)
  | "&" => some (5, .bitAnd)
  | "==" => some (6, .eq)
  | "!=" => some (6, .ne)
  | "<" => some (7, .lt)
  | ">" => some (7, .gt)
  | "<=" => some (7, .le)
  | ">=" => some (7, .ge)
  | "<<" => some (8, .shl)
  | ">>" => some (8, .shr)
  | "+" => some (9, .add)
  | "-" => some (9, .sub)
  | "*" => some (10, .mul)
  | "/" => some (10, .div)
  | "%" => some (10, .rem)
  | _ => none

section Parser

variable (num : ℕ) (text : String)

/-- An error about the whole text. -/
def parserErr {α : Type} (msg : String) : Parse α :=
  throw ⟨num, s!"{msg} in \x7b {text} \x7d"⟩

/-- What is parsed from the front of the tokens, and the tokens left. -/
abbrev Parsed (F : Type) := Expr F × List (Tok F)

omit [F64 F] in
def expectOp (op : String) : List (Tok F) → Parse (List (Tok F))
  | .op o :: toks => if o = op then return toks else parserErr num text s!"expected `{op}`"
  | _ => parserErr num text s!"expected `{op}`"

mutual

/-- An expression whose operators bind at least as strongly as `minBp`. -/
def expression : ℕ → ℕ → List (Tok F) → Parse (Parsed F)
  | 0, _, _ => (.error .stackOverflow : Exec _)
  | fuel + 1, minBp, toks => do
    let (lhs, toks) ← primary fuel toks
    operators fuel minBp lhs toks

/-- The operators that follow an operand. -/
def operators : ℕ → ℕ → Expr F → List (Tok F) → Parse (Parsed F)
  | 0, _, _, _ => (.error .stackOverflow : Exec _)
  | fuel + 1, minBp, lhs, .op "?" :: toks =>
    if 0 < minBp then return (lhs, .op "?" :: toks)
    else do
      let (then_, toks) ← expression fuel 0 toks
      let toks ← expectOp num text ":" toks
      let (alt, toks) ← expression fuel 0 toks
      operators fuel minBp (.ternary lhs then_ alt) toks
  | fuel + 1, minBp, lhs, .op op :: toks =>
    match lbp op with
    | none => return (lhs, .op op :: toks)
    | some (bp, binop) =>
      if bp < minBp then return (lhs, .op op :: toks)
      else do
        let (rhs, toks) ← expression fuel (bp + 1) toks
        operators fuel minBp (.binary binop lhs rhs) toks
  | _ + 1, _, lhs, toks => return (lhs, toks)

def primary : ℕ → List (Tok F) → Parse (Parsed F)
  | 0, _ => (.error .stackOverflow : Exec _)
  | _ + 1, .num n :: toks => return (.num n, toks)
  | _ + 1, .str s :: toks => return (.str s, toks)
  | fuel + 1, .ident name :: .op "[" :: toks => do
    let (idx, toks) ← expression fuel 0 toks
    let toks ← expectOp num text "]" toks
    return (.index name idx, toks)
  | _ + 1, .ident name :: .op "(" :: .op ")" :: toks => return (.call name [], toks)
  | fuel + 1, .ident name :: .op "(" :: toks => do
    let (args, toks) ← arguments fuel toks
    return (.call name args, toks)
  | _ + 1, .ident name :: toks => return (.ident name, toks)
  | fuel + 1, .op "(" :: toks => do
    let (e, toks) ← expression fuel 0 toks
    let toks ← expectOp num text ")" toks
    return (e, toks)
  | fuel + 1, .op "-" :: toks => do
    let (e, toks) ← primary fuel toks
    return (.unary .neg e, toks)
  | fuel + 1, .op "!" :: toks => do
    let (e, toks) ← primary fuel toks
    return (.unary .not e, toks)
  | _ + 1, _ => parserErr num text "expected a value"

/-- The arguments of a call, up to its closing parenthesis. -/
def arguments : ℕ → List (Tok F) → Parse (List (Expr F) × List (Tok F))
  | 0, _ => (.error .stackOverflow : Exec _)
  | fuel + 1, toks => do
    let (arg, toks) ← expression fuel 0 toks
    match toks with
    | .op "," :: toks => do
      let (args, toks) ← arguments fuel toks
      return (arg :: args, toks)
    | .op ")" :: toks => return ([arg], toks)
    | _ => parserErr num text "expected `,` or `)`"

end

end Parser

def parseExpr (num : ℕ) (text : String) : Parse (Expr F) := do
  let toks ← (scan num text : Except _ (List (Tok F)))
  let (e, rest) ← expression num text (2 * toks.length + 2) 0 toks
  if rest = [] then return e else parserErr num text "trailing input"

/-! ## The parser returns -/

section Returns

variable {num : ℕ} {text : String}

omit [F64 F] in
theorem ends_liftParse {α : Type} {P : α → Prop} {x : Except ParseError α}
    (h : ∀ a, x = .ok a → P a) : Exec.Ends (liftParse x) P := Exec.ends_mk h

omit [F64 F] in
theorem ends_parserErr {α : Type} {P : α → Prop} (msg : String) :
    Exec.Ends (parserErr num text msg) P := Exec.ends_throw _

omit [F64 F] in
theorem ends_expectOp (op : String) (toks : List (Tok F)) :
    Exec.Ends (expectOp num text op toks) fun rest => rest.length < toks.length := by
  unfold expectOp
  split
  · split_ifs
    · exact Exec.ends_pure (Nat.lt_succ_self _)
    · exact ends_parserErr _
  · exact ends_parserErr _

variable (F num text) in
/-- With this much fuel every part of the grammar ends, and what consumes a token leaves fewer. -/
structure Returns (fuel : ℕ) : Prop where
  expression : ∀ minBp (toks : List (Tok F)), 2 * toks.length + 2 ≤ fuel →
    Exec.Ends (expression num text fuel minBp toks) fun r => r.2.length < toks.length
  operators : ∀ minBp lhs (toks : List (Tok F)), 2 * toks.length + 1 ≤ fuel →
    Exec.Ends (operators num text fuel minBp lhs toks) fun r => r.2.length ≤ toks.length
  primary : ∀ toks : List (Tok F), 2 * toks.length + 1 ≤ fuel →
    Exec.Ends (primary num text fuel toks) fun r => r.2.length < toks.length
  arguments : ∀ toks : List (Tok F), 2 * toks.length + 3 ≤ fuel →
    Exec.Ends (arguments num text fuel toks) fun r => r.2.length < toks.length

namespace Returns

variable {fuel : ℕ} (h : Returns F num text fuel)
include h

omit [F64 F] in
theorem expression_succ (minBp : ℕ) (toks : List (Tok F)) (hf : 2 * toks.length + 2 ≤ fuel + 1) :
    Exec.Ends (TsIni.expression num text (fuel + 1) minBp toks)
      fun r => r.2.length < toks.length := by
  unfold TsIni.expression
  refine (h.primary toks (by omega)).bind fun ⟨lhs, rest⟩ hrest => ?_
  exact (h.operators minBp lhs rest (by dsimp only at hrest; omega)).mono fun r hr =>
    Nat.lt_of_le_of_lt hr hrest

omit [F64 F] in
theorem operators_succ (minBp : ℕ) (lhs : Expr F) (toks : List (Tok F))
    (hf : 2 * toks.length + 1 ≤ fuel + 1) :
    Exec.Ends (TsIni.operators num text (fuel + 1) minBp lhs toks)
      fun r => r.2.length ≤ toks.length := by
  unfold TsIni.operators
  split
  case h_1 heq => exact nomatch heq
  case h_2 toks heq =>
    obtain rfl := Nat.succ.inj heq
    rw [List.length_cons] at hf ⊢
    split_ifs
    · exact Exec.ends_pure (Nat.le_refl _)
    · refine (h.expression 0 toks (by omega)).bind fun ⟨then_, rest⟩ h1 => ?_
      refine (ends_expectOp ":" rest).bind fun rest' h2 => ?_
      dsimp only at h1
      refine (h.expression 0 rest' (by omega)).bind fun ⟨alt, rest''⟩ h3 => ?_
      dsimp only at h3
      exact (h.operators _ _ rest'' (by omega)).mono fun r hr => by omega
  case h_3 op toks _ heq =>
    obtain rfl := Nat.succ.inj heq
    rw [List.length_cons] at hf ⊢
    split
    · exact Exec.ends_pure (Nat.le_refl _)
    · split_ifs
      · exact Exec.ends_pure (Nat.le_refl _)
      · refine (h.expression _ toks (by omega)).bind fun ⟨rhs, rest⟩ h1 => ?_
        dsimp only at h1
        exact (h.operators _ _ rest (by omega)).mono fun r hr => by omega
  case h_4 => exact Exec.ends_pure (Nat.le_refl _)

omit [F64 F] in
theorem closed {α : Type} (close : String) (f : Expr F → α) (toks : List (Tok F))
    (hf : 2 * toks.length + 2 ≤ fuel) :
    Exec.Ends
      (do
        let (e, toks) ← TsIni.expression num text fuel 0 toks
        let toks ← expectOp num text close toks
        return (f e, toks) : Parse (α × List (Tok F)))
      fun r => r.2.length < toks.length := by
  refine (h.expression 0 toks hf).bind fun ⟨e, rest⟩ h1 => ?_
  refine (ends_expectOp close rest).bind fun rest' h2 => Exec.ends_pure ?_
  exact Nat.lt_trans h2 h1

omit [F64 F] in
theorem primary_succ (toks : List (Tok F)) (hf : 2 * toks.length + 1 ≤ fuel + 1) :
    Exec.Ends (TsIni.primary num text (fuel + 1) toks) fun r => r.2.length < toks.length := by
  unfold TsIni.primary
  split
  case h_1 heq => exact nomatch heq
  case h_2 | h_3 | h_7 => exact Exec.ends_pure (Nat.lt_succ_self _)
  case h_5 => exact Exec.ends_pure (by simp only [List.length_cons]; omega)
  case h_4 name toks heq =>
    obtain rfl := Nat.succ.inj heq
    simp only [List.length_cons] at hf ⊢
    exact (h.closed "]" (Expr.index name) toks (by omega)).mono fun r hr => by omega
  case h_6 name toks _ heq =>
    obtain rfl := Nat.succ.inj heq
    simp only [List.length_cons] at hf ⊢
    refine (h.arguments toks (by omega)).bind fun ⟨args, rest⟩ h1 => Exec.ends_pure ?_
    dsimp only at h1 ⊢
    omega
  case h_8 toks heq =>
    obtain rfl := Nat.succ.inj heq
    simp only [List.length_cons] at hf ⊢
    exact (h.closed ")" id toks (by omega)).mono fun r hr => by omega
  case h_9 toks heq | h_10 toks heq =>
    obtain rfl := Nat.succ.inj heq
    simp only [List.length_cons] at hf ⊢
    refine (h.primary toks (by omega)).bind fun ⟨e, rest⟩ h1 => Exec.ends_pure ?_
    dsimp only at h1 ⊢
    omega
  case h_11 => exact ends_parserErr _

omit [F64 F] in
theorem arguments_succ (toks : List (Tok F)) (hf : 2 * toks.length + 3 ≤ fuel + 1) :
    Exec.Ends (TsIni.arguments num text (fuel + 1) toks) fun r => r.2.length < toks.length := by
  unfold TsIni.arguments
  refine (h.expression 0 toks (by omega)).bind fun ⟨arg, rest⟩ h1 => ?_
  dsimp only at h1 ⊢
  split
  · next rest' =>
    rw [List.length_cons] at h1
    refine (h.arguments rest' (by omega)).bind fun ⟨args, rest''⟩ h2 => ?_
    dsimp only at h2
    exact Exec.ends_pure (by dsimp only; omega)
  · next rest' =>
    rw [List.length_cons] at h1
    exact Exec.ends_pure (by dsimp only; omega)
  · exact ends_parserErr _

end Returns

variable (F num text) in
omit [F64 F] in
/-- Every part of the grammar ends, by induction on the fuel. -/
theorem returns (fuel : ℕ) : Returns F num text fuel := by
  induction fuel with
  | zero =>
    constructor <;> intros <;> omega
  | succ fuel ih =>
    exact ⟨ih.expression_succ, ih.operators_succ, ih.primary_succ, ih.arguments_succ⟩

/-- **Parsing an expression ends in an expression or an error.** -/
theorem parseExpr_returns (num : ℕ) (text : String) :
    Exec.Ends (parseExpr num text : Parse (Expr F)) fun _ => True := by
  unfold parseExpr
  refine (ends_liftParse fun _ _ => trivial).bind fun toks _ => ?_
  refine ((returns F num text _).expression 0 toks (Nat.le_refl _)).bind fun ⟨e, rest⟩ _ => ?_
  dsimp only
  split_ifs
  · exact Exec.ends_pure trivial
  · exact ends_parserErr _

end Returns

end RustyTune.TsIni
