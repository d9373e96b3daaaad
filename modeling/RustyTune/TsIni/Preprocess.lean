import RustyTune.TsIni.Lex

/-!
# The preprocessor

Comments go, `$name` is replaced by its `#define`, and of `#if` chains the branch stays that the set of
symbols selects.

* `Line`: a line that stays, with its number in the source.
* `stripComment`, `expand`: what is done to a line.
* `directive`: what a `#` line does to `Preproc`, the symbols, the defines and the open `#if` chains.
* `preprocess`: all lines of a source.
-/

namespace RustyTune.TsIni

structure Line where
  /-- Counted from 1 in the source; `u32` there, and here without a bound. -/
  num : ℕ
  text : List Char
  deriving DecidableEq, Repr

/-! ## Lines -/

/-- Up to the first `;` outside quotes. -/
def stripCommentFrom : Bool → Bool → List Char → List Char
  | _, _, [] => []
  | inQuote, true, c :: s => c :: stripCommentFrom inQuote false s
  | inQuote, false, c :: s =>
    if c = '\\' ∧ inQuote = true then c :: stripCommentFrom inQuote true s
    else if c = '"' then c :: stripCommentFrom (!inQuote) false s
    else if c = ';' ∧ inQuote = false then []
    else c :: stripCommentFrom inQuote false s

def stripComment (line : List Char) : List Char := stripCommentFrom false false line

/-- A word and what follows it. -/
def splitWord (s : List Char) : List Char × List Char :=
  let s := Text.trim s
  (s.takeWhile fun c => !Text.isWhitespace c, s.dropWhile fun c => !Text.isWhitespace c)

/-- A letter of a name after `$`. -/
def isDefineChar (c : Char) : Bool := c.isAlphanum || c == '_'

/-- The text `$name` stands for; a `$` alone stands for itself. -/
def defineBody (defines : List (List Char × List Char)) (num : ℕ) (name : List Char) :
    Except ParseError (List Char) :=
  if name = [] then .ok ['$']
  else
    match defines.lookup name with
    | some body => .ok body
    | none => .error ⟨num, s!"undefined ${String.ofList name}"⟩

/-- `expand` from a character on; `escaped`: a backslash stands before it, `skip`: so many characters
belong to a name that is read already. -/
def expandFrom (defines : List (List Char × List Char)) (num : ℕ) :
    Bool → ℕ → List Char → Except ParseError (List Char)
  | _, _, [] => .ok []
  | escaped, skip + 1, _ :: s => expandFrom defines num escaped skip s
  | escaped, 0, c :: s =>
    if c = '$' ∧ escaped = false then do
      let name := s.takeWhile isDefineChar
      let body ← defineBody defines num name
      return body ++ (← expandFrom defines num false name.length s)
    else do return c :: (← expandFrom defines num (c == '\\') 0 s)

/-- Replace each `$name` that no backslash precedes. -/
def expand (defines : List (List Char × List Char)) (num : ℕ) (text : List Char) :
    Except ParseError (List Char) := expandFrom defines num false 0 text

theorem expandFrom_of_notMem {defines : List (List Char × List Char)} {num : ℕ} {text : List Char}
    (h : '$' ∉ text) (escaped : Bool) : expandFrom defines num escaped 0 text = .ok text := by
  induction text generalizing escaped with
  | nil => rfl
  | cons c s ih =>
    obtain ⟨hc, hs⟩ := not_or.mp (mt List.mem_cons.mpr h)
    rw [expandFrom, if_neg (fun hd => hc hd.1.symm), ih hs]
    rfl

/-- What the source returns early. -/
theorem expand_of_notMem {defines : List (List Char × List Char)} {num : ℕ} {text : List Char}
    (h : '$' ∉ text) : expand defines num text = .ok text :=
  expandFrom_of_notMem h false

theorem defineBody_nil {num : ℕ} {name body : List Char} (h : defineBody [] num name = .ok body) :
    name = [] ∧ body = ['$'] := by
  rw [defineBody] at h
  split_ifs at h with hname
  · exact ⟨hname, (Except.ok.inj h).symm⟩
  · cases h

/-- With no defines nothing is replaced: a `$` that is accepted stands for itself. -/
theorem expand_nil {num : ℕ} {text out : List Char} (h : expand [] num text = .ok out) : out = text := by
  suffices ∀ (s : List Char) (escaped : Bool) (out : List Char),
      expandFrom [] num escaped 0 s = .ok out → out = s from this text false out h
  intro s
  induction s with
  | nil => exact fun _ _ h => (Except.ok.inj h).symm
  | cons c s ih =>
    intro escaped out h
    rw [expandFrom] at h
    split_ifs at h with hc
    · obtain ⟨body, hbody, h⟩ := except_bind_eq_ok.mp h
      obtain ⟨hname, rfl⟩ := defineBody_nil hbody
      rw [hname] at h
      obtain ⟨rest, hrest, h⟩ := except_bind_eq_ok.mp h
      rw [← Except.ok.inj h, ih _ _ hrest, hc.1]
      rfl
    · obtain ⟨rest, hrest, h⟩ := except_bind_eq_ok.mp h
      rw [← Except.ok.inj h, ih _ _ hrest]

/-! ## Directives -/

/-- An open `#if` chain. -/
structure IfFrame where
  /-- This branch is emitted. -/
  active : Bool
  /-- A branch was taken already. -/
  taken : Bool
  /-- What encloses the chain is emitted. -/
  parentActive : Bool
  deriving DecidableEq, Repr

structure Preproc where
  symbols : List (List Char)
  /-- The latest first. -/
  defines : List (List Char × List Char)
  /-- The innermost first. -/
  stack : List IfFrame
  deriving DecidableEq, Repr

/-- A symbol's name, true when it is set; `!` in front negates. -/
def evalCondition (symbols : List (List Char)) (num : ℕ) (cond : List Char) :
    Except ParseError Bool :=
  match Text.trim cond with
  | [] => .error ⟨num, "#if with empty condition"⟩
  | '!' :: name => .ok (!symbols.contains (Text.trim name))
  | name => .ok (symbols.contains name)

theorem evalCondition_name {symbols : List (List Char)} {num : ℕ} {cond name : List Char} {c : Char}
    (h : Text.trim cond = c :: name) (hc : c ≠ '!') :
    evalCondition symbols num cond = .ok (decide (c :: name ∈ symbols)) := by
  rw [evalCondition, h]
  split
  · cases ‹c :: name = []›
  · next heq => exact absurd (List.cons.inj heq).1 hc
  · rw [List.contains_eq_mem]

theorem evalCondition_not {symbols : List (List Char)} {num : ℕ} {cond name : List Char}
    (h : Text.trim cond = '!' :: name) :
    evalCondition symbols num cond = .ok (decide (Text.trim name ∉ symbols)) := by
  rw [evalCondition, h, decide_not]
  exact congrArg (fun b => Except.ok (!b)) (List.contains_eq_mem ..)

/-- An empty condition is the only error. -/
theorem evalCondition_eq_error_iff {symbols : List (List Char)} {num : ℕ} {cond : List Char} {e : ParseError} :
    evalCondition symbols num cond = .error e ↔
      Text.trim cond = [] ∧ e = ⟨num, "#if with empty condition"⟩ := by
  rw [evalCondition]
  split
  · next h => exact ⟨fun he => ⟨h, (Except.error.inj he).symm⟩, fun he => he.2 ▸ rfl⟩
  · next name h =>
    constructor
    · intro he
      cases he
    · intro he
      cases h.symm.trans he.1
  · next h _ =>
    constructor
    · intro he
      cases he
    · intro he
      exact absurd he.1 h

namespace Preproc

def active (s : Preproc) : Bool := s.stack.all (·.active)

/-- `#if`. -/
def openIf (s : Preproc) (num : ℕ) (rest : List Char) : Except ParseError Preproc := do
  let cond ← if s.active then evalCondition s.symbols num rest else pure false
  return { s with stack := ⟨cond, cond, s.active⟩ :: s.stack }

/-- `#elif`. -/
def elif (s : Preproc) (num : ℕ) (rest : List Char) : Except ParseError Preproc :=
  match s.stack with
  | [] => .error ⟨num, "#elif without #if"⟩
  | frame :: stack =>
    if frame.taken then .ok { s with stack := { frame with active := false } :: stack }
    else do
      let cond ← if frame.parentActive then evalCondition s.symbols num rest else pure false
      return { s with stack := { frame with active := cond, taken := cond } :: stack }

/-- `#else`. -/
def else' (s : Preproc) (num : ℕ) : Except ParseError Preproc :=
  match s.stack with
  | [] => .error ⟨num, "#else without #if"⟩
  | frame :: stack =>
    .ok { s with
      stack := { frame with active := frame.parentActive && !frame.taken, taken := true } :: stack }

/-- `#endif`. -/
def endif (s : Preproc) (num : ℕ) : Except ParseError Preproc :=
  match s.stack with
  | [] => .error ⟨num, "#endif without #if"⟩
  | _ :: stack => .ok { s with stack }

/-- `#define`; its body may use earlier ones. -/
def define (s : Preproc) (num : ℕ) (rest : List Char) : Except ParseError Preproc :=
  match Text.splitOnce '=' rest with
  | none => .error ⟨num, "#define without '='"⟩
  | some (name, body) => do
    let body ← expand s.defines num (Text.trim body)
    return { s with defines := (Text.trim name, body) :: s.defines }

/-- A `#` line; within a branch that is not emitted only the chain itself counts. -/
def directive (s : Preproc) (num : ℕ) (text : List Char) : Except ParseError Preproc :=
  let (word, rest) := splitWord text
  match String.ofList word with
  | "if" => s.openIf num rest
  | "elif" => s.elif num rest
  | "else" => s.else' num
  | "endif" => s.endif num
  | "set" => .ok (if s.active then { s with symbols := Text.trim rest :: s.symbols } else s)
  | "unset" =>
    .ok (if s.active then { s with symbols := s.symbols.filter (· ≠ Text.trim rest) } else s)
  | "define" => if s.active then s.define num rest else .ok s
  | other => .error ⟨num, s!"unknown directive #{other}"⟩

/-- One line of the source: what it emits, if anything. -/
def line (s : Preproc) (num : ℕ) (raw : List Char) : Except ParseError (Option Line × Preproc) :=
  match Text.trim (stripComment raw) with
  | [] => .ok (none, s)
  | '#' :: rest => do return (none, ← s.directive num rest)
  | text =>
    if s.active then do return (some ⟨num, ← expand s.defines num text⟩, s) else .ok (none, s)

/-- The lines from number `num` on. -/
def lines (s : Preproc) : ℕ → List (List Char) → Except ParseError (List Line × Preproc)
  | _, [] => .ok ([], s)
  | num, raw :: rest => do
    let (out, s) ← s.line num raw
    let (outs, s) ← s.lines (num + 1) rest
    return (out.toList ++ outs, s)

end Preproc

/-- The lines of a source that stay under a set of symbols. -/
def preprocess (symbols : List (List Char)) (src : List Char) : Except ParseError (List Line) := do
  let (out, s) ← Preproc.lines ⟨symbols, [], []⟩ 1 (Text.lines src)
  if s.stack ≠ [] then throw ⟨0, "unterminated #if"⟩
  return out

end RustyTune.TsIni
