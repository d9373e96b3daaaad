import RustyTune.Lib.Checked
import RustyTune.TsIni.Preprocess

/-!
# Nested conditionals

The preprocessor is a loop with a stack of flags; a source is a tree of chains.

* `Block`, `Clauses`: lines and `#if` chains, and the rest of a chain up to its `#endif`.
* `Block.run`: what a selected block emits and does to the symbols and defines; `Block.check`: a block
  that is not selected is only looked through for unknown directives.
* `lines_block`, `lines_skipped`: the loop over a block's lines, by the tree.
* **`preprocess_nested`**: the source of a tree is preprocessed as the tree; where there is no tree, an
  `#if` or `#endif` without its counterpart or a stray clause, there is an error.
* `elseElse_accepted`: a clause after `#else` is no error.
-/

namespace RustyTune.TsIni

/-! ## Lines -/

/-- The word and the rest of a directive. -/
def directiveOf (raw : List Char) : Option (String × List Char) :=
  match Text.trim (stripComment raw) with
  | '#' :: text => some (String.ofList (splitWord text).1, (splitWord text).2)
  | _ => none

/-- What lines read and write outside chains. -/
structure Env where
  symbols : List (List Char)
  defines : List (List Char × List Char)
  deriving DecidableEq, Repr

namespace Env

/-- `#define`. -/
def define (e : Env) (num : ℕ) (rest : List Char) : Except ParseError Env :=
  match Text.splitOnce '=' rest with
  | none => .error ⟨num, "#define without '='"⟩
  | some (name, body) => do
    return { e with defines := (Text.trim name, ← expand e.defines num (Text.trim body)) :: e.defines }

/-- A selected line that is no part of a chain. -/
def line (e : Env) (num : ℕ) (raw : List Char) : Except ParseError (Option Line × Env) :=
  match directiveOf raw with
  | some ("set", rest) => .ok (none, { e with symbols := Text.trim rest :: e.symbols })
  | some ("unset", rest) =>
    .ok (none, { e with symbols := e.symbols.filter (· ≠ Text.trim rest) })
  | some ("define", rest) => do return (none, ← e.define num rest)
  | some (word, _) => .error ⟨num, s!"unknown directive #{word}"⟩
  | none =>
    match Text.trim (stripComment raw) with
    | [] => .ok (none, e)
    | text => do return (some ⟨num, ← expand e.defines num text⟩, e)

end Env

/-- A line that is not selected: it must not be an unknown directive. -/
def checkLine (num : ℕ) (raw : List Char) : Except ParseError Unit :=
  match directiveOf raw with
  | some ("set", _) | some ("unset", _) | some ("define", _) | none => .ok ()
  | some (word, _) => .error ⟨num, s!"unknown directive #{word}"⟩

/-! ## Trees -/

mutual

/-- Lines and chains in sequence. -/
inductive Block
  | done
  | line (raw : List Char) (rest : Block)
  /-- The `#if` line, what it guards, its clauses, and what follows the chain. -/
  | chain (raw : List Char) (body : Block) (clauses : Clauses) (rest : Block)

/-- What follows the first branch of a chain. -/
inductive Clauses
  | endif (raw : List Char)
  | elif (raw : List Char) (body : Block) (rest : Clauses)
  | otherwise (raw : List Char) (body : Block) (rest : Clauses)

end

mutual

def Block.lines : Block → List (List Char)
  | .done => []
  | .line raw rest => raw :: rest.lines
  | .chain raw body clauses rest => raw :: (body.lines ++ (clauses.lines ++ rest.lines))

def Clauses.lines : Clauses → List (List Char)
  | .endif raw => [raw]
  | .elif raw body rest | .otherwise raw body rest => raw :: (body.lines ++ rest.lines)

end

/-- The line is a directive with this word. -/
def IsWord (word : String) (raw : List Char) : Prop := ∃ rest, directiveOf raw = some (word, rest)

mutual

/-- Each line is what its place in the tree says. -/
def Block.WellFormed : Block → Prop
  | .done => True
  | .line raw rest => (∀ word ∈ ["if", "elif", "else", "endif"], ¬ IsWord word raw) ∧ rest.WellFormed
  | .chain raw body clauses rest =>
    IsWord "if" raw ∧ body.WellFormed ∧ clauses.WellFormed ∧ rest.WellFormed

def Clauses.WellFormed : Clauses → Prop
  | .endif raw => IsWord "endif" raw
  | .elif raw body rest => IsWord "elif" raw ∧ body.WellFormed ∧ rest.WellFormed
  | .otherwise raw body rest => IsWord "else" raw ∧ body.WellFormed ∧ rest.WellFormed

end

mutual

/-- `#else` is the last clause of every chain. -/
def Block.ElseLast : Block → Prop
  | .done => True
  | .line _ rest => rest.ElseLast
  | .chain _ body clauses rest => body.ElseLast ∧ clauses.ElseLast ∧ rest.ElseLast

def Clauses.ElseLast : Clauses → Prop
  | .endif _ => True
  | .elif _ body rest => body.ElseLast ∧ rest.ElseLast
  | .otherwise _ body rest => body.ElseLast ∧ ∃ raw, rest = .endif raw

end

/-- The condition of an `#if` or `#elif` line, in the symbols when it is reached. -/
def Env.holds (e : Env) (num : ℕ) (raw : List Char) : Except ParseError Bool :=
  evalCondition e.symbols num (((directiveOf raw).map Prod.snd).getD [])

mutual

/-- A block that is not selected. -/
def Block.check (num : ℕ) : Block → Except ParseError Unit
  | .done => .ok ()
  | .line raw rest => do
    checkLine num raw
    rest.check (num + 1)
  | .chain _ body clauses rest => do
    body.check (num + 1)
    clauses.check (num + 1 + body.lines.length)
    rest.check (num + 1 + body.lines.length + clauses.lines.length)

/-- Clauses none of which is selected. -/
def Clauses.check (num : ℕ) : Clauses → Except ParseError Unit
  | .endif _ => .ok ()
  | .elif _ body rest | .otherwise _ body rest => do
    body.check (num + 1)
    rest.check (num + 1 + body.lines.length)

end

mutual

/-- A selected block, from line `num` on: the lines it emits, and the symbols and defines after it. -/
def Block.run (e : Env) (num : ℕ) : Block → Except ParseError (List Line × Env)
  | .done => .ok ([], e)
  | .line raw rest => do
    let (out, e) ← e.line num raw
    let (outs, e) ← rest.run e (num + 1)
    return (out.toList ++ outs, e)
  | .chain raw body clauses rest => do
    let afterBody := num + 1 + body.lines.length
    let (out, e) ←
      if ← e.holds num raw then do
        let result ← body.run e (num + 1)
        clauses.check afterBody
        pure result
      else do
        body.check (num + 1)
        clauses.run e afterBody
    let (outs, e) ← rest.run e (afterBody + clauses.lines.length)
    return (out ++ outs, e)

/-- The clauses of a selected chain of which no branch is selected yet. -/
def Clauses.run (e : Env) (num : ℕ) : Clauses → Except ParseError (List Line × Env)
  | .endif _ => .ok ([], e)
  | .elif raw body rest => do
    let afterBody := num + 1 + body.lines.length
    if ← e.holds num raw then do
      let result ← body.run e (num + 1)
      rest.check afterBody
      pure result
    else do
      body.check (num + 1)
      rest.run e afterBody
  | .otherwise _ body rest => do
    let result ← body.run e (num + 1)
    rest.check (num + 1 + body.lines.length)
    pure result

end

/-! ## The loop over the lines of a tree -/

/-- The state of the loop within some open chains. -/
def Env.within (e : Env) (stack : List IfFrame) : Preproc := ⟨e.symbols, e.defines, stack⟩

@[simp] theorem Env.within_symbols (e : Env) (stack : List IfFrame) :
    (e.within stack).symbols = e.symbols := rfl

@[simp] theorem Env.within_defines (e : Env) (stack : List IfFrame) :
    (e.within stack).defines = e.defines := rfl

@[simp] theorem Env.within_stack (e : Env) (stack : List IfFrame) :
    (e.within stack).stack = stack := rfl

def Active (stack : List IfFrame) : Prop := stack.all (·.active) = true

variable {num : ℕ} {raw : List Char}

namespace Preproc

theorem line_of_directive {word : String} {rest : List Char}
    (h : directiveOf raw = some (word, rest)) (s : Preproc) :
    ∃ text, splitWord text = (word.toList, rest) ∧
      s.line num raw = do return (none, ← s.directive num text) := by
  unfold directiveOf at h
  split at h
  · next text heq =>
    obtain ⟨hword, hrest⟩ := Prod.mk.inj (Option.some.inj h)
    refine ⟨text, ?_, ?_⟩
    · rw [← hword, ← hrest, String.toList_ofList]
    · rw [line, heq]
      rfl
  · exact nomatch h

variable {e : Env} {stack : List IfFrame}

theorem line_if (h : IsWord "if" raw) (hs : Active stack) :
    (e.within stack).line num raw = do
      let cond ← e.holds num raw
      return (none, e.within (⟨cond, cond, true⟩ :: stack)) := by
  obtain ⟨rest, hrest⟩ := h
  obtain ⟨text, htext, hline⟩ := @line_of_directive num raw _ _ hrest (e.within stack)
  have hactive : (e.within stack).active = true := hs
  rw [hline, directive, htext, Env.holds, hrest]
  simp only [String.ofList_toList, openIf, hactive, Env.within_symbols, Option.map_some,
    Option.getD_some, if_true]
  cases evalCondition e.symbols num rest <;> rfl

theorem line_if_skipped (h : IsWord "if" raw) (hs : ¬ Active stack) :
    (e.within stack).line num raw = .ok (none, e.within (⟨false, false, false⟩ :: stack)) := by
  obtain ⟨rest, hrest⟩ := h
  obtain ⟨text, htext, hline⟩ := @line_of_directive num raw _ _ hrest (e.within stack)
  have hactive : (e.within stack).active = false := Bool.eq_false_iff.mpr hs
  rw [hline, directive, htext]
  simp only [String.ofList_toList, openIf, hactive]
  rfl

/-- An `#elif` of a chain of which no branch is selected yet. -/
theorem line_elif (h : IsWord "elif" raw) (a : Bool) :
    (e.within (⟨a, false, true⟩ :: stack)).line num raw = do
      let cond ← e.holds num raw
      return (none, e.within (⟨cond, cond, true⟩ :: stack)) := by
  obtain ⟨rest, hrest⟩ := h
  obtain ⟨text, htext, hline⟩ := @line_of_directive num raw _ _ hrest (e.within (_ :: stack))
  rw [hline, directive, htext, Env.holds, hrest]
  simp only [String.ofList_toList, elif, Env.within_stack, Env.within_symbols, Option.map_some,
    Option.getD_some, if_true]
  cases evalCondition e.symbols num rest <;> rfl

theorem line_elif_skipped (h : IsWord "elif" raw) {f : IfFrame}
    (hf : f.taken = true ∨ f.parentActive = false) :
    ∃ f', f'.active = false ∧ (f'.taken = true ∨ f'.parentActive = false) ∧
      (e.within (f :: stack)).line num raw = .ok (none, e.within (f' :: stack)) := by
  obtain ⟨rest, hrest⟩ := h
  obtain ⟨text, htext, hline⟩ := @line_of_directive num raw _ _ hrest (e.within (f :: stack))
  rw [hline, directive, htext]
  simp only [String.ofList_toList, elif, Env.within]
  by_cases ht : f.taken = true
  · exact ⟨{ f with active := false }, rfl, .inl ht, by rw [if_pos ht]; rfl⟩
  · have hp : f.parentActive = false := hf.resolve_left ht
    exact ⟨{ f with active := false, taken := false }, rfl, .inr hp, by rw [if_neg ht, hp]; rfl⟩

theorem line_else (h : IsWord "else" raw) (f : IfFrame) :
    (e.within (f :: stack)).line num raw =
      .ok (none, e.within (⟨f.parentActive && !f.taken, true, f.parentActive⟩ :: stack)) := by
  obtain ⟨rest, hrest⟩ := h
  obtain ⟨text, htext, hline⟩ := @line_of_directive num raw _ _ hrest (e.within (f :: stack))
  rw [hline, directive, htext]
  simp only [String.ofList_toList]
  rfl

theorem line_endif (h : IsWord "endif" raw) (f : IfFrame) :
    (e.within (f :: stack)).line num raw = .ok (none, e.within stack) := by
  obtain ⟨rest, hrest⟩ := h
  obtain ⟨text, htext, hline⟩ := @line_of_directive num raw _ _ hrest (e.within (f :: stack))
  rw [hline, directive, htext]
  simp only [String.ofList_toList]
  rfl

theorem define_within (rest : List Char) :
    (e.within stack).define num rest = do return (← e.define num rest).within stack := by
  unfold define Env.define
  cases Text.splitOnce '=' rest with
  | none => rfl
  | some p =>
    simp only [Env.within_defines]
    cases expand e.defines num (Text.trim p.2) <;> rfl

/-- A line that is no part of a chain, where it is selected. -/
theorem line_selected (h : ∀ word ∈ ["if", "elif", "else", "endif"], ¬ IsWord word raw)
    (hs : Active stack) :
    (e.within stack).line num raw = do
      let (out, e) ← e.line num raw
      return (out, e.within stack) := by
  have hactive : (e.within stack).active = true := hs
  cases hd : directiveOf raw with
  | some d =>
    obtain ⟨word, rest⟩ := d
    have hword (w : String) (hw : w ∈ ["if", "elif", "else", "endif"]) : word ≠ w := by
      rintro rfl
      exact h word hw ⟨rest, hd⟩
    obtain ⟨text, htext, hline⟩ := @line_of_directive num raw _ _ hd (e.within stack)
    rw [hline, directive, htext, Env.line, hd]
    simp only [String.ofList_toList, hactive, if_true, define_within]
    split
    · exact absurd rfl (hword "if" (by simp))
    · exact absurd rfl (hword "elif" (by simp))
    · exact absurd rfl (hword "else" (by simp))
    · exact absurd rfl (hword "endif" (by simp))
    · rfl
    · rfl
    · cases hdefine : e.define num rest <;> simp only [hdefine] <;> rfl
    · next hset hunset hdefine =>
      split
      · next heq => exact absurd (Prod.mk.inj (Option.some.inj heq)).1 hset
      · next heq => exact absurd (Prod.mk.inj (Option.some.inj heq)).1 hunset
      · next heq => exact absurd (Prod.mk.inj (Option.some.inj heq)).1 hdefine
      · next heq =>
        obtain ⟨rfl, -⟩ := Prod.mk.inj (Option.some.inj heq)
        rfl
      · next heq => exact nomatch heq
  | none =>
    have hnone (text : List Char) : Text.trim (stripComment raw) ≠ '#' :: text := by
      intro htext
      rw [directiveOf, htext] at hd
      exact nomatch hd
    rw [line, Env.line, hd]
    split
    · next hnil =>
      simp only [hnil]
      rfl
    · next text htext => exact absurd htext (hnone text)
    · simp only [hactive, if_true, Env.within_defines]
      cases expand e.defines num (Text.trim (stripComment raw)) <;> rfl

theorem line_skipped (h : ∀ word ∈ ["if", "elif", "else", "endif"], ¬ IsWord word raw)
    (hs : ¬ Active stack) :
    (e.within stack).line num raw = do
      checkLine num raw
      return (none, e.within stack) := by
  have hactive : (e.within stack).active = false := Bool.eq_false_iff.mpr hs
  cases hd : directiveOf raw with
  | some d =>
    obtain ⟨word, rest⟩ := d
    have hword (w : String) (hw : w ∈ ["if", "elif", "else", "endif"]) : word ≠ w := by
      rintro rfl
      exact h word hw ⟨rest, hd⟩
    obtain ⟨text, htext, hline⟩ := @line_of_directive num raw _ _ hd (e.within stack)
    rw [hline, directive, htext, checkLine, hd]
    simp only [String.ofList_toList, hactive, Bool.false_eq_true, if_false]
    split
    · exact absurd rfl (hword "if" (by simp))
    · exact absurd rfl (hword "elif" (by simp))
    · exact absurd rfl (hword "else" (by simp))
    · exact absurd rfl (hword "endif" (by simp))
    · rfl
    · rfl
    · rfl
    · next hset hunset hdefine =>
      split
      · next heq => exact absurd (Prod.mk.inj (Option.some.inj heq)).1 hset
      · next heq => exact absurd (Prod.mk.inj (Option.some.inj heq)).1 hunset
      · next heq => exact absurd (Prod.mk.inj (Option.some.inj heq)).1 hdefine
      · next heq => exact nomatch heq
      · next heq =>
        obtain ⟨rfl, -⟩ := Prod.mk.inj (Option.some.inj heq)
        rfl
  | none =>
    have hnone (text : List Char) : Text.trim (stripComment raw) ≠ '#' :: text := by
      intro htext
      rw [directiveOf, htext] at hd
      exact nomatch hd
    rw [line, checkLine, hd]
    split
    · rfl
    · next text htext => exact absurd htext (hnone text)
    · simp only [hactive, Bool.false_eq_true, if_false]
      rfl

end Preproc

variable {e : Env} {stack : List IfFrame}

theorem lines_cons (s : Preproc) (rest : List (List Char)) :
    s.lines num (raw :: rest) = do
      let (out, s) ← s.line num raw
      let (outs, s) ← s.lines (num + 1) rest
      return (out.toList ++ outs, s) := rfl

theorem lines_quiet {α : Type} {s : Preproc} {s' : α → Preproc} {x : Except ParseError α}
    (h : s.line num raw = x >>= fun a => .ok (none, s' a)) (rest : List (List Char)) :
    s.lines num (raw :: rest) = x >>= fun a => (s' a).lines (num + 1) rest := by
  rw [lines_cons, h]
  cases x with
  | error _ => rfl
  | ok a =>
    change ((s' a).lines (num + 1) rest >>= fun q => pure ([] ++ q.1, q.2)) =
      (s' a).lines (num + 1) rest
    cases (s' a).lines (num + 1) rest <;> rfl

theorem lines_silent {s s' : Preproc} (h : s.line num raw = .ok (none, s'))
    (rest : List (List Char)) : s.lines num (raw :: rest) = s'.lines (num + 1) rest :=
  @lines_quiet num raw Unit s (fun _ => s') (.ok ()) h rest

mutual

theorem lines_skipped (b : Block) (hb : b.WellFormed) (e : Env) {stack : List IfFrame}
    (hs : ¬ Active stack) (num : ℕ) (rest : List (List Char)) :
    (e.within stack).lines num (b.lines ++ rest) =
      b.check num >>= fun _ => (e.within stack).lines (num + b.lines.length) rest := by
  cases b with
  | done => rfl
  | line raw next =>
    rw [Block.lines, List.cons_append, lines_quiet (Preproc.line_skipped hb.1 hs),
      lines_skipped next hb.2 e hs (num + 1) rest, Block.check, bind_assoc, List.length_cons,
      Nat.add_right_comm num 1, Nat.add_assoc num]
  | chain raw body clauses next =>
    obtain ⟨hraw, hbody, hclauses, hnext⟩ := hb
    have hframe : ¬ Active (⟨false, false, false⟩ :: stack) := by simp [Active]
    rw [Block.lines, List.cons_append, lines_silent (Preproc.line_if_skipped hraw hs),
      List.append_assoc, List.append_assoc, lines_skipped body hbody e hframe,
      clauses_skipped clauses hclauses e (.inr rfl), lines_skipped next hnext e hs, Block.check]
    simp only [bind_assoc, List.length_cons, List.length_append]
    rw [show num + 1 + body.lines.length + clauses.lines.length + next.lines.length =
      num + (body.lines.length + (clauses.lines.length + next.lines.length) + 1) by omega]

/-- The clauses of a chain that is not selected, or of which a branch is selected already. -/
theorem clauses_skipped (c : Clauses) (hc : c.WellFormed) (e : Env) {stack : List IfFrame}
    {f : IfFrame} (hf : f.taken = true ∨ f.parentActive = false) (num : ℕ)
    (rest : List (List Char)) :
    (e.within (f :: stack)).lines num (c.lines ++ rest) =
      c.check num >>= fun _ => (e.within stack).lines (num + c.lines.length) rest := by
  cases c with
  | endif raw =>
    rw [Clauses.lines, List.singleton_append, lines_silent (Preproc.line_endif hc f)]
    rfl
  | elif raw body next =>
    obtain ⟨f', hinactive, hf', hline⟩ :=
      @Preproc.line_elif_skipped num raw e stack hc.1 f hf
    have hs : ¬ Active (f' :: stack) := by simp [Active, hinactive]
    rw [Clauses.lines, List.cons_append, lines_silent hline, List.append_assoc,
      lines_skipped body hc.2.1 e hs, clauses_skipped next hc.2.2 e hf', Clauses.check, bind_assoc,
      List.length_cons, List.length_append,
      show num + 1 + body.lines.length + next.lines.length =
        num + (body.lines.length + next.lines.length + 1) by omega]
  | otherwise raw body next =>
    have hinactive : (f.parentActive && !f.taken) = false := by
      rcases hf with hf | hf <;> simp [hf]
    have hline := @Preproc.line_else num raw e stack hc.1 f
    rw [hinactive] at hline
    have hs : ¬ Active (⟨false, true, f.parentActive⟩ :: stack) := by simp [Active]
    rw [Clauses.lines, List.cons_append, lines_silent hline, List.append_assoc,
      lines_skipped body hc.2.1 e hs, clauses_skipped next hc.2.2 e (.inl rfl), Clauses.check,
      bind_assoc, List.length_cons, List.length_append,
      show num + 1 + body.lines.length + next.lines.length =
        num + (body.lines.length + next.lines.length + 1) by omega]

end

theorem lines_line (h : ∀ word ∈ ["if", "elif", "else", "endif"], ¬ IsWord word raw)
    (hs : Active stack) (rest : List (List Char)) :
    (e.within stack).lines num (raw :: rest) = do
      let (out, e) ← e.line num raw
      let (outs, s) ← (e.within stack).lines (num + 1) rest
      return (out.toList ++ outs, s) := by
  rw [lines_cons, Preproc.line_selected h hs, bind_assoc]
  rfl

mutual

/-- The loop over a selected block does what the block does. -/
theorem lines_block (b : Block) (hb : b.WellFormed) (e : Env) {stack : List IfFrame}
    (hs : Active stack) (num : ℕ) (rest : List (List Char)) :
    (e.within stack).lines num (b.lines ++ rest) = do
      let (out, e) ← b.run e num
      let (outs, s) ← (e.within stack).lines (num + b.lines.length) rest
      return (out ++ outs, s) := by
  cases b with
  | done =>
    change _ = ((e.within stack).lines num rest >>= fun q => pure ([] ++ q.1, q.2))
    rw [Block.lines, List.nil_append]
    cases (e.within stack).lines num rest <;> rfl
  | line raw next =>
    rw [Block.lines, List.cons_append, lines_line hb.1 hs, Block.run]
    simp only [bind_assoc, pure_bind, lines_block next hb.2 _ hs, List.length_cons,
      List.append_assoc, Nat.add_right_comm num 1, Nat.add_assoc num]
  | chain raw body clauses next =>
    obtain ⟨hraw, hbody, hclauses, hnext⟩ := hb
    have hnum : num + 1 + body.lines.length + clauses.lines.length + next.lines.length =
        num + (body.lines.length + (clauses.lines.length + next.lines.length) + 1) := by omega
    rw [Block.lines, List.cons_append, lines_quiet (Preproc.line_if hraw hs), Block.run]
    cases e.holds num raw with
    | error _ => rfl
    | ok cond =>
      change (e.within (⟨cond, cond, true⟩ :: stack)).lines (num + 1) _ = _
      rw [List.append_assoc, List.append_assoc]
      cases cond with
      | true =>
        have hframe : Active (⟨true, true, true⟩ :: stack) := by simpa [Active] using hs
        have htaken : (⟨true, true, true⟩ : IfFrame).taken = true ∨ true = false := .inl rfl
        rw [lines_block body hbody e hframe]
        simp only [clauses_skipped clauses hclauses _ htaken, lines_block next hnext _ hs,
          bind_assoc, pure_bind, List.length_cons, List.length_append, List.append_assoc, hnum,
          except_ok_bind, if_true]
      | false =>
        have hframe : ¬ Active (⟨false, false, true⟩ :: stack) := by simp [Active]
        rw [lines_skipped body hbody e hframe]
        simp only [lines_clauses clauses hclauses e hs, lines_block next hnext _ hs,
          bind_assoc, pure_bind, List.length_cons, List.length_append, List.append_assoc, hnum,
          except_ok_bind, Bool.false_eq_true, if_false]

/-- The loop over the clauses of a selected chain of which no branch is selected yet. -/
theorem lines_clauses (c : Clauses) (hc : c.WellFormed) (e : Env) {stack : List IfFrame}
    (hs : Active stack) (a : Bool) (num : ℕ) (rest : List (List Char)) :
    (e.within (⟨a, false, true⟩ :: stack)).lines num (c.lines ++ rest) = do
      let (out, e) ← c.run e num
      let (outs, s) ← (e.within stack).lines (num + c.lines.length) rest
      return (out ++ outs, s) := by
  cases c with
  | endif raw =>
    rw [Clauses.lines, List.singleton_append, lines_silent (Preproc.line_endif hc _)]
    change _ = ((e.within stack).lines (num + 1) rest >>= fun q => pure ([] ++ q.1, q.2))
    cases (e.within stack).lines (num + 1) rest <;> rfl
  | elif raw body next =>
    obtain ⟨hraw, hbody, hnext⟩ := hc
    have hnum : num + 1 + body.lines.length + next.lines.length =
        num + (body.lines.length + next.lines.length + 1) := by omega
    rw [Clauses.lines, List.cons_append, lines_quiet (Preproc.line_elif hraw a), Clauses.run]
    cases e.holds num raw with
    | error _ => rfl
    | ok cond =>
      change (e.within (⟨cond, cond, true⟩ :: stack)).lines (num + 1) _ = _
      rw [List.append_assoc]
      cases cond with
      | true =>
        have hframe : Active (⟨true, true, true⟩ :: stack) := by simpa [Active] using hs
        have htaken : (⟨true, true, true⟩ : IfFrame).taken = true ∨ true = false := .inl rfl
        rw [lines_block body hbody e hframe]
        simp only [clauses_skipped next hnext _ htaken, bind_assoc, pure_bind, List.length_cons,
          List.length_append, hnum, except_ok_bind, if_true]
      | false =>
        have hframe : ¬ Active (⟨false, false, true⟩ :: stack) := by simp [Active]
        rw [lines_skipped body hbody e hframe]
        simp only [lines_clauses next hnext e hs, bind_assoc, List.length_cons,
          List.length_append, hnum, except_ok_bind, Bool.false_eq_true, if_false]
  | otherwise raw body next =>
    obtain ⟨hraw, hbody, hnext⟩ := hc
    have hnum : num + 1 + body.lines.length + next.lines.length =
        num + (body.lines.length + next.lines.length + 1) := by omega
    have hframe : Active (⟨true, true, true⟩ :: stack) := by simpa [Active] using hs
    have htaken : (⟨true, true, true⟩ : IfFrame).taken = true ∨ true = false := .inl rfl
    rw [Clauses.lines, List.cons_append, lines_silent (Preproc.line_else hraw _), Clauses.run,
      List.append_assoc]
    change (e.within (⟨true, true, true⟩ :: stack)).lines (num + 1) _ = _
    rw [lines_block body hbody e hframe]
    simp only [clauses_skipped next hnext _ htaken, bind_assoc, pure_bind, List.length_cons,
      List.length_append, hnum]

end

/-! ## Sources without a tree -/

/-- Lines within so many open chains: up to the end of each, and on. -/
def Closes : ℕ → List (List Char) → Prop
  | 0, raws => ∃ b : Block, b.WellFormed ∧ raws = b.lines
  | depth + 1, raws => ∃ (b : Block) (c : Clauses) (rest : List (List Char)), b.WellFormed ∧
    c.WellFormed ∧ raws = b.lines ++ (c.lines ++ rest) ∧ Closes depth rest

/-- A block in front of the lines is part of them. -/
theorem Closes.cons {depth : ℕ} {raws : List (List Char)} (h : Closes depth raws)
    (front : List (List Char)) (f : Block → Block) (hf : ∀ b : Block, b.WellFormed →
      (f b).WellFormed ∧ (f b).lines = front ++ b.lines) : Closes depth (front ++ raws) := by
  cases depth with
  | zero =>
    obtain ⟨b, hb, rfl⟩ := h
    exact ⟨f b, (hf b hb).1, (hf b hb).2.symm⟩
  | succ depth =>
    obtain ⟨b, c, rest, hb, hc, rfl, hrest⟩ := h
    exact ⟨f b, c, rest, (hf b hb).1, hc, by rw [(hf b hb).2, List.append_assoc], hrest⟩

theorem stack_of_line {s s' : Preproc} {out : Option Line} (h : s.line num raw = .ok (out, s')) :
    IsWord "if" raw ∧ s'.stack.length = s.stack.length + 1 ∨
      (IsWord "elif" raw ∨ IsWord "else" raw) ∧ s'.stack.length = s.stack.length ∧
        0 < s.stack.length ∨
      IsWord "endif" raw ∧ s.stack.length = s'.stack.length + 1 ∨
      (∀ word ∈ ["if", "elif", "else", "endif"], ¬ IsWord word raw) ∧ s'.stack = s.stack := by
  cases hd : directiveOf raw with
  | some d =>
    obtain ⟨word, rest⟩ := d
    obtain ⟨text, htext, hline⟩ := @Preproc.line_of_directive num raw _ _ hd s
    rw [hline, except_bind_eq_ok] at h
    obtain ⟨s1, h, hs1⟩ := h
    obtain ⟨-, rfl⟩ := Prod.mk.inj (Except.ok.inj hs1)
    rw [Preproc.directive, htext] at h
    simp only [String.ofList_toList] at h
    have hother (hword : word ∉ ["if", "elif", "else", "endif"]) (w : String)
        (hw : w ∈ ["if", "elif", "else", "endif"]) : ¬ IsWord w raw := by
      rintro ⟨r, hr⟩
      rw [hd] at hr
      exact hword ((Prod.mk.inj (Option.some.inj hr)).1 ▸ hw)
    split at h
    · unfold Preproc.openIf at h
      split at h <;>
      · obtain ⟨cond, -, hs⟩ := except_bind_eq_ok.mp h
        cases hs
        exact .inl ⟨⟨rest, hd⟩, rfl⟩
    · refine .inr (.inl ⟨.inl ⟨rest, hd⟩, ?_⟩)
      unfold Preproc.elif at h
      split at h
      · exact nomatch h
      · next f stack hstack =>
        rw [hstack]
        by_cases htaken : f.taken = true
        · rw [if_pos htaken] at h
          cases h
          exact ⟨rfl, Nat.succ_pos _⟩
        · rw [if_neg htaken] at h
          split at h <;>
          · obtain ⟨cond, -, hs⟩ := except_bind_eq_ok.mp h
            cases hs
            exact ⟨rfl, Nat.succ_pos _⟩
    · refine .inr (.inl ⟨.inr ⟨rest, hd⟩, ?_⟩)
      unfold Preproc.else' at h
      split at h
      · exact nomatch h
      · next f stack hstack =>
        cases h
        rw [hstack]
        exact ⟨rfl, Nat.succ_pos _⟩
    · refine .inr (.inr (.inl ⟨⟨rest, hd⟩, ?_⟩))
      unfold Preproc.endif at h
      split at h
      · exact nomatch h
      · next f stack hstack =>
        cases h
        rw [hstack]
        rfl
    · cases h
      refine .inr (.inr (.inr ⟨hother (by decide), ?_⟩))
      split_ifs <;> rfl
    · cases h
      refine .inr (.inr (.inr ⟨hother (by decide), ?_⟩))
      split_ifs <;> rfl
    · refine .inr (.inr (.inr ⟨hother (by decide), ?_⟩))
      split_ifs at h
      · unfold Preproc.define at h
        split at h
        · exact nomatch h
        · obtain ⟨body, -, hs⟩ := except_bind_eq_ok.mp h
          cases hs
          rfl
      · cases h
        rfl
    · exact nomatch h
  | none =>
    refine .inr (.inr (.inr ⟨?_, ?_⟩))
    · rintro word - ⟨rest, hrest⟩
      rw [hd] at hrest
      exact nomatch hrest
    · unfold Preproc.line at h
      split at h
      · cases h
        rfl
      · next text htext =>
        rw [directiveOf, htext] at hd
        exact nomatch hd
      · split_ifs at h
        · obtain ⟨text, -, hs⟩ := except_bind_eq_ok.mp h
          cases hs
          rfl
        · cases h
          rfl

/-- Where the loop ends without an error, every open chain is closed. -/
theorem closes_of_lines {raws : List (List Char)} {s s' : Preproc} {out : List Line}
    (h : s.lines num raws = .ok (out, s')) (hs : s'.stack = []) : Closes s.stack.length raws := by
  induction raws generalizing s num out with
  | nil =>
    cases h
    rw [hs]
    exact ⟨.done, trivial, rfl⟩
  | cons raw rest ih =>
    rw [lines_cons, except_bind_eq_ok] at h
    obtain ⟨⟨o, s1⟩, hline, h⟩ := h
    obtain ⟨⟨outs, s2⟩, hlines, h⟩ := except_bind_eq_ok.mp h
    cases h
    have hrest := ih hlines
    rcases stack_of_line hline with ⟨hif, hlen⟩ | ⟨hclause, hlen, hpos⟩ | ⟨hendif, hlen⟩ |
      ⟨hplain, hstack⟩
    · -- a chain starts, and is closed within the rest
      rw [hlen] at hrest
      obtain ⟨b, c, tail, hb, hc, rfl, htail⟩ := hrest
      have := htail.cons (raw :: (b.lines ++ c.lines)) (.chain raw b c)
        fun b' hb' => ⟨⟨hif, hb, hc, hb'⟩, by simp [Block.lines]⟩
      simpa using this
    · rw [hlen] at hrest
      obtain ⟨depth, hdepth⟩ := Nat.exists_eq_succ_of_ne_zero (Nat.ne_of_gt hpos)
      rw [hdepth] at hrest ⊢
      obtain ⟨b, c, tail, hb, hc, rfl, htail⟩ := hrest
      rcases hclause with helif | helse
      · exact ⟨.done, .elif raw b c, tail, trivial, ⟨helif, hb, hc⟩, by simp [Block.lines,
          Clauses.lines], htail⟩
      · exact ⟨.done, .otherwise raw b c, tail, trivial, ⟨helse, hb, hc⟩, by simp [Block.lines,
          Clauses.lines], htail⟩
    · rw [hlen]
      exact ⟨.done, .endif raw, rest, trivial, hendif, by simp [Block.lines, Clauses.lines], hrest⟩
    · rw [hstack] at hrest
      have := hrest.cons [raw] (.line raw)
        fun b' hb' => ⟨⟨hplain, hb'⟩, by simp [Block.lines]⟩
      exact this

theorem preprocess_block {b : Block} (hb : b.WellFormed) (symbols : List (List Char))
    {src : List Char} (hsrc : Text.lines src = b.lines) :
    preprocess symbols src = (b.run ⟨symbols, []⟩ 1).map Prod.fst := by
  have hlines := @lines_block b hb ⟨symbols, []⟩ [] rfl 1 []
  rw [List.append_nil] at hlines
  have hstart : (⟨symbols, [], []⟩ : Preproc) = Env.within ⟨symbols, []⟩ [] := rfl
  rw [preprocess, hsrc, hstart, hlines]
  cases b.run ⟨symbols, []⟩ 1 with
  | error _ => rfl
  | ok p =>
    change Except.ok (p.1 ++ []) = Except.ok p.1
    rw [List.append_nil]

/-- **The source of a tree is preprocessed as the tree, and a source that is none is an error.** -/
theorem preprocess_nested (symbols : List (List Char)) (src : List Char) :
    (∀ b : Block, b.WellFormed → Text.lines src = b.lines →
        preprocess symbols src = (b.run ⟨symbols, []⟩ 1).map Prod.fst) ∧
      ((∀ b : Block, b.WellFormed → Text.lines src ≠ b.lines) →
        ∃ e, preprocess symbols src = .error e) := by
  refine ⟨fun b hb hsrc => preprocess_block hb symbols hsrc, fun hnone => ?_⟩
  cases h : preprocess symbols src with
  | error e => exact ⟨e, rfl⟩
  | ok out =>
    unfold preprocess at h
    obtain ⟨⟨out', s⟩, hlines, h⟩ := except_bind_eq_ok.mp h
    change (if s.stack ≠ [] then _ else _) = _ at h
    by_cases hs : s.stack = []
    · obtain ⟨b, hb, hsrc⟩ := closes_of_lines hlines hs
      exact absurd hsrc (hnone b hb)
    · rw [if_pos hs] at h
      exact nomatch h

/-- A chain in a chain, under a symbol that the source sets. -/
def unitsBlock : Block :=
  .line "#set CELSIUS".toList
    (.chain "#if CELSIUS".toList
      (.line "#define unit = C".toList
        (.chain "#if LAMBDA".toList (.line "a = L".toList .done)
          (.elif "#elif !FAHRENHEIT".toList (.line "a = $unit".toList .done)
            (.otherwise "#else".toList (.line "a = F".toList .done) (.endif "#endif".toList)))
          .done))
      (.otherwise "#else".toList
        (.chain "#if LAMBDA".toList (.line "b = L".toList .done) (.endif "#endif".toList) .done)
        (.endif "#endif".toList))
      .done)

def unitsLines : List (List Char) :=
  ["#set CELSIUS", "#if CELSIUS", "#define unit = C", "#if LAMBDA", "a = L", "#elif !FAHRENHEIT", "a = $unit", "#else",
    "a = F", "#endif", "#else", "#if LAMBDA", "b = L", "#endif", "#endif"].map String.toList

theorem wellFormed_unitsBlock : unitsBlock.WellFormed := by
  have hplain (raw : List Char)
      (h : (directiveOf raw).map Prod.fst ∉ [some "if", some "elif", some "else", some "endif"]) (word : String)
      (hword : word ∈ ["if", "elif", "else", "endif"]) : ¬ IsWord word raw := by
    rintro ⟨rest, hrest⟩
    rw [hrest] at h
    exact h (List.mem_map_of_mem hword)
  have hset := hplain "#set CELSIUS".toList (by decide +kernel)
  have hdefine := hplain "#define unit = C".toList (by decide +kernel)
  have hlambda := hplain "a = L".toList (by decide +kernel)
  have hunit := hplain "a = $unit".toList (by decide +kernel)
  have hfahrenheit := hplain "a = F".toList (by decide +kernel)
  have hother := hplain "b = L".toList (by decide +kernel)
  have hif : IsWord "if" "#if CELSIUS".toList := ⟨" CELSIUS".toList, by decide +kernel⟩
  have hinner : IsWord "if" "#if LAMBDA".toList := ⟨" LAMBDA".toList, by decide +kernel⟩
  have helif : IsWord "elif" "#elif !FAHRENHEIT".toList := ⟨" !FAHRENHEIT".toList, by decide +kernel⟩
  have helse : IsWord "else" "#else".toList := ⟨[], by decide +kernel⟩
  have hendif : IsWord "endif" "#endif".toList := ⟨[], by decide +kernel⟩
  exact ⟨hset, hif,
    ⟨hdefine, hinner, ⟨hlambda, trivial⟩,
      ⟨helif, ⟨hunit, trivial⟩, helse, ⟨hfahrenheit, trivial⟩, hendif⟩, trivial⟩,
    ⟨helse, ⟨hinner, ⟨hother, trivial⟩, hendif, trivial⟩, hendif⟩, trivial⟩

theorem lines_unitsBlock : unitsBlock.lines = unitsLines := by
  simp only [unitsBlock, unitsLines, Block.lines, Clauses.lines, List.map_cons, List.map_nil, List.cons_append,
    List.nil_append]

theorem preprocess_nested_units : preprocess [] (Text.joinLines unitsLines) = .ok [⟨7, "a = C".toList⟩] := by
  have hfull : ∀ l ∈ unitsLines, l ≠ [] := by decide +kernel
  have hfeed : ∀ l ∈ unitsLines, '\n' ∉ l := by decide +kernel
  have hreturn : ∀ l ∈ unitsLines, '\r' ∉ l := by decide +kernel
  have hone : ∀ l ∈ unitsLines, l ≠ [] ∧ ∀ c ∈ l, c ≠ '\n' ∧ c ≠ '\r' := fun l hl =>
    ⟨hfull l hl, fun _ hc => ⟨fun h => hfeed l hl (h ▸ hc), fun h => hreturn l hl (h ▸ hc)⟩⟩
  have hlines : Text.lines (Text.joinLines unitsLines) = unitsBlock.lines :=
    (Text.lines_joinLines hone).trans lines_unitsBlock.symm
  rw [(preprocess_nested [] _).1 unitsBlock wellFormed_unitsBlock hlines]
  decide +kernel

theorem IsWord.unique {v w : String} (hv : IsWord v raw) (hw : IsWord w raw) : v = w := by
  obtain ⟨r, hr⟩ := hv
  obtain ⟨r', hr'⟩ := hw
  exact (Prod.mk.inj (Option.some.inj (hr.symm.trans hr'))).1

theorem Block.eq_done {b : Block} (hb : b.WellFormed) {w : String} (hw : IsWord w raw)
    (hclause : w ∈ ["elif", "else", "endif"]) {rest more : List (List Char)}
    (h : b.lines ++ rest = raw :: more) : b = .done := by
  cases b with
  | done => rfl
  | line raw' next =>
    obtain ⟨rfl, -⟩ := List.cons.inj h
    exact absurd hw (hb.1 w (List.mem_cons_of_mem _ hclause))
  | chain raw' body clauses next =>
    obtain ⟨rfl, -⟩ := List.cons.inj h
    obtain rfl := hb.1.unique hw
    exact absurd hclause (by decide)

/-- **A second `#else` is no error**: it stands in no tree whose chains end with `#else`. -/
theorem elseElse_accepted :
    ¬ ∀ symbols src, (∀ b : Block, b.WellFormed → b.ElseLast → Text.lines src ≠ b.lines) →
      ∃ e, preprocess symbols src = .error e := by
  intro h
  obtain ⟨e, he⟩ := h [] "#if A\n#else\n#else\n#endif".toList fun b hb hlast hlines => by
    have hif : IsWord "if" "#if A".toList := ⟨" A".toList, by decide⟩
    have helse : IsWord "else" "#else".toList := ⟨[], by decide⟩
    have hsrc : Text.lines "#if A\n#else\n#else\n#endif".toList =
        ["#if A".toList, "#else".toList, "#else".toList, "#endif".toList] := by decide
    rw [hsrc] at hlines
    cases b with
    | done => exact nomatch hlines
    | line raw next =>
      obtain ⟨rfl, -⟩ := List.cons.inj hlines
      exact hb.1 "if" (by simp) hif
    | chain raw body clauses next =>
      obtain ⟨rfl, htail⟩ := List.cons.inj hlines
      obtain rfl := Block.eq_done hb.2.1 helse (by simp) htail.symm
      cases clauses with
      | endif raw =>
        obtain ⟨rfl, -⟩ := List.cons.inj htail
        exact absurd (helse.unique hb.2.2.1) (by decide)
      | elif raw body rest =>
        obtain ⟨rfl, -⟩ := List.cons.inj htail
        exact absurd (helse.unique hb.2.2.1.1) (by decide)
      | otherwise raw body rest =>
        obtain ⟨-, raw', rfl⟩ := hlast.2.1
        have hrest : body.lines ++ ([raw'] ++ next.lines) = ["#else".toList, "#endif".toList] := by
          rw [← List.append_assoc]
          exact (List.cons.inj htail).2.symm
        obtain rfl := Block.eq_done hb.2.2.1.2.1 helse (by simp) hrest
        obtain ⟨rfl, -⟩ := List.cons.inj hrest
        exact absurd (helse.unique hb.2.2.1.2.2) (by decide)
  have hok : preprocess [] "#if A\n#else\n#else\n#endif".toList = .ok [] := by decide
  rw [hok] at he
  exact nomatch he

end RustyTune.TsIni
