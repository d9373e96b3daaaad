import RustyTune.Lib.Lookup
import RustyTune.TsIni.Model

/-!
# What evaluation asks for

An evaluation asks its source of symbols for values and for elements of arrays, one after the other.

* `Symbol`: what can be asked for; `SymbolSource.ofAnswers`, `SymbolSource.answers`: sources of symbols
  as answers.
* **`Expr.eval_looksUp`**: evaluation looks symbols up, and fails by itself only in arithmetic;
  **`NumOrExpr.eval_abortsOnly`**: otherwise it aborts as its source does.
-/

namespace RustyTune.TsIni

variable {F : Type}

/-- What an evaluation asks for. -/
inductive Symbol
  | value (name : String)
  | element (name : String) (index : ℕ)
  deriving DecidableEq, Repr

abbrev Symbol.Answer (F : Type) : Symbol → Type
  | .value _ => Option (Value F)
  | .element _ _ => Option F

/-- Answers to what evaluations ask for. -/
abbrev Answers (F : Type) : Type := Source Symbol (Symbol.Answer F) Abort

namespace SymbolSource

/-- The source with the given answers. -/
def ofAnswers (bitString : String → ℕ → Option String) (src : Answers F) : SymbolSource F where
  value name := src (.value name)
  bitString
  arrayValue name index := src (.element name index)

def answers (s : SymbolSource F) : Answers F
  | .value name => s.value name
  | .element name index => s.arrayValue name index

@[simp] theorem ofAnswers_answers (s : SymbolSource F) : ofAnswers s.bitString s.answers = s := rfl

end SymbolSource

instance : Nontrivial Abort := ⟨.overflow, .expression, by decide⟩

/-! ## Attempts -/

section Attempts

variable {Q : Type} {A : Q → Type} {P : Abort → Prop} {ε α β : Type}

/-- An attempt that depends on answers looks them up. -/
def LooksUpT (P : Abort → Prop) (f : Source Q A Abort → ExceptT ε Exec α) : Prop :=
  LooksUp P fun src => (f src).run

namespace LooksUpT

theorem pure (a : α) : LooksUpT P fun _ : Source Q A Abort => (Pure.pure a : ExceptT ε Exec α) :=
  LooksUp.ok _

theorem throw (e : ε) :
    LooksUpT P fun _ : Source Q A Abort => (MonadExcept.throw e : ExceptT ε Exec α) :=
  LooksUp.ok _

theorem lift {f : Source Q A Abort → Exec α} (hf : LooksUp P f) :
    LooksUpT P fun src => (liftM (f src) : ExceptT ε Exec α) := by
  refine (hf.bind (g := fun a _ => .ok (.ok a)) fun a => .ok _).of_eq fun src => ?_
  dsimp only
  cases f src <;> rfl

theorem bind {f : Source Q A Abort → ExceptT ε Exec α} {g : α → Source Q A Abort → ExceptT ε Exec β}
    (hf : LooksUpT P f) (hg : ∀ a, LooksUpT P (g a)) :
    LooksUpT P fun src => f src >>= fun a => g a src := by
  refine LooksUp.of_eq (LooksUp.bind hf (g := fun r src => match r with
    | .ok a => (g a src).run
    | .error e => .ok (.error e)) fun r => ?_) fun src => ?_
  · cases r with
    | ok a => exact hg a
    | error e => exact LooksUp.ok _
  · rw [ExceptT.run_bind]
    refine congrArg _ (funext fun r => ?_)
    cases r <;> rfl

end LooksUpT

end Attempts

/-! ## Evaluation -/

/-- A failure of the evaluation's own arithmetic. -/
def OwnFailure (e : Abort) : Prop := e = .expression

section Eval

variable [F64 F] {m : Machine} {Q : Type} {A : Q → Type}

theorem looksUp_okOr {α : Type} (e : String) (a : Option α) :
    LooksUpT OwnFailure fun _ : Source Q A Abort => okOr e a := by
  cases a with
  | none => exact LooksUpT.throw e
  | some a => exact LooksUpT.pure a

omit [F64 F] in
theorem looksUp_num (v : Value F) : LooksUpT OwnFailure fun _ : Source Q A Abort => num v :=
  looksUp_okOr _ _

theorem looksUp_apply (op : BinOp) (x y : F) :
    LooksUpT OwnFailure fun _ : Source Q A Abort => op.apply m x y := by
  have hshift (f : Int64 → Int64 → Int64) :
      LooksUpT OwnFailure fun _ : Source Q A Abort => shiftOp m f x y := by
    unfold shiftOp
    dsimp only
    refine LooksUpT.bind (LooksUpT.lift ?_) fun r => LooksUpT.pure _
    unfold Machine.checked
    split_ifs
    · exact LooksUp.error rfl
    · exact LooksUp.ok _
  cases op with
  | shl => exact hshift _
  | shr => exact hshift _
  | and => exact LooksUpT.throw _
  | or => exact LooksUpT.throw _
  | _ => exact LooksUpT.pure _

theorem looksUp_applyValues (op : BinOp) (a b : Value F) :
    LooksUpT OwnFailure fun _ : Source Q A Abort => op.applyValues m a b := by
  unfold BinOp.applyValues
  split
  · exact LooksUpT.pure _
  · exact LooksUpT.pure _
  · exact LooksUpT.throw _
  · exact (looksUp_num _).bind fun x => (looksUp_num _).bind fun y =>
      (looksUp_apply _ _ _).bind fun r => LooksUpT.pure _

variable {bits : String → ℕ → Option String}

/-- **Evaluation looks symbols up.** -/
theorem Expr.eval_looksUp : ∀ e : Expr F,
    LooksUpT OwnFailure fun src : Answers F => e.eval m (.ofAnswers bits src)
  | .num _ | .str _ => by unfold Expr.eval; exact .pure _
  | .ident name => by
    unfold Expr.eval
    exact (LooksUpT.lift (LooksUp.ask (Symbol.value name))).bind fun v => looksUp_okOr _ _
  | .unary .neg e => by
    unfold Expr.eval
    exact e.eval_looksUp.bind fun v => (looksUp_num v).bind fun x => .pure _
  | .unary .not e => by
    unfold Expr.eval
    exact e.eval_looksUp.bind fun v => .pure _
  | .binary op a b => by
    have ha := a.eval_looksUp
    have hb := b.eval_looksUp
    cases op <;> unfold Expr.eval
    case and =>
      refine ha.bind fun v => ?_
      split_ifs
      · exact hb.bind fun w => .pure _
      · exact .pure _
    case or =>
      refine ha.bind fun v => ?_
      split_ifs
      · exact .pure _
      · exact hb.bind fun w => .pure _
    all_goals exact ha.bind fun v => hb.bind fun w => looksUp_applyValues _ v w
  | .ternary c t f => by
    unfold Expr.eval
    refine c.eval_looksUp.bind fun v => ?_
    split_ifs
    · exact t.eval_looksUp
    · exact f.eval_looksUp
  | .index name idx => by
    unfold Expr.eval
    refine idx.eval_looksUp.bind fun v => (looksUp_num v).bind fun x => ?_
    exact (LooksUpT.lift (LooksUp.ask (Symbol.element name _))).bind fun r =>
      (looksUp_okOr _ _).bind fun y => .pure _
  | .call name args => by
    have hargs : ∀ e ∈ args, LooksUpT OwnFailure fun src : Answers F =>
      e.eval m (.ofAnswers bits src) := fun e _ => e.eval_looksUp
    unfold Expr.eval
    by_cases hbits : name = "bitStringValue"
    · simp only [hbits, if_true]
      split
      · refine (hargs _ (by simp)).bind fun v => (looksUp_num v).bind fun x => ?_
        exact (looksUp_okOr _ _).bind fun s => .pure _
      · exact .throw _
      · exact .throw _
    · by_cases harray : name = "arrayValue"
      · simp only [harray, if_neg (show ¬ "arrayValue" = "bitStringValue" by decide), if_true]
        split
        · next arr _ _ =>
          refine (hargs _ (by simp)).bind fun v => (looksUp_num v).bind fun x => ?_
          exact (LooksUpT.lift (LooksUp.ask (Symbol.element arr _))).bind fun r =>
            (looksUp_okOr _ _).bind fun y => .pure _
        · exact .throw _
        · exact .throw _
      · simp only [if_neg hbits, if_neg harray]
        split_ifs
        · exact (LooksUpT.lift (LooksUp.ask (Symbol.value name))).bind fun v => looksUp_okOr _ _
        · exact .throw _

theorem NumOrExpr.eval_looksUp (e : NumOrExpr F) :
    LooksUpT OwnFailure fun src : Answers F => e.eval m (.ofAnswers bits src) := by
  cases e with
  | num n => exact .pure n
  | expr e => exact e.eval_looksUp.bind fun v => looksUp_okOr _ _

omit [F64 F] in
theorem looksUp_evalOk {α : Type} {f : Source Q A Abort → Eval α} (hf : LooksUpT OwnFailure f) :
    LooksUp OwnFailure fun src => evalOk (f src) := by
  refine LooksUp.bind hf fun r => ?_
  cases r <;> exact .ok _

end Eval

/-! ## Reasons to abort -/

section AbortsOnly

open Exec

variable {P : Abort → Prop}

/-- What the source answers aborts for reasons in `P` only. -/
structure SymbolSource.AbortsOnly (P : Abort → Prop) (s : SymbolSource F) : Prop where
  value : ∀ name, Exec.AbortsOnly P (s.value name)
  arrayValue : ∀ name index, Exec.AbortsOnly P (s.arrayValue name index)

section

variable {Q : Type} {A : Q → Type} {α : Type}

theorem looksUp_const {x : Exec α} (hx : AbortsOnly P x) :
    LooksUp P fun _ : Source Q A Abort => x := by
  cases x with
  | ok a => exact .ok a
  | error e => exact .error (hx e rfl)

theorem abortsOnly_of_looksUp {f : Source Q A Abort → Exec α} (hf : LooksUp P f)
    {src : Source Q A Abort} (hsrc : ∀ q, AbortsOnly P (src q)) : AbortsOnly P (f src) := by
  intro e he
  rcases hf.eq_error he with hP | ⟨q, hq⟩
  · exact hP
  · exact hsrc q e hq

end

theorem SymbolSource.AbortsOnly.answers {s : SymbolSource F} (hs : s.AbortsOnly P) (q : Symbol) :
    Exec.AbortsOnly P (s.answers q) := by
  cases q with
  | value name => exact hs.value name
  | element name index => exact hs.arrayValue name index

variable [F64 F] {m : Machine} {s : SymbolSource F}

/-- **Evaluation aborts as its source does**, and in arithmetic of its own. -/
theorem NumOrExpr.eval_abortsOnly (hP : P .expression) (hs : s.AbortsOnly P) (e : NumOrExpr F) :
    AbortsOnly P (e.eval m s).run :=
  abortsOnly_of_looksUp (e.eval_looksUp.mono fun _ h => h ▸ hP) hs.answers

omit [F64 F] in
theorem evalOk_abortsOnly {α : Type} {x : Eval α} (hx : AbortsOnly P x.run) :
    AbortsOnly P (evalOk x) :=
  hx.bind fun r _ => by cases r <;> exact abortsOnly_ok _

end AbortsOnly

end RustyTune.TsIni
