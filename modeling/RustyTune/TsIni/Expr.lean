import RustyTune.Lib.Checked
import RustyTune.Lib.F64

/-!
# Expressions

`{ expression }` fields of a definition and their evaluation against a source of symbols.

* `Expr`, `Value`, `SymbolSource`.
* `Eval`: an evaluation ends in a value, in an error text, or aborts.
* `Expr.eval`: evaluation, with `BinOp.apply` for two numbers.
-/

namespace RustyTune.TsIni

inductive UnOp
  | neg
  | not
  deriving DecidableEq, Repr

inductive BinOp
  | add | sub | mul | div | rem
  | lt | gt | le | ge | eq | ne
  | and | or
  | bitAnd | bitOr | bitXor | shl | shr
  deriving DecidableEq, Repr

inductive Expr (F : Type)
  | num (n : F)
  | str (s : String)
  | ident (name : String)
  | unary (op : UnOp) (e : Expr F)
  | binary (op : BinOp) (a b : Expr F)
  | ternary (c t f : Expr F)
  | call (name : String) (args : List (Expr F))
  /-- `name[index]`, an element of an array constant. -/
  | index (name : String) (idx : Expr F)

/-- Result of evaluating an expression. -/
inductive Value (F : Type)
  | num (n : F)
  | str (s : String)
  deriving DecidableEq, Repr

/-- Where identifiers and builtin calls get their values from. -/
structure SymbolSource (F : Type) where
  /-- Value of a plain identifier. -/
  value : String → Exec (Option (Value F))
  /-- The index'th label of a bits constant's list. -/
  bitString : String → ℕ → Option String
  /-- Element of an array constant. -/
  arrayValue : String → ℕ → Exec (Option F)

/-- Evaluation: a value, an error text, or an abort. -/
abbrev Eval (α : Type) : Type := ExceptT String Exec α

/-- `ok_or_else`. -/
def okOr {α : Type} (e : String) : Option α → Eval α
  | some a => pure a
  | none => throw e

/-- `.ok()` of an evaluation. -/
def evalOk {α : Type} (e : Eval α) : Exec (Option α) := do
  match ← e.run with
  | .ok a => return some a
  | .error _ => return none

variable {F : Type}

namespace Value

def asNum : Value F → Option F
  | num n => some n
  | str _ => none

variable [F64 F]

def truthy : Value F → Bool
  | num n => !F64.eq n 0
  | str s => !s.isEmpty

end Value

def num (v : Value F) : Eval F := okOr "expected a number, got a string" v.asNum

variable [F64 F]

/-- `&`, `|` and `^` on the operands cast to `i64`. -/
def bitOp (f : Int64 → Int64 → Int64) (x y : F) : F :=
  F64.ofInt (f (F64.toI64 x) (F64.toI64 y)).toInt

/-- `<<` and `>>` on the operands cast to `i64`: a negative or too large amount overflows. -/
def shiftOp (m : Machine) (f : Int64 → Int64 → Int64) (x y : F) : Eval F := do
  let amount := (F64.toI64 y).toInt
  let r ← ((m.checked (0 ≤ amount ∧ amount < 64) (f (F64.toI64 x) (F64.toI64 y))).mapError
    fun _ => .expression : Exec Int64)
  return F64.ofInt r.toInt

/-- A binary operator on two numbers. -/
def BinOp.apply (m : Machine) (op : BinOp) (x y : F) : Eval F :=
  match op with
  | .add => return F64.add x y
  | .sub => return F64.sub x y
  | .mul => return F64.mul x y
  | .div => return F64.div x y
  | .rem => return F64.rem x y
  | .lt => return F64.ofBool (F64.lt x y)
  | .gt => return F64.ofBool (F64.lt y x)
  | .le => return F64.ofBool (F64.le x y)
  | .ge => return F64.ofBool (F64.le y x)
  | .eq => return F64.ofBool (F64.eq x y)
  | .ne => return F64.ofBool (!F64.eq x y)
  | .bitAnd => return bitOp (· &&& ·) x y
  | .bitOr => return bitOp (· ||| ·) x y
  | .bitXor => return bitOp (· ^^^ ·) x y
  -- Lean's shifts reduce the amount to the width, as the wrapping ones do
  | .shl => shiftOp m (· <<< ·) x y
  | .shr => shiftOp m (· >>> ·) x y
  -- handled before the operands are evaluated
  | .and | .or => throw ""

/-- A binary operator on two values. -/
def BinOp.applyValues (m : Machine) (op : BinOp) (a b : Value F) : Eval (Value F) :=
  match op, a, b with
  | .eq, .str x, .str y => return .num (F64.ofBool (x == y))
  | .ne, .str x, .str y => return .num (F64.ofBool (x != y))
  | _, .str _, .str _ => throw "string operands in numeric expression"
  | op, a, b => do
    let x ← num a
    let y ← num b
    return .num (← op.apply m x y)

namespace Expr

def eval (m : Machine) (syms : SymbolSource F) : Expr F → Eval (Value F)
  | .num n => return .num n
  | .str s => return .str s
  | .ident name => do okOr s!"unknown identifier `{name}`" (← (syms.value name : Exec _))
  | .unary .neg e => do return .num (F64.neg (← TsIni.num (← e.eval m syms)))
  | .unary .not e => do return .num (F64.ofBool (!(← e.eval m syms).truthy))
  | .binary .and a b => do
    if (← a.eval m syms).truthy then
      return .num (F64.ofBool (← b.eval m syms).truthy)
    else
      return .num 0
  | .binary .or a b => do
    if (← a.eval m syms).truthy then
      return .num 1
    else
      return .num (F64.ofBool (← b.eval m syms).truthy)
  | .binary op a b => do op.applyValues m (← a.eval m syms) (← b.eval m syms)
  | .ternary c t f => do if (← c.eval m syms).truthy then t.eval m syms else f.eval m syms
  | .index name idx => do
    let idx := (F64.toU64 (← TsIni.num (← idx.eval m syms))).toNat
    return .num (← okOr s!"unknown array `{name}[{idx}]`" (← (syms.arrayValue name idx : Exec _)))
  | .call name args =>
    if name = "bitStringValue" then
      match args with
      | .ident list :: e :: _ => do
        let idx := (F64.toU64 (← TsIni.num (← e.eval m syms))).toNat
        return .str (← okOr s!"bitStringValue({list}, {idx})" (syms.bitString list idx))
      | .ident _ :: [] => throw "bitStringValue: missing index"
      | _ => throw "bitStringValue: first arg must be a name"
    else if name = "arrayValue" then
      match args with
      | .ident arr :: e :: _ => do
        let idx := (F64.toU64 (← TsIni.num (← e.eval m syms))).toNat
        return .num (← okOr s!"arrayValue({arr}, {idx})" (← (syms.arrayValue arr idx : Exec _)))
      | .ident _ :: [] => throw "arrayValue: missing index"
      | _ => throw "arrayValue: first arg must be a name"
    else if args.isEmpty then do
      okOr s!"unknown function `{name}`" (← (syms.value name : Exec _))
    else
      throw s!"unknown function `{name}`"

end Expr

end RustyTune.TsIni
