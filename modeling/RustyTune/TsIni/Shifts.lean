import RustyTune.Lib.XRat
import RustyTune.TsIni.Expr

/-!
# Shifts in expressions

The one operation of an expression that overflows is a shift by a negative amount, or by 64 or more.

* `Symbols`: a source of symbols that answers.
* `Traced`: a value or an error text, with the amounts of the shifts on the way; `Expr.trace`:
  evaluation that notes the amounts and goes on.
* `settle`: what a machine makes of a trace. **`eval_eq_settle`**: the evaluation is its trace,
  settled.
* **`eval_returns_iff`**: so it returns exactly when the amounts fit or overflow wraps.
  **`shift_overflows`**: it does not always return.
-/

namespace RustyTune.TsIni

variable {F : Type}

/-! ## Traces -/

/-- A source of symbols that answers. -/
structure Symbols (F : Type) where
  value : String → Option (Value F)
  bitString : String → ℕ → Option String
  arrayValue : String → ℕ → Option F

def Symbols.source (syms : Symbols F) : SymbolSource F where
  value name := return syms.value name
  bitString := syms.bitString
  arrayValue name i := return syms.arrayValue name i

/-- A value or an error text, and the amounts of the shifts that led to it. -/
structure Traced (F α : Type) where
  amounts : List F
  result : Except String α

namespace Traced

variable {α β : Type}

def done (result : Except String α) : Traced F α := ⟨[], result⟩

instance : Monad (Traced F) where
  pure a := done (.ok a)
  bind x f :=
    match x.result with
    | .ok a => ⟨x.amounts ++ (f a).amounts, (f a).result⟩
    | .error e => ⟨x.amounts, .error e⟩

/-- `ok_or_else`. -/
def okOr (e : String) : Option α → Traced F α
  | some a => done (.ok a)
  | none => done (.error e)

end Traced

def Value.traceNum (v : Value F) : Traced F F :=
  Traced.okOr "expected a number, got a string" v.asNum

variable [F64 F]

/-- A binary operator on two numbers; a shift is by its amount modulo 64. -/
def BinOp.traceNumbers (op : BinOp) (x y : F) : Traced F F :=
  match op with
  | .add => return F64.add x y
  | .sub => return F64.sub x y
  | .mul => return F64.mul x y
  | .div => return F64.div x y
  | .rem => return F64.rem x y
  | .lt => return F64.ofBool (F64.lt x y)
  | .gt => return F64.ofBool (F64.lt y x)
  | .le => return F64.ofBool (F64.le x y)
  | .ge => return F64.ofBool (F64.le y x)
  | .eq => return F64.ofBool (F64.eq x y)
  | .ne => return F64.ofBool (!F64.eq x y)
  | .bitAnd => return bitOp (· &&& ·) x y
  | .bitOr => return bitOp (· ||| ·) x y
  | .bitXor => return bitOp (· ^^^ ·) x y
  | .shl => ⟨[y], .ok (bitOp (· <<< ·) x y)⟩
  | .shr => ⟨[y], .ok (bitOp (· >>> ·) x y)⟩
  | .and | .or => .done (.error "")

/-- A binary operator on two values. -/
def BinOp.traceValues (op : BinOp) (a b : Value F) : Traced F (Value F) :=
  match op, a, b with
  | .eq, .str x, .str y => return .num (F64.ofBool (x == y))
  | .ne, .str x, .str y => return .num (F64.ofBool (x != y))
  | _, .str _, .str _ => .done (.error "string operands in numeric expression")
  | op, a, b => do
    let x ← a.traceNum
    let y ← b.traceNum
    return .num (← op.traceNumbers x y)

/-- Evaluation that notes the amounts of shifts. -/
def Expr.trace (syms : Symbols F) : Expr F → Traced F (Value F)
  | .num n => return .num n
  | .str s => return .str s
  | .ident name => .okOr s!"unknown identifier `{name}`" (syms.value name)
  | .unary .neg e => do return .num (F64.neg (← (← e.trace syms).traceNum))
  | .unary .not e => do return .num (F64.ofBool (!(← e.trace syms).truthy))
  | .binary .and a b => do
    if (← a.trace syms).truthy then return .num (F64.ofBool (← b.trace syms).truthy)
    else return .num 0
  | .binary .or a b => do
    if (← a.trace syms).truthy then return .num 1
    else return .num (F64.ofBool (← b.trace syms).truthy)
  | .binary op a b => do op.traceValues (← a.trace syms) (← b.trace syms)
  | .ternary c t f => do if (← c.trace syms).truthy then t.trace syms else f.trace syms
  | .index name idx => do
    let idx := (F64.toU64 (← (← idx.trace syms).traceNum)).toNat
    return .num (← Traced.okOr s!"unknown array `{name}[{idx}]`" (syms.arrayValue name idx))
  | .call name args =>
    if name = "bitStringValue" then
      match args with
      | .ident list :: e :: _ => do
        let idx := (F64.toU64 (← (← e.trace syms).traceNum)).toNat
        return .str (← Traced.okOr s!"bitStringValue({list}, {idx})" (syms.bitString list idx))
      | .ident _ :: [] => .done (.error "bitStringValue: missing index")
      | _ => .done (.error "bitStringValue: first arg must be a name")
    else if name = "arrayValue" then
      match args with
      | .ident arr :: e :: _ => do
        let idx := (F64.toU64 (← (← e.trace syms).traceNum)).toNat
        return .num (← Traced.okOr s!"arrayValue({arr}, {idx})" (syms.arrayValue arr idx))
      | .ident _ :: [] => .done (.error "arrayValue: missing index")
      | _ => .done (.error "arrayValue: first arg must be a name")
    else if args.isEmpty then .okOr s!"unknown function `{name}`" (syms.value name)
    else .done (.error s!"unknown function `{name}`")

/-! ## The evaluation is its trace -/

/-- The amount is one that a shift of 64 bits can be by. -/
def ShiftFits (y : F) : Prop := 0 ≤ (F64.toI64 y).toInt ∧ (F64.toI64 y).toInt < 64

instance (y : F) : Decidable (ShiftFits y) := inferInstanceAs (Decidable (_ ∧ _))

/-- No shift overflows on the machine. -/
def ShiftsFit (m : Machine) (amounts : List F) : Prop :=
  m.build = .release ∨ ∀ y ∈ amounts, ShiftFits y

instance (m : Machine) (amounts : List F) : Decidable (ShiftsFit m amounts) :=
  inferInstanceAs (Decidable (_ ∨ _))

theorem shiftsFit_nil (m : Machine) : ShiftsFit m ([] : List F) :=
  .inr fun _ hy => absurd hy List.not_mem_nil

theorem shiftsFit_append {m : Machine} {as bs : List F} :
    ShiftsFit m (as ++ bs) ↔ ShiftsFit m as ∧ ShiftsFit m bs := by
  unfold ShiftsFit
  rw [List.forall_mem_append, or_and_left]

section Settle

variable {α β : Type} (m : Machine) {syms : Symbols F}

/-- What a machine makes of a trace. -/
def settle (x : Traced F α) : Eval α :=
  ExceptT.mk (if ShiftsFit m x.amounts then .ok x.result else .error .expression)

variable {m}

theorem settle_of_fits {x : Traced F α} (h : ShiftsFit m x.amounts) :
    settle m x = ExceptT.mk (.ok x.result) := if_pos h

theorem settle_of_not_fits {x : Traced F α} (h : ¬ ShiftsFit m x.amounts) :
    settle m x = ExceptT.mk (.error .expression) := if_neg h

@[simp] theorem settle_done (r : Except String α) :
    settle m (.done r : Traced F α) = ExceptT.mk (.ok r) := settle_of_fits (shiftsFit_nil m)

@[simp] theorem settle_pure (a : α) : settle m (pure a : Traced F α) = pure a := settle_done _

@[simp] theorem settle_okOr (e : String) (a : Option α) :
    settle m (.okOr e a : Traced F α) = okOr e a := by
  cases a <;> exact settle_done _

/-- **A sequence settles as its parts do.** -/
@[simp] theorem settle_bind (x : Traced F α) (f : α → Traced F β) :
    settle m (x >>= f) = settle m x >>= fun a => settle m (f a) := by
  obtain ⟨amounts, result⟩ := x
  by_cases h : ShiftsFit m amounts
  · rw [settle_of_fits (x := ⟨amounts, result⟩) h]
    cases result with
    | error e => exact settle_of_fits (x := ⟨amounts, .error e⟩) h
    | ok a =>
      change settle m ⟨amounts ++ (f a).amounts, (f a).result⟩ = settle m (f a)
      by_cases hf : ShiftsFit m (f a).amounts
      · rw [settle_of_fits hf]
        exact settle_of_fits (shiftsFit_append.mpr ⟨h, hf⟩)
      · rw [settle_of_not_fits hf]
        exact settle_of_not_fits fun hboth => hf (shiftsFit_append.mp hboth).2
  · rw [settle_of_not_fits (x := ⟨amounts, result⟩) h]
    cases result with
    | error e => exact settle_of_not_fits (x := ⟨amounts, .error e⟩) h
    | ok a => exact settle_of_not_fits fun hboth => h (shiftsFit_append.mp hboth).1

@[simp] theorem settle_traceNum (v : Value F) : settle m v.traceNum = num v := settle_okOr _ _

theorem settle_shift (f : Int64 → Int64 → Int64) (x y : F) :
    settle m ⟨[y], .ok (bitOp f x y)⟩ = shiftOp m f x y := by
  have hchecked : m.checked (0 ≤ (F64.toI64 y).toInt ∧ (F64.toI64 y).toInt < 64)
      (f (F64.toI64 x) (F64.toI64 y)) =
        if ShiftsFit m [y] then .ok (f (F64.toI64 x) (F64.toI64 y)) else .error .overflow := by
    have hfits : ShiftsFit m [y] ↔ m.build = .release ∨ ShiftFits y := by
      rw [ShiftsFit, List.forall_mem_singleton]
    unfold Machine.checked
    cases hm : m.build with
    | release => rw [if_neg (by simp), if_pos (hfits.mpr (.inl hm))]
    | debug =>
      by_cases hy : ShiftFits y
      · rw [if_neg fun h => Bool.noConfusion (h.2.symm.trans (decide_eq_true hy)),
          if_pos (hfits.mpr (.inr hy))]
      · rw [if_pos ⟨rfl, decide_eq_false hy⟩, if_neg (by simp [hfits, hm, hy])]
  unfold shiftOp
  dsimp only
  rw [hchecked]
  by_cases h : ShiftsFit m [y]
  · rw [if_pos h]
    exact settle_of_fits h
  · rw [if_neg h]
    exact settle_of_not_fits h

theorem settle_traceNumbers (op : BinOp) (x y : F) :
    settle m (op.traceNumbers x y) = op.apply m x y := by
  cases op with
  | shl => exact settle_shift _ x y
  | shr => exact settle_shift _ x y
  | _ => exact settle_done _

theorem settle_traceValues (op : BinOp) (a b : Value F) :
    settle m (op.traceValues a b) = op.applyValues m a b := by
  have hnumbers (op : BinOp) (a b : Value F) : settle m (do
      let x ← a.traceNum
      let y ← b.traceNum
      return .num (← op.traceNumbers x y) : Traced F (Value F)) = do
        let x ← num a
        let y ← num b
        return .num (← op.apply m x y) := by
    simp only [settle_bind, settle_traceNum, settle_traceNumbers, settle_pure]
  cases a with
  | num x => cases op <;> exact hnumbers _ _ _
  | str x =>
    cases b with
    | num y => cases op <;> exact hnumbers _ _ _
    | str y => cases op <;> exact settle_done _

theorem settle_args {args : List (Expr F)} {k : String → Expr F → Eval α}
    {k' : String → Expr F → Traced F α} {missing first : String} :
    (∀ name, ∀ e ∈ args, k name e = settle m (k' name e)) →
    (match args with
      | .ident name :: e :: _ => k name e
      | .ident _ :: [] => throw missing
      | _ => throw first) =
    settle m (match args with
      | .ident name :: e :: _ => k' name e
      | .ident _ :: [] => .done (.error missing)
      | _ => .done (.error first)) := by
  intro h
  rcases args with _ | ⟨a, _ | ⟨e, rest⟩⟩
  · exact (settle_done (F := F) _).symm
  · cases a <;> exact (settle_done (F := F) _).symm
  · cases a
    case ident name => exact h name e (by simp)
    all_goals exact (settle_done (F := F) _).symm

end Settle

/-- **The evaluation is its trace**, settled on the machine. -/
theorem eval_eq_settle (m : Machine) (syms : Symbols F) :
    ∀ e : Expr F, e.eval m syms.source = settle m (e.trace syms)
  | .num n => by rw [Expr.eval, Expr.trace, settle_pure]
  | .str s => by rw [Expr.eval, Expr.trace, settle_pure]
  | .ident name => by
    rw [Expr.eval, Expr.trace, settle_okOr]
    rfl
  | .unary .neg e => by
    rw [Expr.eval, Expr.trace, eval_eq_settle m syms e]
    simp only [settle_bind, settle_traceNum, settle_pure]
  | .unary .not e => by
    rw [Expr.eval, Expr.trace, eval_eq_settle m syms e]
    simp only [settle_bind, settle_pure]
  | .binary op a b => by
    have ha := eval_eq_settle m syms a
    have hb := eval_eq_settle m syms b
    cases op <;> unfold Expr.eval Expr.trace <;> rw [ha, hb]
    case and =>
      rw [settle_bind]
      refine bind_congr fun v => ?_
      split_ifs
      · simp only [settle_bind, settle_pure]
      · exact (settle_pure _).symm
    case or =>
      rw [settle_bind]
      refine bind_congr fun v => ?_
      split_ifs
      · exact (settle_pure _).symm
      · simp only [settle_bind, settle_pure]
    all_goals simp only [settle_bind, settle_traceValues]
  | .ternary c t f => by
    rw [Expr.eval, Expr.trace, eval_eq_settle m syms c, eval_eq_settle m syms t,
      eval_eq_settle m syms f, settle_bind]
    refine bind_congr fun v => ?_
    split_ifs <;> rfl
  | .index name idx => by
    rw [Expr.eval, Expr.trace, eval_eq_settle m syms idx]
    simp only [settle_bind, settle_traceNum, settle_okOr, settle_pure]
    rfl
  | .call name args => by
    have hargs : ∀ e ∈ args, e.eval m syms.source = settle m (e.trace syms) :=
      fun e _ => eval_eq_settle m syms e
    unfold Expr.eval Expr.trace
    split_ifs
    · refine settle_args fun list e he => ?_
      rw [hargs e he]
      simp only [settle_bind, settle_traceNum, settle_okOr, settle_pure]
      rfl
    · refine settle_args fun arr e he => ?_
      rw [hargs e he]
      simp only [settle_bind, settle_traceNum, settle_okOr, settle_pure]
      rfl
    · rw [settle_okOr]
      rfl
    · exact (settle_done (F := F) _).symm

/-- **An evaluation returns exactly when its shifts fit, or overflow wraps.** -/
theorem eval_returns_iff (m : Machine) (syms : Symbols F) (e : Expr F) :
    (∃ r, (e.eval m syms.source).run = .ok r) ↔
      m.build = .release ∨ ∀ y ∈ (e.trace syms).amounts, ShiftFits y := by
  rw [eval_eq_settle]
  constructor
  · rintro ⟨r, hr⟩
    by_contra h
    rw [settle_of_not_fits h] at hr
    exact nomatch hr
  · intro h
    rw [settle_of_fits h]
    exact ⟨_, rfl⟩

def noSymbols : Symbols F := ⟨fun _ => none, fun _ _ => none, fun _ _ => none⟩

/-- **A shift may overflow.** In a debug build `1 << 64` does not return. -/
theorem shift_overflows : ¬ ∀ (m : Machine) (syms : Symbols XRat) (e : Expr XRat),
    ∃ r, (e.eval m syms.source).run = .ok r := by
  intro h
  have hfits := (eval_returns_iff _ _ _).mp
    (h ⟨.debug, 8⟩ noSymbols (.binary .shl (.num (.fin 1)) (.num (.fin 64))))
  exact absurd hfits (by decide +kernel)

end RustyTune.TsIni
