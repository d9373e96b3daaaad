import Mathlib.Data.List.Forall2
import RustyTune.Lib.Utf8
import RustyTune.TuneModel.Raw
import RustyTune.TuneModel.Tune

/-!
# Access to constants

Reading a constant decodes it, writing one encodes it. Scale, translate and limits may be
expressions over other constants, so the tune is its own source of symbols.

* `TuneError`, `Attempt`: what an access can end in.
* `onesU64`, `fieldValue`, `fieldRaw`, `fieldSet`: bit fields of a word.
* `Tune.symbolsAt`, `Tune.symbols`: the tune as a source of symbols, with a bound on nested look-ups.
* `Tune.constantValue`, `Tune.arrayElement`, `Tune.arrayValues`: decoded values.
* `Tune.encodeImpl`: the raw value for a value in user units.
* `Tune.setConstantImpl`, `Tune.setArrayElementImpl`: writes into the local page data.
* `Tune.constantRaw`, `Tune.arrayRaw`: raw values, for exact comparison.
* `Tune.setPcValue`: variables of the tuning application.
-/

namespace RustyTune.TuneModel

open TsIni

inductive TuneError
  | unknownConstant (name : String)
  | unknownTable (id : String)
  | notEditable (name why : String)
  | indexRange (name : String) (index len : ℕ)
  | eval (what e : String)
  deriving DecidableEq, Repr

def TuneError.display : TuneError → String
  | .unknownConstant name => s!"unknown constant `{name}`"
  | .unknownTable id => s!"unknown table `{id}`"
  | .notEditable name why => s!"`{name}` is not editable ({why})"
  | .indexRange name index len => s!"index {index} out of range for `{name}` ({len} elements)"
  | .eval what e => s!"evaluating `{what}`: {e}"

/-- An access: a result, an error, or an abort. -/
abbrev Attempt (α : Type) : Type := ExceptT TuneError Exec α

def orError {α : Type} (e : TuneError) : Option α → Attempt α
  | some a => pure a
  | none => throw e

/-! ## Bit fields -/

section Fields

variable (m : Machine) (lo hi : UInt8)

/-- `hi - lo + 1`. -/
def fieldWidth : Exec UInt8 := do m.addU8 (← m.subU8 hi lo) 1

/-- `(1u64 << (hi - lo + 1)) - 1`. -/
def onesU64 : Exec (BitVec 64) := do m.predU64 (← m.shlU64 1 (← fieldWidth m lo hi).toNat)

/-- `(1i64 << (hi - lo + 1)) - 1`. -/
def onesI64 : Exec (BitVec 64) := do m.predI64 (← m.shlI64 1 (← fieldWidth m lo hi).toNat)

/-- The field of a word, as `constantValue` takes it. -/
def fieldValue (raw : BitVec 64) : Exec (BitVec 64) := do
  let mask ← onesU64 m lo hi
  return (← m.shrU64 raw lo.toNat) &&& mask

/-- The field of a word, as `constantRaw` takes it. -/
def fieldRaw (raw : BitVec 64) : Exec (BitVec 64) := do
  let mask ← onesI64 m lo hi
  return (← m.shrI64 raw lo.toNat) &&& mask

/-- The bits of the word that a write sets. -/
def fieldMask : Exec (BitVec 64) := do m.shlU64 (← onesU64 m lo hi) lo.toNat

/-- The word with the field set to the low bits of `index`. -/
def fieldSet (current index : BitVec 64) : Exec (BitVec 64) := do
  let mask ← fieldMask m lo hi
  let value := (← m.shlU64 index lo.toNat) &&& mask
  return (current &&& ~~~mask) ||| value

end Fields

namespace Tune

variable {F : Type}

def constant (t : Tune F) (name : String) : Option (ConstantDef F) := t.df.constants.get? name

/-- The page index and the offset in it of a page constant. -/
def location (c : ConstantDef F) : Option (ℕ × ℕ) :=
  match c.page, c.offset with
  | some page, some offset => if page = 0 then none else some (page.toNat - 1, offset.toNat)
  | _, _ => none

/-- The page of a constant and its offset in it, if the tune has that page. -/
def located (t : Tune F) (c : ConstantDef F) : Option (PageState × ℕ) :=
  (location c).bind fun (pageIdx, offset) => (t.page pageIdx).map fun page => (page, offset)

/-- `self.pages[pageIdx]`. -/
def pageAt (t : Tune F) (pageIdx : ℕ) : Exec PageState :=
  match t.page pageIdx with
  | some page => .ok page
  | none => .error .indexOutOfBounds

/-- The tune with a raw value written into the local data of a page; what `writeRaw` reports is
ignored. -/
def writePage (t : Tune F) (pageIdx offset : ℕ) (ty : DataType) (raw : ℤ) : Tune F :=
  t.modifyPage pageIdx fun p => { p with data := (writeRaw p.data offset ty raw).1 }

variable [F64 F]

/-! ## Decoding -/

section Decode

variable (m : Machine) (syms : SymbolSource F)

/-- A raw value in user units: `(raw + translate) * scale`. -/
def scaled (c : ConstantDef F) (raw : ℤ) : Exec (Option F) := do
  match ← evalOk (c.scale.eval m syms) with
  | none => return none
  | some scale =>
    match ← evalOk (c.translate.eval m syms) with
    | none => return none
    | some translate => return some (F64.mul (F64.add (F64.ofInt raw) translate) scale)

/-- A text without the zeros and blanks at its end. -/
def decodeText (bytes : List UInt8) : String :=
  String.ofList (Text.trimEndWhere (fun c => c == '\x00' || c == ' ') (Text.utf8Lossy bytes))

/-- `constantValue`, with the symbols that scale and translate are evaluated against. -/
def constantValueWith (t : Tune F) (name : String) : Exec (Option (Value F)) :=
  match t.constant name with
  | none => return none
  | some c =>
    match t.located c with
    | none => return none
    | some (page, offset) =>
      match c.cls with
      | .scalar =>
        match readRaw page.data offset c.ty with
        | none => return none
        | some raw => return (← scaled m syms c raw).map .num
      | .bits =>
        match readRaw page.data offset c.ty, c.shape with
        | some raw, some (.bits lo hi) =>
          return some (.num (F64.ofInt (← fieldValue m lo hi (BitVec.ofInt 64 raw)).toNat))
        | _, _ => return none
      | .string =>
        match c.stringLen with
        | none => return none
        | some len => return (slice? page.data offset len.toNat).map fun text => .str (decodeText text)
      | .array => return none

/-- `arrayElement`, with the symbols that scale and translate are evaluated against. -/
def arrayElementWith (t : Tune F) (name : String) (index : ℕ) : Exec (Option F) :=
  match t.constant name with
  | none => return none
  | some c =>
    if c.cls ≠ .array then return none
    else if c.elementCount ≤ index then return none
    else
      match t.located c with
      | none => return none
      | some (page, offset) =>
        match readRaw page.data (offset + index * c.ty.size) c.ty with
        | none => return none
        | some raw => scaled m syms c raw

end Decode

omit [F64 F] in
/-- The label of a choice, of a constant or else of a variable. -/
def bitString (t : Tune F) (list : String) (index : ℕ) : Option String :=
  ((t.df.constants.get? list).or (t.df.pcVariables.get? list)).bind fun c => c.labels[index]?

/-- The tune as a source of symbols, for look-ups nested no deeper than the bound. -/
def symbolsAt (m : Machine) (t : Tune F) : ℕ → SymbolSource F
  | 0 => { value := fun _ => .error .stackOverflow
           bitString := t.bitString
           arrayValue := fun _ _ => .error .stackOverflow }
  | depth + 1 =>
    { value := fun name =>
        if t.df.constants.containsKey name then
          t.constantValueWith m (symbolsAt m t depth) name
        else
          match t.pcValues.get? name with
          | some v => return some (.num v)
          | none =>
            match t.df.outputChannels.get? name with
            | some (.derived expr _) => evalOk (expr.eval m (symbolsAt m t depth))
            | _ => return none
      bitString := t.bitString
      arrayValue := t.arrayElementWith m (symbolsAt m t depth) }

variable (m : Machine)

/-- The tune as a source of symbols. -/
def symbols (t : Tune F) : SymbolSource F := t.symbolsAt m m.stack

/-- Decoded user value of a scalar, bits or string constant; for bits the index of the choice. -/
def constantValue (t : Tune F) (name : String) : Exec (Option (Value F)) :=
  t.constantValueWith m (t.symbols m) name

/-- One element of an array constant in user units. -/
def arrayElement (t : Tune F) (name : String) (index : ℕ) : Exec (Option F) :=
  t.arrayElementWith m (t.symbols m) name index

/-- `collect` of optional values: the first one missing ends it. -/
def collect {α : Type} (f : ℕ → Exec (Option α)) : List ℕ → Exec (Option (List α))
  | [] => return some []
  | i :: is => do
    match ← f i with
    | none => return none
    | some a => return (← collect f is).map (a :: ·)

theorem collect_eq_some {α : Type} {f : ℕ → Exec (Option α)} {is : List ℕ} {vs : List α} :
    collect f is = .ok (some vs) ↔ List.Forall₂ (fun i v => f i = .ok (some v)) is vs := by
  induction is generalizing vs with
  | nil =>
    rw [List.forall₂_nil_left_iff]
    change (Except.ok (some []) : Exec (Option (List α))) = .ok (some vs) ↔ _
    simp [eq_comm]
  | cons i is ih =>
    rw [collect, Exec.bind_eq_ok, List.forall₂_cons_left_iff]
    constructor
    · rintro ⟨a, ha, h⟩
      cases a with
      | none => exact nomatch h
      | some a =>
        obtain ⟨as, has, h⟩ := Exec.bind_eq_ok.mp h
        cases as with
        | none => exact nomatch h
        | some as => exact ⟨a, as, ha, ih.mp has, (Option.some.inj (Except.ok.inj h)).symm⟩
    · rintro ⟨a, as, ha, has, rfl⟩
      refine ⟨some a, ha, ?_⟩
      dsimp only
      rw [ih.mpr has]
      rfl

def arrayValues (t : Tune F) (name : String) : Exec (Option (List F)) :=
  match (t.constant name).bind ConstantDef.shape with
  | none => return none
  | some shape => collect (t.arrayElement m name) (List.range shape.elementCount)

/-! ## Encoding -/

/-- A field of a definition as a number; an error names the field. -/
def evalField (t : Tune F) (field : NumOrExpr F) (what : String) : Attempt F := do
  match ← (field.eval m (t.symbols m)).run with
  | .ok x => return x
  | .error e => throw (.eval what e)

/-- A limit, if it is there and evaluates. -/
def limit (t : Tune F) : Option (NumOrExpr F) → Exec (Option F)
  | none => return none
  | some l => evalOk (l.eval m (t.symbols m))

/-- A value within the limits of the definition. -/
def clampUser (t : Tune F) (c : ConstantDef F) (user : F) : Exec F := do
  let user := match ← t.limit m c.lo with
    | some lo => F64.max user lo
    | none => user
  return match ← t.limit m c.hi with
    | some hi => F64.min user hi
    | none => user

/-- The raw value for a value in user units; `clamp` applies the limits of the definition, which
restoring and comparing a saved tune do not. -/
def encodeImpl (t : Tune F) (c : ConstantDef F) (user : F) (clamp : Bool) : Attempt ℤ := do
  let scale ← t.evalField m c.scale s!"{c.name} scale"
  let translate ← t.evalField m c.translate s!"{c.name} translate"
  if F64.eq scale 0 then
    throw (.eval c.name "scale is zero")
  let user ← if clamp then (t.clampUser m c user : Exec F) else pure user
  let raw := F64.toI64 (F64.round (F64.sub (F64.div user scale) translate))
  return clampRaw c.ty raw.toInt

/-- The raw value for a value in user units, for comparison. -/
def encodeUser (t : Tune F) (name : String) (user : F) : Attempt ℤ := do
  let c ← orError (.unknownConstant name) (t.constant name)
  t.encodeImpl m c user false

/-! ## Writing

Every check comes before the write, so the tune is as it was where a write ends in an error. -/

/-- Write a scalar or bits constant into the local page data. -/
def setConstantImpl (t : Tune F) (name : String) (user : F) (clamp : Bool) : Attempt (Tune F) := do
  let c ← orError (.unknownConstant name) (t.constant name)
  let (pageIdx, offset) ← orError (.notEditable name "not a page constant") (location c)
  match c.cls, c.shape with
  | .scalar, _ =>
    let raw ← t.encodeImpl m c user clamp
    let _ ← (t.pageAt pageIdx : Exec PageState)
    return t.writePage pageIdx offset c.ty raw
  | .bits, some (.bits lo hi) =>
    let page ← (t.pageAt pageIdx : Exec PageState)
    let current ← orError (.notEditable name "out of page") (readRaw page.data offset c.ty)
    let index := (F64.toU64 (F64.max (F64.round user) 0)).toBitVec
    let raw ← (fieldSet m lo hi (BitVec.ofInt 64 current) index : Exec (BitVec 64))
    return t.writePage pageIdx offset c.ty raw.toInt
  | .bits, _ => throw (.notEditable name "malformed bits shape")
  | _, _ => throw (.notEditable name "use set_array_element for arrays")

/-- Write one element of an array constant. -/
def setArrayElementImpl (t : Tune F) (name : String) (index : ℕ) (user : F) (clamp : Bool) :
    Attempt (Tune F) := do
  let c ← orError (.unknownConstant name) (t.constant name)
  if c.cls ≠ .array then
    throw (.notEditable name "not an array")
  if c.elementCount ≤ index then
    throw (.indexRange name index c.elementCount)
  let (pageIdx, offset) ← orError (.notEditable name "not a page constant") (location c)
  let raw ← t.encodeImpl m c user clamp
  let _ ← (t.pageAt pageIdx : Exec PageState)
  return t.writePage pageIdx (offset + index * c.ty.size) c.ty raw

/-- Interactive edits keep within the limits of the definition. -/
def setConstant (t : Tune F) (name : String) (user : F) : Attempt (Tune F) :=
  t.setConstantImpl m name user true

def setConstantUnclamped (t : Tune F) (name : String) (user : F) : Attempt (Tune F) :=
  t.setConstantImpl m name user false

def setArrayElement (t : Tune F) (name : String) (index : ℕ) (user : F) : Attempt (Tune F) :=
  t.setArrayElementImpl m name index user true

def setArrayElementUnclamped (t : Tune F) (name : String) (index : ℕ) (user : F) :
    Attempt (Tune F) :=
  t.setArrayElementImpl m name index user false

/-! ## Raw access -/

/-- Raw value of a scalar or bits constant; for bits the index of the choice. -/
def constantRaw (t : Tune F) (name : String) : Exec (Option ℤ) :=
  match t.constant name with
  | none => return none
  | some c =>
    match t.located c with
    | none => return none
    | some (page, offset) =>
      match readRaw page.data offset c.ty with
      | none => return none
      | some raw =>
        match c.cls, c.shape with
        | .bits, some (.bits lo hi) =>
          return some (← fieldRaw m lo hi (BitVec.ofInt 64 raw)).toInt
        | .bits, _ => return none
        | _, _ => return some raw

/-- Raw value of an element; the index is not checked against the number of elements. -/
def arrayRaw (t : Tune F) (name : String) (index : ℕ) : Option ℤ :=
  (t.constant name).bind fun c =>
    (t.located c).bind fun (page, offset) => readRaw page.data (offset + index * c.ty.size) c.ty

/-! ## Variables of the tuning application -/

/-- Set a variable, within its limits; nothing on a page changes. -/
def setPcValue (t : Tune F) (name : String) (user : F) : Attempt (Tune F) := do
  let c ← orError (.unknownConstant name) (t.df.pcVariables.get? name)
  let user ← (t.clampUser m c user : Exec F)
  return { t with pcValues := t.pcValues.insert name user }

end Tune

end RustyTune.TuneModel
