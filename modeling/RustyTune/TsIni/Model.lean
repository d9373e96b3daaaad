import RustyTune.Lib.IndexMap
import RustyTune.TsIni.Expr

/-!
# The definition model

What parsing an ECU definition produces: constants on pages, variables of the tuning application,
output channels, the header of the page protocol, and what the application shows of them.

* `NumOrExpr`, `StrOrExpr`: fields that may be expressions.
* `DataType`, `Shape`, `ConstantDef`, `ConstantsHeader`, `OutputChannel`: what is in the ECU.
* `TableDef`, `CurveDef`, `GaugeDef`, `MenuDef`, `DialogDef` and the rest: what is shown.
* `IniDef`: all of it.
-/

namespace RustyTune.TsIni

variable {F : Type}

/-- A literal number or an expression evaluated later. -/
inductive NumOrExpr (F : Type)
  | num (n : F)
  | expr (e : Expr F)

/-- A literal string or an expression evaluated later. -/
inductive StrOrExpr (F : Type)
  | str (s : String)
  | expr (e : Expr F)

namespace NumOrExpr

def eval [F64 F] (m : Machine) (syms : SymbolSource F) : NumOrExpr F → Eval F
  | num n => return n
  | expr e => do
    okOr "expression yielded a string, expected number" (← e.eval m syms).asNum

/-- The literal value, if this needs no evaluation. -/
def literal : NumOrExpr F → Option F
  | num n => some n
  | expr _ => none

end NumOrExpr

def StrOrExpr.eval [F64 F] (m : Machine) (syms : SymbolSource F) : StrOrExpr F → Eval String
  | str s => return s
  | expr e => do
    match ← e.eval m syms with
    | .str s => return s
    | .num n => return F64.display n

inductive DataType
  | u08 | s08 | u16 | s16 | u32 | s32 | ascii
  deriving DecidableEq, Repr

namespace DataType

/-- Bytes of a value of the type. -/
def size : DataType → ℕ
  | u08 | s08 | ascii => 1
  | u16 | s16 => 2
  | u32 | s32 => 4

def signed : DataType → Bool
  | s08 | s16 | s32 => true
  | _ => false

theorem size_le (ty : DataType) : ty.size ≤ 4 := by cases ty <;> decide

end DataType

inductive ConstantClass
  | scalar
  | bits
  | array
  | string
  deriving DecidableEq, Repr

/-- A `[...]` shape of a constant definition. -/
inductive Shape
  /-- A bit range within the underlying word. -/
  | bits (lo hi : UInt8)
  | array1D (n : UInt16)
  /-- `x` columns by `y` rows. -/
  | array2D (x y : UInt16)
  deriving DecidableEq, Repr

def Shape.elementCount : Shape → ℕ
  | bits _ _ => 1
  | array1D n => n.toNat
  | array2D x y => x.toNat * y.toNat

/-- One entry of the constants of a page, or of the variables of the tuning application. -/
structure ConstantDef (F : Type) where
  name : String
  cls : ConstantClass
  ty : DataType
  /-- 1-based tune page; none for variables of the tuning application. -/
  page : Option UInt8
  /-- Byte offset within the page; none for variables of the tuning application. -/
  offset : Option UInt32
  shape : Option Shape
  units : Option (StrOrExpr F)
  scale : NumOrExpr F
  translate : NumOrExpr F
  lo : Option (NumOrExpr F)
  hi : Option (NumOrExpr F)
  digits : Option (NumOrExpr F)
  /-- Labels of a bits constant; "INVALID" ones are hidden choices. -/
  labels : List String
  stringLen : Option UInt32
  noMsqSave : Bool
  line : ℕ := 0

namespace ConstantDef

/-- The number of elements of the shape, if there is one. -/
def elementCount (c : ConstantDef F) : ℕ := (c.shape.map Shape.elementCount).getD 0

/-- Bytes the constant occupies in its page. -/
def byteSize (m : Machine) (c : ConstantDef F) : Exec UInt32 :=
  match c.cls with
  | .scalar | .bits => .ok (UInt32.ofNat c.ty.size)
  | .array => m.mulU32 (UInt32.ofNat c.elementCount) (UInt32.ofNat c.ty.size)
  | .string => .ok (c.stringLen.getD 0)

end ConstantDef

/-- The header of the constants: page geometry and command templates, which stay raw texts. -/
structure ConstantsHeader where
  endianness : String := ""
  nPages : UInt64 := 0
  pageSizes : List UInt32 := []
  pageIdentifiers : List String := []
  pageReadCommand : List String := []
  pageValueWrite : List String := []
  pageChunkWrite : List String := []
  crc32CheckCommand : List String := []
  burnCommand : List String := []
  tableCrcCommand : Option String := none
  blockingFactor : Option UInt32 := none
  delayAfterPortOpen : Option UInt32 := none
  blockReadTimeout : Option UInt32 := none
  tsWriteBlocks : Bool := false
  interWriteDelay : Option UInt32 := none
  pageActivationDelay : Option UInt32 := none
  messageEnvelopeFormat : Option String := none
  /-- Keys without a field of their own, as raw text. -/
  misc : IndexMap String String := ∅
  deriving DecidableEq, Repr

inductive OutputChannel (F : Type)
  | scalar (ty : DataType) (offset : UInt32) (units : Option (StrOrExpr F))
      (scale translate : NumOrExpr F)
  | bits (ty : DataType) (offset : UInt32) (lo hi : UInt8)
  /-- Computed from other channels. -/
  | derived (expr : Expr F) (units : Option String)

/-- A table: the constants of its axes, with the channel that moves the cursor, and of its cells. -/
structure TableDef (F : Type) where
  id : String
  mapId : String
  title : String
  page : UInt8
  xBins : String × Option String := ("", none)
  yBins : String × Option String := ("", none)
  zBins : String := ""
  xyLabels : List String := []
  gridHeight : Option F := none
  gridOrient : List F := []
  upDownLabel : List String := []
  topicHelp : Option String := none
  misc : List (String × String) := []
  line : ℕ

structure CurveDef (F : Type) where
  id : String
  title : String
  columnLabel : List String := []
  /-- Least, greatest, divisions. -/
  xAxis : List (NumOrExpr F) := []
  yAxis : List (NumOrExpr F) := []
  xBins : String × Option String := ("", none)
  yBins : List String := []
  misc : List (String × String) := []
  line : ℕ

structure GaugeDef (F : Type) where
  name : String
  channel : String
  title : String
  units : String
  lo : NumOrExpr F
  hi : NumOrExpr F
  loDanger : NumOrExpr F
  loWarn : NumOrExpr F
  hiWarn : NumOrExpr F
  hiDanger : NumOrExpr F
  valueDigits : UInt8
  labelDigits : UInt8
  category : String

structure Indicator (F : Type) where
  condition : Expr F
  offLabel : String
  onLabel : String
  /-- Background and foreground, off and then on. -/
  colors : List String

structure FrontPage (F : Type) where
  /-- Names of gauges in the order of their positions. -/
  gauges : List String := []
  indicators : List (Indicator F) := []

inductive DatalogType
  | int
  | float
  deriving DecidableEq, Repr

structure DatalogEntry (F : Type) where
  channel : String
  label : String
  ty : DatalogType
  format : String
  /-- Logged only when this is truthy. -/
  condition : Option (Expr F)

/-- An entry of a menu: the dialog, table, curve or editor it opens. -/
structure MenuEntry (F : Type) where
  target : String
  label : String
  /-- Greyed out unless this is truthy. -/
  enable : Option (Expr F)

inductive MenuItem (F : Type)
  | entry (e : MenuEntry F)
  | separator
  | group (label : String) (children : List (MenuEntry F))

structure MenuDef (F : Type) where
  title : String
  items : List (MenuItem F) := []

/-- An element of a dialog. -/
inductive DialogItem (F : Type)
  /-- Without a constant it is a header or a spacer. -/
  | field (label : String) (constant : Option String) (enable visible : Option (Expr F))
  | displayOnly (label : String) (constant : Option String) (enable visible : Option (Expr F))
  /-- Another dialog, or an editor, in this one. -/
  | panel (target : String) (enable : Option (Expr F))

structure DialogDef (F : Type) where
  name : String
  title : String
  items : List (DialogItem F) := []
  topicHelp : Option String := none
  line : ℕ

structure SettingGroup where
  keyword : String
  displayName : String
  /-- Symbol and label; "DEFAULT" stands for no symbol. -/
  options : List (String × String) := []
  deriving DecidableEq, Repr

/-- The reference table of the lambda sensor. -/
structure AfrCalibration (F : Type) where
  writeCommand : String
  blockingFactor : UInt64
  identifier : UInt16
  adcCount : UInt64
  bytesPerAdc : UInt64
  scale : F
  solutions : List (String × Expr F)

/-- The parsed ECU definition. -/
structure IniDef (F : Type) where
  mtVersion : Option F := none
  queryCommand : String := ""
  signature : String := ""
  versionInfo : String := ""
  settingGroups : List SettingGroup := []
  pcVariables : IndexMap String (ConstantDef F) := ∅
  header : ConstantsHeader := {}
  /-- All page constants in file order. -/
  constants : IndexMap String (ConstantDef F) := ∅
  requiresPowerCycle : List String := []
  /-- Constant name and raw default text. -/
  defaultValues : List (String × String) := []
  /-- Constants that the controller may change on its own. -/
  controllerPriority : List String := []
  ochGetCommand : String := ""
  ochBlockSize : UInt32 := 0
  outputChannels : IndexMap String (OutputChannel F) := ∅
  tables : IndexMap String (TableDef F) := ∅
  curves : IndexMap String (CurveDef F) := ∅
  gauges : IndexMap String (GaugeDef F) := ∅
  frontPage : FrontPage F := {}
  datalog : List (DatalogEntry F) := []
  menus : List (MenuDef F) := []
  dialogs : IndexMap String (DialogDef F) := ∅
  afrCalibration : Option (AfrCalibration F) := none
  /-- Oddities met in parsing, none of them fatal. -/
  warnings : List String := []

end RustyTune.TsIni
