import RustyTune.TuneModel.Access

/-!
# Tables

A table of the definition names three constants: the bins of its two axes and its cells.

* `Tune.table`: a table decoded to user units, with what its axes are edited by.
* `Tune.setTableAxis`, `Tune.setTableCell`: edits of an axis value and of a cell; both are edits of an
  array element.
-/

namespace RustyTune.TuneModel

open TsIni

variable {F : Type}

/-- Limits and scale of an axis that can be edited. -/
structure AxisMeta (F : Type) where
  lo : Option F
  hi : Option F
  digits : UInt8
  scale : F
  translate : F

/-- A table in user units; `z` has the rows. -/
structure TableData (F : Type) where
  x : List F
  y : List F
  z : List (List F)
  zLo : F
  zHi : F
  zDigits : UInt8
  zScale : F
  zTranslate : F
  xMeta : Option (AxisMeta F)
  yMeta : Option (AxisMeta F)

namespace Tune

def tableDef (t : Tune F) (id : String) : Option (TableDef F) := t.df.tables.get? id

/-- Grid dimensions of a table's cells: columns and rows. -/
def tableDims (t : Tune F) (table : TableDef F) : Option (ℕ × ℕ) :=
  ((t.constant table.zBins).bind ConstantDef.shape).bind fun
    | .array2D x y => some (x.toNat, y.toNat)
    | .array1D n => some (n.toNat, 1)
    | .bits _ _ => none

/-- `&flat[start..start + n]`. -/
def sliceAt (flat : List F) (start n : ℕ) : Exec (List F) :=
  match slice? flat start n with
  | some row => .ok row
  | none => .error .indexOutOfBounds

variable [F64 F] (m : Machine)

/-- A field that is there and evaluates, or else the default. -/
def fieldOr (t : Tune F) (field : Option (NumOrExpr F)) (default : F) : Exec F := do
  return (← t.limit m field).getD default

def axisMeta (t : Tune F) (name : String) (expectedLen : ℕ) : Exec (Option (AxisMeta F)) :=
  match t.constant name with
  | none => return none
  | some c =>
    match c.shape with
    | none => return none
    | some shape =>
      if c.cls ≠ .array ∨ shape.elementCount ≠ expectedLen ∨ (location c).isNone then return none
      else do
        match ← evalOk (c.scale.eval m (t.symbols m)) with
        | none => return none
        | some scale =>
          if !F64.isFinite scale || F64.eq scale 0 then return none
          else
            let lo ← t.limit m c.lo
            let hi ← t.limit m c.hi
            let digits ← t.fieldOr m c.digits 0
            match ← evalOk (c.translate.eval m (t.symbols m)) with
            | none => return none
            | some translate => return some ⟨lo, hi, F64.toU8 digits, scale, translate⟩

def rows (flat : List F) (nx : ℕ) (ny : ℕ) : Exec (List (List F)) :=
  (List.range ny).mapM fun row => sliceAt flat (row * nx) nx

def table (t : Tune F) (id : String) : Exec (Option (TableData F)) :=
  match t.tableDef id with
  | none => return none
  | some table =>
    match t.tableDims table, t.constant table.zBins with
    | some (nx, ny), some zDef => do
      match ← t.arrayValues m table.xBins.1 with
      | none => return none
      | some x =>
        match ← t.arrayValues m table.yBins.1 with
        | none => return none
        | some y =>
          match ← t.arrayValues m table.zBins with
          | none => return none
          | some flat =>
            let z ← rows flat nx ny
            let zLo ← t.fieldOr m zDef.lo 0
            let zHi ← t.fieldOr m zDef.hi 255
            let zDigits ← t.fieldOr m zDef.digits 0
            let zScale ← t.fieldOr m (some zDef.scale) 1
            let zTranslate ← t.fieldOr m (some zDef.translate) 0
            let xMeta ← t.axisMeta m table.xBins.1 nx
            let yMeta ← t.axisMeta m table.yBins.1 ny
            return some ⟨x, y, z, zLo, zHi, F64.toU8 zDigits, zScale, zTranslate, xMeta, yMeta⟩
    | _, _ => return none

/-- Set one value of an axis. -/
def setTableAxis (t : Tune F) (id axis : String) (index : ℕ) (value : F) : Attempt (Tune F) := do
  let table ← orError (.unknownTable id) (t.tableDef id)
  if axis = "x" then t.setArrayElement m table.xBins.1 index value
  else if axis = "y" then t.setArrayElement m table.yBins.1 index value
  else throw (.notEditable axis "axis must be x or y")

/-- Set one cell; `row` goes by the second axis, `col` by the first. -/
def setTableCell (t : Tune F) (id : String) (row col : ℕ) (value : F) : Attempt (Tune F) := do
  let table ← orError (.unknownTable id) (t.tableDef id)
  let (nx, ny) ← orError (.unknownTable id) (t.tableDims table)
  if ny ≤ row ∨ nx ≤ col then
    let index ← (do m.usize ((← m.usize (row * nx)) + col) : Exec ℕ)
    throw (.indexRange table.zBins index (nx * ny))
  t.setArrayElement m table.zBins (row * nx + col) value

end Tune

end RustyTune.TuneModel
