import RustyTune.Lib.Slice
import RustyTune.TuneModel.Msq.Diff

/-!
# Saving the tune as a file

* `fmtNum`: a number as it is printed; `xmlEscape`.
* `Line`: what is written of a constant, and `Line.text`, how.
* `lineOf`: what is written of a constant that is saved; `pageLines`: of the constants of a page, views
  of bytes that another one owns left out.
* `save`: the text of the file.
-/

namespace RustyTune.TuneModel.Msq

open TsIni

variable {F : Type}

/-! ## Texts -/

/-- `str::replace` of a character. -/
def replaceChar (c : Char) (new : String) (s : String) : String :=
  String.ofList (s.toList.flatMap fun d => if d = c then new.toList else [d])

def xmlEscape (s : String) : String :=
  replaceChar '"' "&quot;" (replaceChar '>' "&gt;" (replaceChar '<' "&lt;" (replaceChar '&' "&amp;" s)))

def trimQuotes (s : String) : String :=
  String.ofList (Text.trimEndWhere (· == '"') (Text.trimStartWhere (· == '"') s.toList))

/-- A number with six decimals at most; a whole one gets one decimal, where it is not too large. -/
def fmtNum [F64 F] (v : F) : String :=
  let rounded := F64.div (F64.round (F64.mul v 1000000)) 1000000
  if F64.eq rounded (F64.trunc rounded) && F64.lt (F64.abs rounded) 1000000000000000 then
    F64.display1 rounded
  else F64.display rounded

/-- What is written of a constant. -/
inductive Line (F : Type)
  | scalar (digits : UInt8) (units : Option String) (v : F)
  | label (s : String)
  | index (i : ℤ)
  | array (cols rows : ℕ) (digits : UInt8) (units : Option String) (values : List F)
  | string (s : String)
  deriving DecidableEq

/-- The attribute of the units, if there are any. -/
def unitsAttr : Option String → String
  | some units => s!" units=\"{xmlEscape (trimQuotes units)}\""
  | none => ""

def rowText [F64 F] (row : List F) : String :=
  "         " ++ String.join (row.map fun v => fmtNum v ++ " ") ++ "\n"

/-- The element of a constant, or of a variable. -/
def Line.text [F64 F] (tag name : String) : Line F → String
  | .scalar digits units v =>
    s!"<{tag} digits=\"{digits}\" name=\"{name}\"{unitsAttr units}>{fmtNum v}</{tag}>\n"
  | .label s => s!"<{tag} name=\"{name}\">&quot;{xmlEscape s}&quot;</{tag}>\n"
  | .index i => s!"<{tag} name=\"{name}\">{i}</{tag}>\n"
  | .array cols rows digits units values =>
    s!"<{tag} cols=\"{cols}\" digits=\"{digits}\" name=\"{name}\" rows=\"{rows}\"{unitsAttr units}>\n" ++
      String.join ((chunks (max cols 1) values).map rowText) ++ s!"      </{tag}>\n"
  | .string s => s!"<{tag} name=\"{name}\">&quot;{xmlEscape s}&quot;</{tag}>\n"

/-- The label of a choice; its number where it has none, or a placeholder. -/
def choiceLine (labels : List String) (slot : ℕ) (i : ℤ) : Line F :=
  match labels[slot]? with
  | some label => if label ≠ "INVALID" then .label label else .index i
  | none => .index i

/-! ## Constants -/

variable [F64 F] (m : Machine) (t : Tune F)

def digitsOf (c : ConstantDef F) : Exec UInt8 := do
  match c.digits with
  | none => return F64.toU8 (0 : F)
  | some digits => return F64.toU8 ((← evalOk (digits.eval m (t.symbols m))).getD (0 : F))

def unitsOf (c : ConstantDef F) : Exec (Option String) := do
  match c.units with
  | none => return none
  | some units => evalOk (units.eval m (t.symbols m))

/-- What is written of a constant, if it has a value. -/
def lineOf (name : String) (c : ConstantDef F) : Exec (Option (Line F)) := do
  let digits ← digitsOf m t c
  let units ← unitsOf m t c
  match c.cls with
  | .scalar =>
    match ← t.constantValue m name with
    | some (.num v) => return some (.scalar digits units v)
    | _ => return none
  | .bits =>
    match ← t.constantValue m name with
    | some (.num idx) =>
      let idx := (F64.toI64 idx).toInt
      return some (choiceLine c.labels (asUsize idx) idx)
    | _ => return none
  | .array =>
    match ← t.arrayValues m name with
    | none => return none
    | some values =>
      match c.shape with
      | some (.array2D x y) => return some (.array x.toNat y.toNat digits units values)
      | some (.array1D n) => return some (.array 1 n.toNat digits units values)
      | _ => return none
  | .string =>
    match ← t.constantValue m name with
    | some (.str s) => return some (.string s)
    | _ => return none

/-- The bytes of a constant, unless another one owns some of them already. -/
def ownRange (owned : List (UInt32 × UInt32)) (c : ConstantDef F) :
    Exec (Option (List (UInt32 × UInt32))) := do
  if c.cls = .bits then return some owned
  else
    let start := c.offset.getD 0
    let stop ← m.addU32 start (← c.byteSize m)
    if owned.any fun (s, e) => start < e && s < stop then return none
    else return some (owned ++ [(start, stop)])

/-- One constant of a page, after those with the lines and the bytes given. -/
def saveConstant (s : List (String × Line F) × List (UInt32 × UInt32))
    (entry : String × ConstantDef F) : Exec (List (String × Line F) × List (UInt32 × UInt32)) := do
  match ← ownRange m s.2 entry.2 with
  | none => return s
  | some owned =>
    match ← lineOf m t entry.1 entry.2 with
    | none => return (s.1, owned)
    | some line => return (s.1 ++ [(entry.1, line)], owned)

/-- The constants that belong on a page of the file. -/
def pageConstants (pageIdx : ℕ) : List (String × ConstantDef F) :=
  t.df.constants.entries.filter fun e =>
    e.2.page = some (UInt8.ofNat (pageIdx + 1)) && !e.2.noMsqSave

/-- What is written of the constants of a page. -/
def pageLines (pageIdx : ℕ) : Exec (List (String × Line F)) := do
  return (← (pageConstants t pageIdx).foldlM (saveConstant m t) ([], [])).1

/-! ## Variables -/

/-- What is written of a variable of the tuning application, if it has a value. -/
def variableLine (entry : String × ConstantDef F) : Exec (Option (String × Line F)) := do
  let (name, c) := entry
  if c.noMsqSave then return none
  else
    match c.cls, t.pcValues.get? name with
    | .scalar, some v =>
      let digits ← digitsOf m t c
      let units ← unitsOf m t c
      return some (name, .scalar digits units v)
    | .bits, some v =>
      return some (name, choiceLine c.labels (F64.toU64 v).toNat (F64.toI64 v).toInt)
    | _, _ => return none

def variableLines : Exec (List (String × Line F)) := do
  return (← t.df.pcVariables.entries.mapM (variableLine m t)).filterMap id

/-! ## The file -/

def bibliographyText (author writeDate : String) : String :=
  s!"<bibliography author=\"{xmlEscape author}\" tuneComment=\"\" " ++
    s!"writeDate=\"{xmlEscape writeDate}\"/>\n"

def versionInfoText (firmware signature : String) (pageCount : ℕ) : String :=
  s!"<versionInfo fileFormat=\"5.0\" firmwareInfo=\"{xmlEscape firmware}\" " ++
    s!"nPages=\"{pageCount}\" signature=\"{xmlEscape signature}\"/>\n"

def headText (author writeDate : String) : String :=
  "<?xml version=\"1.0\" encoding=\"ISO-8859-1\"?>\n" ++
    "<msq xmlns=\"http://www.msefi.com/:msq\">\n" ++
    bibliographyText author writeDate ++
    versionInfoText (replaceChar ' ' "+" t.df.signature) t.df.signature t.pageCount

def pageText (pageIdx : ℕ) (lines : List (String × Line F)) : String :=
  s!"<page number=\"{pageIdx}\">\n" ++
    String.join (lines.map fun (name, line) => line.text "constant" name) ++ "</page>\n"

def settingsText (symbols : List String) : String :=
  "<settings Comment=\"These setting are only used if this msq is opened without a project.\">\n" ++
    String.join (symbols.map fun symbol =>
      s!"<setting name=\"{xmlEscape symbol}\" value=\"{xmlEscape symbol}\"/>\n") ++
    "</settings>\n</msq>\n"

/-- Serialize the local state of the tune. -/
def save (symbols : List String) (author writeDate : String) : Exec String := do
  let vars ← variableLines m t
  let pages ← (List.range t.pageCount).mapM (pageLines m t)
  return headText t author writeDate ++
    String.join (vars.map fun (name, line) => line.text "pcVariable" name) ++
    String.join (pages.zipIdx.map fun (lines, pageIdx) => pageText pageIdx lines) ++
    settingsText symbols

end RustyTune.TuneModel.Msq
