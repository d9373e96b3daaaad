import RustyTune.TsIni.Dialogs

/-!
# Parsing a definition

* `groupLines`: the lines that stay, grouped by section.
* `parseWithSymbols`, `parse`: a definition from its source.
-/

namespace RustyTune.TsIni

/-- The name of a section header. -/
def sectionName (text : List Char) : Option String :=
  ((Text.stripPrefix '[' (Text.trim text)).bind (Text.stripSuffix ']')).map fun name =>
    String.ofList (Text.trim name)

/-- A line opens a group, or goes into the last one. -/
def addLine (groups : List (String × List Line)) (line : Line) : List (String × List Line) :=
  match sectionName line.text with
  | some name => groups ++ [(name, [])]
  | none =>
    match groups.getLast? with
    | some (name, group) => groups.dropLast ++ [(name, group ++ [line])]
    -- before any section header
    | none => groups

/-- The lines grouped by section, in order of appearance. -/
def groupLines (lines : List Line) : List (String × List Line) := lines.foldl addLine []

variable {F : Type} [F64 F]

/-- The lines of one section; sections without a parser are skipped. -/
def parseSection (name : String) (lines : List Line) (df : IniDef F) : Parse (IniDef F) :=
  match name with
  | "MegaTune" => megatune lines df
  | "SettingGroups" => settingGroups lines df
  | "PcVariables" => pcVariables lines df
  | "Constants" => constants lines df
  | "ConstantsExtensions" => constantsExtensions lines df
  | "OutputChannels" => outputChannels lines df
  | "TableEditor" => tableEditor lines df
  | "CurveEditor" => curveEditor lines df
  | "GaugeConfigurations" => gaugeConfigurations lines df
  | "FrontPage" => frontPage lines df
  | "Datalog" => datalog lines df
  | "Menu" => menu lines df
  | "UserDefined" => userDefined lines df
  | "ReferenceTables" => referenceTables lines df
  | _ => return df

def parseGroups : List (String × List Line) → IniDef F → Parse (IniDef F)
  | [], df => return df
  | (name, lines) :: groups, df => do parseGroups groups (← parseSection name lines df)

/-- A definition from its source, under a set of symbols. -/
def parseWithSymbols (symbols : List (List Char)) (src : List Char) : Parse (IniDef F) := do
  let lines ← (preprocess symbols src : Except ParseError _)
  parseGroups (groupLines lines) {}

def parse (src : List Char) : Parse (IniDef F) := parseWithSymbols [] src

omit [F64 F] in
/-- What is read off an outcome is read off a definition. -/
theorem exists_parsed {x : Exec (Except ParseError (IniDef F))} {α : Type} {f : IniDef F → α} {a : α}
    (h : (x.toOption.bind Except.toOption).map f = some a) : ∃ df, x = .ok (.ok df) ∧ f df = a := by
  rcases x with e | e | df
  · exact nomatch h
  · exact nomatch h
  · exact ⟨df, rfl, Option.some.inj h⟩

end RustyTune.TsIni
