import RustyTune.TsIni.Sections

/-!
# Menus, dialogs and the reference table

* `conditions`: the conditions of a line; one that cannot be parsed is a warning and counts as none.
* `menu`, `userDefined`: the menus and the dialogs they open. Elements that a form cannot show are
  left out.
* `referenceTables`: the table of the lambda sensor.
-/

namespace RustyTune.TsIni

variable {F : Type} [F64 F]

/-! ## Conditions -/

/-- The condition of an expression token, with the definition it may leave a warning in. -/
def conditionOf (num : ℕ) (src : String) (df : IniDef F) : Exec (Option (Expr F) × IniDef F) :=
  if src.isEmpty then return (none, df)
  else do
    match ← ((parseExpr num src : Parse (Expr F)).run : Exec _) with
    | .ok e => return (some e, df)
    | .error e => return (none, df.warn num s!"unparsable condition: {e.display}")

/-- The conditions of the expression tokens, in order. -/
def conditions (num : ℕ) : List Token → IniDef F → Exec (List (Option (Expr F)) × IniDef F)
  | [], df => return ([], df)
  | .expr src :: tokens, df => do
    let (c, df) ← conditionOf num src df
    let (cs, df) ← conditions num tokens df
    return (c :: cs, df)
  | _ :: tokens, df => conditions num tokens df

def firstCondition (num : ℕ) (tokens : List Token) (df : IniDef F) :
    Exec (Option (Expr F) × IniDef F) := do
  let (cs, df) ← conditions num tokens df
  return (cs.reduceOption.head?, df)

def firstStr (tokens : List Token) : Option String :=
  tokens.findSome? fun
    | .str s => some s
    | _ => none

/-- A bare word that is not empty. -/
def bareWord : Option Token → Option String
  | some (.bare s) => if s.isEmpty then none else some s
  | _ => none

/-! ## [Menu] -/

/-- The target of an entry and a label that follows it without a comma. -/
def splitTarget (first : String) : String × Option String :=
  match Text.splitOnce '"' first.toList with
  | some (target, rest) =>
    (String.ofList (Text.trim target), some (String.ofList (Text.trimEndWhere (· == '"') rest)))
  | none => (first, none)

/-- `target[, "Label"][, page][, { enable }]`. -/
def menuEntry (num : ℕ) (tokens : List Token) (df : IniDef F) :
    Exec (Option (MenuEntry F) × IniDef F) :=
  match bareWord tokens.head? with
  | none => return (none, df.warn num "menu entry without a target")
  | some first => do
    let (target, inlineLabel) := splitTarget first
    let label := (inlineLabel.or (firstStr tokens)).getD target
    let (enable, df) ← firstCondition num (← tokensFrom tokens 1) df
    return (some ⟨target, label, enable⟩, df)

/-- The definition with the items of the last menu replaced. -/
def IniDef.setItems (df : IniDef F) (menu : MenuDef F) (items : List (MenuItem F)) : IniDef F :=
  { df with menus := df.menus.dropLast ++ [{ menu with items }] }

/-- An entry goes into the last menu, or into the group at its end. -/
def addEntry (num : ℕ) (key : String) (menu : MenuDef F) (entry : MenuEntry F) (df : IniDef F) :
    IniDef F :=
  if key = "groupChildMenu" then
    match menu.items.getLast? with
    | some (.group label children) =>
      df.setItems menu (menu.items.dropLast ++ [.group label (children ++ [entry])])
    | _ => df.warn num "`groupChildMenu` outside a `groupMenu`"
  else df.setItems menu (menu.items ++ [.entry entry])

def menuItem (num : ℕ) (key : String) (tokens : List Token) (menu : MenuDef F) (df : IniDef F) :
    Parse (IniDef F) :=
  if key = "groupMenu" then do
    return df.setItems menu (menu.items ++ [.group (← strTok tokens 0 num) []])
  else if tokens.head? = some (.bare "std_separator") then
    return df.setItems menu (menu.items ++ [.separator])
  else do
    match ← (menuEntry num tokens df : Exec _) with
    | (none, df) => return df
    | (some entry, df) => return addEntry num key menu entry df

def menuLine (num : ℕ) (key : String) (tokens : List Token) (df : IniDef F) : Parse (IniDef F) :=
  if key = "menuDialog" then return df
  else if key = "menu" then do
    let title := String.ofList ((← strTok tokens 0 num).toList.filter (· ≠ '&'))
    return { df with menus := df.menus ++ [{ title }] }
  else if key = "subMenu" ∨ key = "groupMenu" ∨ key = "groupChildMenu" then
    match df.menus.getLast? with
    | none => return df.warn num s!"`{key}` before any `menu`"
    | some menu => menuItem num key tokens menu df
  else return df.warn num s!"unknown [Menu] key `{key}`"

def menu : List Line → IniDef F → Parse (IniDef F) := eachEntry menuLine

/-! ## [UserDefined] -/

def IniDef.lastDialog (df : IniDef F) : Option (DialogDef F) := df.dialogs.entries.getLast?.map Prod.snd

/-- The definition with a dialog replaced; its name is its key. -/
def IniDef.setDialog (df : IniDef F) (dialog : DialogDef F) : IniDef F :=
  { df with dialogs := df.dialogs.insert dialog.name dialog }

/-- `label, name, { enable }, { visible }`; between the last two there may be an orientation. -/
def fieldItem (item : String → Option String → Option (Expr F) → Option (Expr F) → DialogItem F)
    (num : ℕ) (tokens : List Token) (df : IniDef F) : Exec (DialogItem F × IniDef F) := do
  let (conds, df) ← conditions num (← tokensFrom tokens 1) df
  let condition (idx : ℕ) : Option (Expr F) := conds[idx]?.join
  return (item (strTokOr tokens 0) (bareWord tokens[1]?) (condition 0) (condition 1), df)

def panelItem (num : ℕ) (tokens : List Token) (df : IniDef F) :
    Exec (Option (DialogItem F) × IniDef F) :=
  match bareWord tokens.head? with
  | none => return (none, df.warn num "panel without a target")
  | some target => do
    let (enable, df) ← firstCondition num (← tokensFrom tokens 1) df
    return (some (.panel target enable), df)

def dialogLine (num : ℕ) (key : String) (tokens : List Token) (dialog : DialogDef F)
    (df : IniDef F) : Exec (IniDef F) :=
  match key with
  | "field" | "slider" => do
    let (item, df) ← fieldItem .field num tokens df
    return df.setDialog { dialog with items := dialog.items ++ [item] }
  | "displayOnlyField" => do
    let (item, df) ← fieldItem .displayOnly num tokens df
    return df.setDialog { dialog with items := dialog.items ++ [item] }
  | "panel" => do
    match ← panelItem num tokens df with
    | (none, df) => return df
    | (some item, df) => return df.setDialog { dialog with items := dialog.items ++ [item] }
  | _ => return df.setDialog { dialog with topicHelp := tokens.head?.map Token.asStr }

/-- The keys of what stands in a dialog. -/
def dialogKeys : List String := ["field", "slider", "displayOnlyField", "panel", "topicHelp"]

def visualKeys : List String :=
  ["commandButton", "gauge", "liveGraph", "graphLine", "indicator", "indicatorPanel", "text",
    "settingSelector", "settingOption", "radio", "help", "webHelp"]

def userDefinedLine (num : ℕ) (key : String) (tokens : List Token) (df : IniDef F) :
    Parse (IniDef F) :=
  if key = "dialog" then do
    let name ← strTok tokens 0 num
    return df.setDialog { name, title := (firstStr tokens).getD "", line := num }
  else if key ∈ dialogKeys then
    match df.lastDialog with
    | none => return df.warn num s!"`{key}` before any `dialog`"
    | some dialog => (dialogLine num key tokens dialog df : Exec _)
  else if key ∈ visualKeys then return df
  else return df.warn num s!"unknown [UserDefined] key `{key}`"

def userDefined : List Line → IniDef F → Parse (IniDef F) := eachEntry userDefinedLine

/-! ## [ReferenceTables] -/

/-- The table so far, and whether the lines are about that of the lambda sensor. -/
structure Calibrating (F : Type) where
  cal : AfrCalibration F
  active : Bool

/-- The first token as a number, or an error. -/
def calibrationNumber (F : Type) [F64 F] (num : ℕ) (tokens : List Token) : Except ParseError F := do
  numberOf num (← firstOr tokens num "missing calibration value")

/-- `solution = name, { expression }`; an empty expression counts as none. -/
def solutionOf (num : ℕ) (tokens : List Token) : Parse (Option (String × Expr F)) :=
  match (tokens[1]? : Option Token) with
  | some (.expr src) =>
    if Text.trim src.toList = [] then return none
    else do
      let name ← strTok tokens 0 num
      return some (name, ← parseExpr num src)
  | _ => return none

/-- A key of the lambda sensor's table. -/
def calibrationKey (num : ℕ) (key : String) (tokens : List Token) (cal : AfrCalibration F) :
    Parse (AfrCalibration F) :=
  match key with
  | "tableIdentifier" => do
    return { cal with identifier := F64.toU16 (← calibrationNumber F num tokens) }
  | "adcCount" => do return { cal with adcCount := F64.toU64 (← calibrationNumber F num tokens) }
  | "bytesPerAdc" => do return { cal with bytesPerAdc := F64.toU64 (← calibrationNumber F num tokens) }
  | "scale" => do return { cal with scale := ← calibrationNumber F num tokens }
  | "solution" => do
    return { cal with solutions := cal.solutions ++ (← solutionOf num tokens).toList }
  | _ => return cal

def referenceTablesEntry (num : ℕ) (key : String) (tokens : List Token) (s : Calibrating F)
    (df : IniDef F) : Parse (Calibrating F × IniDef F) :=
  match key with
  | "tableWriteCommand" => do
    return ({ s with cal := { s.cal with writeCommand := ← strTok tokens 0 num } }, df)
  | "tableBlockingFactor" => do
    let n ← calibrationNumber F num tokens
    return ({ s with cal := { s.cal with blockingFactor := F64.toU64 n } }, df)
  | "referenceTable" => do
    return ({ s with active := (← strTok tokens 0 num) == "std_ms2geno2" }, df)
  | _ =>
    if s.active then do return ({ s with cal := ← calibrationKey num key tokens s.cal }, df)
    else return (s, df)

def referenceTables (lines : List Line) (df : IniDef F) : Parse (IniDef F) := do
  let (s, df) ← eachLine referenceTablesEntry lines ⟨⟨"", 0, 0, 0, 0, 0, []⟩, false⟩ df
  return if 0 < s.cal.adcCount then { df with afrCalibration := some s.cal } else df

end RustyTune.TsIni
