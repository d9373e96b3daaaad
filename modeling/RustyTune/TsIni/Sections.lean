import Mathlib.Algebra.Order.Ring.Nat
import RustyTune.TsIni.ExprParse
import RustyTune.TsIni.Preprocess

/-!
# Sections of a definition

Each section has a parser of its own, which takes the lines in turn: the key of a line says what its
values are. Oddities become warnings; what the definition cannot do without is an error.

* `kv`: key and tokens of a line; `eachLine`: what every section does with its lines.
* `tokenAt`, `tokensFrom`: tokens by position, which abort where there are none.
* `constantDef`: a scalar, bits, array or string.
* `megatune`, `settingGroups`, `constants`, `pcVariables`, `constantsExtensions`, `outputChannels`:
  what is in the ECU.
* `tableEditor`, `curveEditor`, `gaugeConfigurations`, `frontPage`, `datalog`: what is shown of it.
-/

namespace RustyTune.TsIni

variable {F : Type}

/-! ## Lines -/

/-- The definition with a warning about a line. -/
def IniDef.warn (df : IniDef F) (num : ℕ) (msg : String) : IniDef F :=
  { df with warnings := df.warnings ++ [s!"line {num}: {msg}"] }

/-- Key and tokens of a line; without them there is a warning. -/
def kv (line : Line) (df : IniDef F) : Option (String × List Token) × IniDef F :=
  match splitKv line.text with
  | none => (none, df.warn line.num s!"expected `key = ...`: {String.ofList line.text}")
  | some (key, rest) =>
    match tokenize line.num rest with
    | .ok tokens => (some (String.ofList key, tokens), df)
    | .error e => (none, df.warn line.num e.display)

/-- The lines of a section in turn: what `entry` makes of number, key and tokens of each, from what
the section keeps for itself and the definition so far. -/
def eachLine {σ : Type} (entry : ℕ → String → List Token → σ → IniDef F → Parse (σ × IniDef F)) :
    List Line → σ → IniDef F → Parse (σ × IniDef F)
  | [], s, df => return (s, df)
  | line :: lines, s, df =>
    match kv line df with
    | (none, df) => eachLine entry lines s df
    | (some (key, tokens), df) => do
      let (s, df) ← entry line.num key tokens s df
      eachLine entry lines s df

/-- The lines of a section that keeps nothing for itself. -/
def eachEntry (entry : ℕ → String → List Token → IniDef F → Parse (IniDef F)) (lines : List Line)
    (df : IniDef F) : Parse (IniDef F) := do
  let ((), df) ← eachLine (fun num key tokens () df => do return ((), ← entry num key tokens df))
    lines () df
  return df

/-! ## Values -/

/-- `tokens[idx]`. -/
def tokenAt (tokens : List Token) (idx : ℕ) : Exec Token :=
  match tokens[idx]? with
  | some t => .ok t
  | none => .error .indexOutOfBounds

/-- `&tokens[idx..]`. -/
def tokensFrom (tokens : List Token) (idx : ℕ) : Exec (List Token) :=
  if idx ≤ tokens.length then .ok (tokens.drop idx) else .error .indexOutOfBounds

def strings (tokens : List Token) : List String := tokens.map Token.asStr

def joined (tokens : List Token) : String := ", ".intercalate (strings tokens)

def strTok (tokens : List Token) (idx num : ℕ) : Except ParseError String :=
  match tokens[idx]? with
  | some t => .ok t.asStr
  | none => .error ⟨num, s!"missing value #{idx + 1}"⟩

/-- `str_tok(..).unwrap_or_default()`. -/
def strTokOr (tokens : List Token) (idx : ℕ) : String := (tokens[idx]?.map Token.asStr).getD ""

/-- The first token, or an error with the given text. -/
def firstOr (tokens : List Token) (num : ℕ) (msg : String) : Except ParseError Token :=
  match tokens.head? with
  | some t => .ok t
  | none => .error ⟨num, msg⟩

/-- A name and, if there is one, a second. -/
def namePair (tokens : List Token) (num : ℕ) : Except ParseError (String × Option String) := do
  return (← strTok tokens 0 num, tokens[1]?.map Token.asStr)

variable [F64 F]

def numberOf (num : ℕ) (t : Token) : Except ParseError F := t.number num

def numOrExpr (tokens : List Token) (idx num : ℕ) : Parse (NumOrExpr F) :=
  match tokens[idx]? with
  | some (.expr src) => do return .expr (← parseExpr num src)
  | some t => do return .num (← (numberOf num t : Except ParseError F))
  | none => throw ⟨num, s!"missing numeric value #{idx + 1}"⟩

/-! ## [MegaTune] -/

def megatuneEntry (num : ℕ) (key : String) (tokens : List Token) (df : IniDef F) :
    Parse (IniDef F) :=
  match key with
  | "MTversion" => return { df with mtVersion := tokens.head?.bind fun t => (numberOf num t).toOption }
  | "queryCommand" => do return { df with queryCommand := ← strTok tokens 0 num }
  | "signature" => do return { df with signature := ← strTok tokens 0 num }
  | "versionInfo" => do return { df with versionInfo := ← strTok tokens 0 num }
  | _ => return df.warn num s!"unknown [MegaTune] key `{key}`"

def megatune : List Line → IniDef F → Parse (IniDef F) := eachEntry megatuneEntry

/-! ## [SettingGroups] -/

def settingGroupsEntry (num : ℕ) (key : String) (tokens : List Token) (df : IniDef F) :
    Parse (IniDef F) :=
  match key with
  | "settingGroup" => do
    let group : SettingGroup := { keyword := ← strTok tokens 0 num, displayName := strTokOr tokens 1 }
    return { df with settingGroups := df.settingGroups ++ [group] }
  | "settingOption" => do
    let opt := (← strTok tokens 0 num, strTokOr tokens 1)
    match df.settingGroups.getLast? with
    | some g =>
      return { df with
        settingGroups := df.settingGroups.dropLast ++ [{ g with options := g.options ++ [opt] }] }
    | none => return df.warn num "settingOption before settingGroup"
  | _ => return df.warn num s!"unknown [SettingGroups] key `{key}`"

def settingGroups : List Line → IniDef F → Parse (IniDef F) := eachEntry settingGroupsEntry

/-! ## Constant definitions -/

/-- What makes a line the definition of a constant. -/
def constantClass (tokens : List Token) : Option ConstantClass :=
  match tokens.head? with
  | some (.bare "scalar") => some .scalar
  | some (.bare "bits") => some .bits
  | some (.bare "array") => some .array
  | some (.bare "string") => some .string
  | _ => none

/-- The offset a token states, where `lastOffset` is that of the definition before. -/
def offsetOf (line : ℕ) (lastOffset : UInt32) : Token → Except ParseError UInt32
  | .bare "lastOffset" => .ok lastOffset
  | t => do return F64.toU32 (← (numberOf line t : Except ParseError F))

/-- A flag, or the digits if there are none yet. -/
def flag (line : ℕ) (c : ConstantDef F) : Token → Parse (ConstantDef F)
  | .bare "noMsqSave" => return { c with noMsqSave := true }
  | t =>
    if c.digits.isSome then return c
    else
      match t with
      | .expr src => do return { c with digits := some (.expr (← parseExpr line src)) }
      | t => do return { c with digits := some (.num (← (numberOf line t : Except ParseError F))) }

/-- The units at a position, if anything stands there. -/
def unitsAt (tokens : List Token) (idx line : ℕ) : Parse (Option (StrOrExpr F)) :=
  match tokens[idx]? with
  | some (.expr src) => do return some (.expr (← parseExpr line src))
  | some t => return some (.str t.asStr)
  | none => return none

/-- The field at a position if the line goes as far. -/
def optionalField (tokens : List Token) (idx line : ℕ) : Parse (Option (NumOrExpr F)) :=
  if idx < tokens.length then do return some (← numOrExpr tokens idx line) else return none

/-- The end of a scalar or array: units, scale, translate, limits, digits and flags. -/
def constantTail (c : ConstantDef F) (tokens : List Token) (idx line : ℕ) :
    Parse (ConstantDef F) := do
  let units ← unitsAt tokens idx line
  let scale ← optionalField tokens (idx + 1) line
  let translate ← optionalField tokens (idx + 2) line
  let lo ← optionalField tokens (idx + 3) line
  let hi ← optionalField tokens (idx + 4) line
  (tokens.drop (idx + 5)).foldlM (flag line)
    { c with
      units, lo, hi
      scale := scale.getD c.scale
      translate := translate.getD c.translate }

/-- A definition without the fields that follow its type and its offset. -/
def bareConstant (name : String) (cls : ConstantClass) (ty : DataType) (page : Option UInt8)
    (offset : Option UInt32) (line : ℕ) : ConstantDef F where
  name
  cls
  ty
  page
  offset
  shape := none
  units := none
  scale := .num 1
  translate := .num 0
  lo := none
  hi := none
  digits := none
  labels := []
  stringLen := none
  noMsqSave := false
  line

def constantFields (c : ConstantDef F) (tokens : List Token) (idx line : ℕ) :
    Parse (ConstantDef F) :=
  match c.cls with
  | .string =>
    match tokens[idx]? with
    | some t => do
      return { c with stringLen := some (F64.toU32 (← (numberOf line t : Except ParseError F))) }
    | none => throw ⟨line, "missing string length"⟩
  | .bits => do
    match ← (parseShape line (strTokOr tokens idx) : Except ParseError Shape) with
    | .bits lo hi =>
      return { c with
        shape := some (.bits lo hi)
        labels := strings (← (tokensFrom tokens (idx + 1) : Exec _)) }
    | _ => throw ⟨line, "bits constant needs a [lo:hi] range"⟩
  | .array => do
    let shape ← (parseShape line (strTokOr tokens idx) : Except ParseError Shape)
    constantTail { c with shape := some shape } tokens (idx + 1) line
  | .scalar => constantTail c tokens idx line

/-- A definition; where there are offsets, `lastOffset` is that of the definition before. -/
def constantDef (name : String) (cls : ConstantClass) (tokens : List Token) (page : Option UInt8)
    (lastOffset : Option UInt32) (line : ℕ) : Parse (ConstantDef F) := do
  let ty ← (DataType.parse line (strTokOr tokens 1) : Except ParseError DataType)
  match lastOffset with
  | none => constantFields (bareConstant name cls ty page none line) tokens 2 line
  | some lastOffset =>
    match tokens[2]? with
    | none => throw ⟨line, "missing offset"⟩
    | some t => do
      let offset ← (offsetOf (F := F) line lastOffset t : Except ParseError UInt32)
      constantFields (bareConstant name cls ty page (some offset) line) tokens 3 line

/-! ## [Constants] -/

/-- `tokens[0]` as a number. -/
def firstNumber (tokens : List Token) (num : ℕ) : Parse F := do
  let t ← (tokenAt tokens 0 : Exec Token)
  (numberOf num t : Except ParseError F)

/-- `tokens[0]` as a number of milliseconds or bytes. -/
def firstU32 (F : Type) [F64 F] (tokens : List Token) (num : ℕ) : Parse UInt32 := do
  return F64.toU32 (← (firstNumber tokens num : Parse F))

def headerKey (F : Type) [F64 F] (num : ℕ) (key : String) (tokens : List Token)
    (h : ConstantsHeader) : Parse ConstantsHeader :=
  match key with
  | "endianness" => do return { h with endianness := ← strTok tokens 0 num }
  | "nPages" => do return { h with nPages := F64.toU64 (← (firstNumber tokens num : Parse F)) }
  | "pageSize" => do
    let sizes ← (tokens.mapM (numberOf num) : Except ParseError (List F))
    return { h with pageSizes := sizes.map F64.toU32 }
  | "pageIdentifier" => return { h with pageIdentifiers := strings tokens }
  | "pageReadCommand" => return { h with pageReadCommand := strings tokens }
  | "pageValueWrite" => return { h with pageValueWrite := strings tokens }
  | "pageChunkWrite" => return { h with pageChunkWrite := strings tokens }
  | "crc32CheckCommand" => return { h with crc32CheckCommand := strings tokens }
  | "burnCommand" => return { h with burnCommand := strings tokens }
  | "tableCrcCommand" => do return { h with tableCrcCommand := some (← strTok tokens 0 num) }
  | "blockingFactor" => do return { h with blockingFactor := some (← firstU32 F tokens num) }
  | "delayAfterPortOpen" => do return { h with delayAfterPortOpen := some (← firstU32 F tokens num) }
  | "blockReadTimeout" => do return { h with blockReadTimeout := some (← firstU32 F tokens num) }
  | "tsWriteBlocks" => do
    let t ← (tokenAt tokens 0 : Exec Token)
    return { h with tsWriteBlocks := t.asStr == "on" }
  | "interWriteDelay" => do return { h with interWriteDelay := some (← firstU32 F tokens num) }
  | "pageActivationDelay" => do
    return { h with pageActivationDelay := some (← firstU32 F tokens num) }
  | "messageEnvelopeFormat" => do
    return { h with messageEnvelopeFormat := some (← strTok tokens 0 num) }
  | _ => return { h with misc := h.misc.insert key (joined tokens) }

/-- The page that definitions go to, and the offset of the one before. -/
structure PageCursor where
  page : Option UInt8 := none
  lastOffset : Option UInt32 := none
  deriving DecidableEq, Repr

def constantsEntry (num : ℕ) (key : String) (tokens : List Token) (s : PageCursor) (df : IniDef F) :
    Parse (PageCursor × IniDef F) :=
  if key = "page" then do
    let n ← (numberOf num (← firstOr tokens num "page = <n>") : Except ParseError F)
    return (⟨some (F64.toU8 n), none⟩, df)
  else
    match constantClass tokens with
    | some cls =>
      match s.page with
      | none => throw ⟨num, "constant before `page = n`"⟩
      | some page => do
        let c ← constantDef key cls tokens (some page) (some (s.lastOffset.getD 0)) num
        return ({ s with lastOffset := c.offset }, { df with constants := df.constants.insert key c })
    | none => do return (s, { df with header := ← headerKey F num key tokens df.header })

def constants (lines : List Line) (df : IniDef F) : Parse (IniDef F) := do
  return (← eachLine constantsEntry lines {} df).2

/-! ## [PcVariables] -/

def pcVariablesEntry (num : ℕ) (key : String) (tokens : List Token) (df : IniDef F) :
    Parse (IniDef F) :=
  match constantClass tokens with
  | some cls => do
    let c ← constantDef key cls tokens none none num
    return { df with pcVariables := df.pcVariables.insert key c }
  | none => return df.warn num s!"unrecognized [PcVariables] entry `{key}`"

def pcVariables : List Line → IniDef F → Parse (IniDef F) := eachEntry pcVariablesEntry

/-! ## [ConstantsExtensions] -/

def constantsExtensionsEntry (num : ℕ) (key : String) (tokens : List Token) (df : IniDef F) :
    Parse (IniDef F) :=
  match key with
  | "requiresPowerCycle" => do
    return { df with requiresPowerCycle := df.requiresPowerCycle ++ [← strTok tokens 0 num] }
  | "defaultValue" => do
    let name ← strTok tokens 0 num
    let rest ← (tokensFrom tokens 1 : Exec _)
    return { df with defaultValues := df.defaultValues ++ [(name, joined rest)] }
  | "controllerPriority" => do
    return { df with controllerPriority := df.controllerPriority ++ [← strTok tokens 0 num] }
  | other => return df.warn num s!"unhandled [ConstantsExtensions] key `{other}`"

def constantsExtensions : List Line → IniDef F → Parse (IniDef F) :=
  eachEntry constantsExtensionsEntry

/-! ## [OutputChannels] -/

/-- The channel that a definition describes. -/
def channelOf (num : ℕ) (c : ConstantDef F) : Except ParseError (OutputChannel F) :=
  match c.cls, c.shape with
  | .bits, some (.bits lo hi) => .ok (.bits c.ty (c.offset.getD 0) lo hi)
  | .bits, _ => .error ⟨num, "bits channel needs [lo:hi]"⟩
  | _, _ => .ok (.scalar c.ty (c.offset.getD 0) c.units c.scale c.translate)

def outputChannelsEntry (num : ℕ) (key : String) (tokens : List Token) (df : IniDef F) :
    Parse (IniDef F) :=
  match key with
  | "ochGetCommand" => do return { df with ochGetCommand := ← strTok tokens 0 num }
  | "ochBlockSize" => do return { df with ochBlockSize := ← firstU32 F tokens num }
  | _ =>
    match tokens.head? with
    | some (.expr src) => do
      let e ← parseExpr num src
      let channel := .derived e (tokens[1]?.map Token.asStr)
      return { df with outputChannels := df.outputChannels.insert key channel }
    | _ =>
      match constantClass tokens with
      | none => return df.warn num s!"unrecognized [OutputChannels] entry `{key}`"
      | some cls => do
        let c ← constantDef key cls tokens none (some 0) num
        let channel ← channelOf num c
        return { df with outputChannels := df.outputChannels.insert key channel }

def outputChannels : List Line → IniDef F → Parse (IniDef F) := eachEntry outputChannelsEntry

/-! ## [TableEditor] -/

/-- The table that is being read goes into the definition. -/
def finishTable (current : Option (TableDef F)) (df : IniDef F) : IniDef F :=
  match current with
  | some t => { df with tables := df.tables.insert t.id t }
  | none => df

/-- `table = id, map, title, page`. -/
def tableStart (num : ℕ) (tokens : List Token) : Except ParseError (TableDef F) := do
  let id ← strTok tokens 0 num
  let mapId ← strTok tokens 1 num
  let title ← strTok tokens 2 num
  match tokens[3]? with
  | none => throw ⟨num, "table without page"⟩
  | some t => return { id, mapId, title, page := F64.toU8 (← (numberOf num t : Except _ F)), line := num }

def tableKey (num : ℕ) (key : String) (tokens : List Token) (t : TableDef F) : Parse (TableDef F) :=
  match key with
  | "xBins" => do return { t with xBins := ← namePair tokens num }
  | "yBins" => do return { t with yBins := ← namePair tokens num }
  | "zBins" => do return { t with zBins := ← strTok tokens 0 num }
  | "xyLabels" => return { t with xyLabels := strings tokens }
  | "gridHeight" => do return { t with gridHeight := some (← firstNumber tokens num) }
  | "gridOrient" => do
    return { t with gridOrient := ← (tokens.mapM (numberOf num) : Except ParseError (List F)) }
  | "upDownLabel" => return { t with upDownLabel := strings tokens }
  | "topicHelp" => do return { t with topicHelp := some (← strTok tokens 0 num) }
  | other => return { t with misc := t.misc ++ [(other, joined tokens)] }

def tableEditorEntry (num : ℕ) (key : String) (tokens : List Token) (current : Option (TableDef F))
    (df : IniDef F) : Parse (Option (TableDef F) × IniDef F) :=
  if key = "table" then do
    return (some (← (tableStart num tokens : Except ParseError _)), finishTable current df)
  else
    match current with
    | none => return (none, df.warn num s!"[TableEditor] key `{key}` outside a table")
    | some t => do return (some (← tableKey num key tokens t), df)

def tableEditor (lines : List Line) (df : IniDef F) : Parse (IniDef F) := do
  let (current, df) ← eachLine tableEditorEntry lines none df
  return finishTable current df

/-! ## [CurveEditor] -/

/-- The curve that is being read goes into the definition. -/
def finishCurve (current : Option (CurveDef F)) (df : IniDef F) : IniDef F :=
  match current with
  | some c => { df with curves := df.curves.insert c.id c }
  | none => df

/-- Least, greatest and divisions of an axis. -/
def axisFields (num : ℕ) (tokens : List Token) : Parse (List (NumOrExpr F)) :=
  (List.range tokens.length).mapM fun i => numOrExpr tokens i num

def curveKey (num : ℕ) (key : String) (tokens : List Token) (c : CurveDef F) : Parse (CurveDef F) :=
  match key with
  | "columnLabel" => return { c with columnLabel := strings tokens }
  | "xAxis" => do return { c with xAxis := ← axisFields num tokens }
  | "yAxis" => do return { c with yAxis := ← axisFields num tokens }
  | "xBins" => do return { c with xBins := ← namePair tokens num }
  | "yBins" => do return { c with yBins := c.yBins ++ [← strTok tokens 0 num] }
  | other => return { c with misc := c.misc ++ [(other, joined tokens)] }

def curveEditorEntry (num : ℕ) (key : String) (tokens : List Token) (current : Option (CurveDef F))
    (df : IniDef F) : Parse (Option (CurveDef F) × IniDef F) :=
  if key = "curve" then do
    let id ← strTok tokens 0 num
    return (some { id, title := strTokOr tokens 1, line := num }, finishCurve current df)
  else
    match current with
    | none => return (none, df.warn num s!"[CurveEditor] key `{key}` outside a curve")
    | some c => do return (some (← curveKey num key tokens c), df)

def curveEditor (lines : List Line) (df : IniDef F) : Parse (IniDef F) := do
  let (current, df) ← eachLine curveEditorEntry lines none df
  return finishCurve current df

/-! ## [GaugeConfigurations] -/

/-- The number of digits at a position, 0 where there is none. -/
def digitsAt (F : Type) [F64 F] (tokens : List Token) (idx num : ℕ) : Except ParseError UInt8 :=
  match tokens[idx]? with
  | some t => do return F64.toU8 (← (numberOf num t : Except ParseError F))
  | none => .ok (F64.toU8 (0 : F))

def gaugeDef (num : ℕ) (name : String) (tokens : List Token) (category : String) :
    Parse (GaugeDef F) := do
  return {
    name
    channel := ← strTok tokens 0 num
    title := ← strTok tokens 1 num
    units := ← strTok tokens 2 num
    lo := ← numOrExpr tokens 3 num
    hi := ← numOrExpr tokens 4 num
    loDanger := ← numOrExpr tokens 5 num
    loWarn := ← numOrExpr tokens 6 num
    hiWarn := ← numOrExpr tokens 7 num
    hiDanger := ← numOrExpr tokens 8 num
    valueDigits := ← digitsAt F tokens 9 num
    labelDigits := ← digitsAt F tokens 10 num
    category }

def gaugeConfigurationsEntry (num : ℕ) (key : String) (tokens : List Token) (category : String)
    (df : IniDef F) : Parse (String × IniDef F) :=
  if key = "gaugeCategory" then do return (← strTok tokens 0 num, df)
  else if tokens.length < 9 then
    return (category, df.warn num s!"gauge `{key}` has too few fields")
  else do
    let gauge ← gaugeDef num key tokens category
    return (category, { df with gauges := df.gauges.insert key gauge })

def gaugeConfigurations (lines : List Line) (df : IniDef F) : Parse (IniDef F) := do
  return (← eachLine gaugeConfigurationsEntry lines "" df).2

/-! ## [FrontPage] -/

/-- The position in a key `gauge<n>`. -/
def gaugePosition (key : String) : Option ℕ :=
  match key.toList with
  | 'g' :: 'a' :: 'u' :: 'g' :: 'e' :: n => Text.parseUnsigned (2 ^ 32) n
  | _ => none

def indicatorOf (num : ℕ) (src : String) (tokens : List Token) : Parse (Indicator F) := do
  let condition ← parseExpr num src
  let offLabel ← strTok tokens 1 num
  let onLabel ← strTok tokens 2 num
  return ⟨condition, offLabel, onLabel, strings (← (tokensFrom tokens 3 : Exec _))⟩

def frontPageEntry (num : ℕ) (key : String) (tokens : List Token) (gauges : List (ℕ × String))
    (df : IniDef F) : Parse (List (ℕ × String) × IniDef F) :=
  match gaugePosition key with
  | some n => do return (gauges ++ [(n, ← strTok tokens 0 num)], df)
  | none =>
    if key = "indicator" then
      match tokens.head? with
      | some (.expr src) => do
        let indicator ← indicatorOf num src tokens
        let frontPage :=
          { df.frontPage with indicators := df.frontPage.indicators ++ [indicator] }
        return (gauges, { df with frontPage })
      | _ => return (gauges, df.warn num "indicator without \x7b condition \x7d")
    else return (gauges, df.warn num s!"unknown [FrontPage] key `{key}`")

def frontPage (lines : List Line) (df : IniDef F) : Parse (IniDef F) := do
  let (gauges, df) ← eachLine frontPageEntry lines [] df
  let sorted := gauges.mergeSort fun a b => a.1 ≤ b.1
  return { df with frontPage := { df.frontPage with gauges := sorted.map Prod.snd } }

/-! ## [Datalog] -/

/-- A text as `{:?}` shows it. -/
def debugText : Option String → String
  | none => "None"
  | some s => "Some(\"" ++ String.join (s.toList.map Text.escapeDebug) ++ "\")"

/-- The condition at a position, if one stands there. -/
def conditionAt (tokens : List Token) (idx num : ℕ) : Parse (Option (Expr F)) :=
  match tokens[idx]? with
  | some (.expr src) => do return some (← parseExpr num src)
  | _ => return none

def datalogEntry (num : ℕ) (key : String) (tokens : List Token) (df : IniDef F) :
    Parse (IniDef F) :=
  if key ≠ "entry" then return df.warn num s!"unknown [Datalog] key `{key}`"
  else do
    let ty := tokens[2]?.map Token.asStr
    match (if ty = some "int" then some DatalogType.int
      else if ty = some "float" then some DatalogType.float else none) with
    | none => return df.warn num s!"unknown datalog type {debugText ty}"
    | some ty => do
      let condition ← conditionAt tokens 4 num
      let entry : DatalogEntry F :=
        { channel := ← strTok tokens 0 num
          label := ← strTok tokens 1 num
          ty
          format := ← strTok tokens 3 num
          condition }
      return { df with datalog := df.datalog ++ [entry] }

def datalog : List Line → IniDef F → Parse (IniDef F) := eachEntry datalogEntry

end RustyTune.TsIni
