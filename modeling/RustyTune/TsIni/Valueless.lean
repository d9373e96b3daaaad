import RustyTune.Lib.XRat
import RustyTune.TsIni.Parse

/-!
# Lines without a value

What becomes of `key =` with nothing after the equals sign, in every section that has a parser.

* `Opened`: what the lines before one have opened; `sourceLines`: the lines of a source with that.
* `optional`: keys that may stand without a value; `indexes`: keys whose parser takes the first token
  without asking whether there is one.
* `Settles`: what a line leaves behind; one lemma per section, `megatuneEntry_ends` and the others.
* **`parseWithSymbols_reports`**: where no line of the second kind lacks its value, parsing returns,
  and every other line without one is reported.
-/

namespace RustyTune.TsIni

/-! ## What is open at a line -/

/-- What the lines so far have opened. -/
structure Opened where
  /-- A table of the section. -/
  table : Bool := false
  /-- A curve of the section. -/
  curve : Bool := false
  /-- A dialog of any section. -/
  dialog : Bool := false
  /-- The reference table of the section is that of the lambda sensor. -/
  lambda : Bool := false
  deriving DecidableEq, Repr

/-- What is open after a line. -/
def Opened.after (o : Opened) (sec key : String) (tokens : List Token) : Opened :=
  if sec = "TableEditor" ∧ key = "table" then { o with table := true }
  else if sec = "CurveEditor" ∧ key = "curve" then { o with curve := true }
  else if sec = "UserDefined" ∧ key = "dialog" then { o with dialog := true }
  else if sec = "ReferenceTables" ∧ key = "referenceTable" then
    { o with lambda := strTokOr tokens 0 == "std_ms2geno2" }
  else o

/-- At the start of a section only a dialog is open still. -/
def Opened.enter (o : Opened) : Opened := { dialog := o.dialog }

/-- Key and tokens of a line that has them. -/
def Line.parts (line : Line) : Option (String × List Token) :=
  (splitKv line.text).bind fun (key, rest) =>
    (tokenize line.num rest).toOption.map fun tokens => (String.ofList key, tokens)

/-- The key of a line that has no value. -/
def Line.bareKey (line : Line) : Option String :=
  match splitKv line.text with
  | some (key, []) => some (String.ofList key)
  | _ => none

/-- A line of a section, and what is open there. -/
structure SourceLine where
  sec : String
  opened : Opened
  line : Line
  deriving DecidableEq, Repr

def Opened.afterLine (o : Opened) (sec : String) (line : Line) : Opened :=
  match line.parts with
  | some (key, tokens) => o.after sec key tokens
  | none => o

def sectionLines (sec : String) : Opened → List Line → List SourceLine
  | _, [] => []
  | o, line :: lines => ⟨sec, o, line⟩ :: sectionLines sec (o.afterLine sec line) lines

/-- What is open after the lines of a section. -/
def Opened.leave (sec : String) (lines : List Line) (o : Opened) : Opened :=
  lines.foldl (fun o line => o.afterLine sec line) o

def allLines : Opened → List (String × List Line) → List SourceLine
  | _, [] => []
  | o, (sec, lines) :: groups =>
    sectionLines sec o.enter lines ++ allLines (o.enter.leave sec lines) groups

def sourceLines (symbols : List (List Char)) (src : List Char) : List SourceLine :=
  match preprocess symbols src with
  | .ok lines => allLines {} (groupLines lines)
  | .error _ => []

/-! ## Keys -/

def parsedSections : List String :=
  ["MegaTune", "SettingGroups", "PcVariables", "Constants", "ConstantsExtensions", "OutputChannels",
    "TableEditor", "CurveEditor", "GaugeConfigurations", "FrontPage", "Datalog", "Menu",
    "UserDefined", "ReferenceTables"]

/-- Keys of the header that take the first token without asking. -/
def headerIndexed : List String :=
  ["nPages", "blockingFactor", "delayAfterPortOpen", "blockReadTimeout", "tsWriteBlocks",
    "interWriteDelay", "pageActivationDelay"]

/-- Keys whose parser takes the first token without asking whether there is one. -/
def indexes (sec : String) (o : Opened) (key : String) : Bool :=
  match sec with
  | "Constants" => key ∈ headerIndexed
  | "OutputChannels" => key = "ochBlockSize"
  | "TableEditor" => o.table && key = "gridHeight"
  | "UserDefined" => o.dialog && key ∈ ["field", "slider", "displayOnlyField"]
  | _ => false

/-- Keys that may stand without a value: lists, texts that are kept as they are, what is not
modelled, and other reference tables. -/
def optional (sec : String) (o : Opened) (key : String) : Bool :=
  match sec with
  | "MegaTune" => key = "MTversion"
  | "Constants" =>
    key ∉ ["page", "endianness", "tableCrcCommand", "messageEnvelopeFormat"] && key ∉ headerIndexed
  | "TableEditor" =>
    o.table && key ∉ ["table", "xBins", "yBins", "zBins", "topicHelp", "gridHeight"]
  | "CurveEditor" => o.curve && key ∉ ["curve", "xBins", "yBins"]
  | "Menu" => key = "menuDialog"
  | "UserDefined" => key ∈ visualKeys || o.dialog && key = "topicHelp"
  | "ReferenceTables" =>
    key ∉ ["tableWriteCommand", "tableBlockingFactor", "referenceTable"] &&
      !(o.lambda && key ∈ ["tableIdentifier", "adcCount", "bytesPerAdc", "scale"])
  | _ => false

variable {F : Type}

/-- There is a warning about the line. -/
def IniDef.WarnsAt (df : IniDef F) (num : ℕ) : Prop :=
  ∃ msg : String, s!"line {num}: {msg}" ∈ df.warnings

/-! ## What a line leaves behind -/

/-- The definition after a line: dialogs are as the line says, warnings stay, and a line without
tokens is reported unless it may be one. -/
structure Settles (sec key : String) (tokens : List Token) (num : ℕ) (o : Opened)
    (df df' : IniDef F) : Prop where
  dialog : df'.lastDialog.isSome = (o.after sec key tokens).dialog
  warnings : df.warnings <+: df'.warnings
  reports : tokens = [] → optional sec o key = false → df'.WarnsAt num

section Settles

variable {sec key : String} {tokens : List Token} {num : ℕ} {o : Opened} {df df' : IniDef F}

theorem Opened.after_dialog (h : ¬ (sec = "UserDefined" ∧ key = "dialog")) :
    (o.after sec key tokens).dialog = o.dialog := by
  unfold Opened.after
  split_ifs <;> rfl

theorem Settles.of_warned (hd : df'.dialogs = df.dialogs) (hw : df.warnings <+: df'.warnings)
    (ho : df.lastDialog.isSome = o.dialog) (h : ¬ (sec = "UserDefined" ∧ key = "dialog"))
    (hval : tokens = [] → optional sec o key = true) : Settles sec key tokens num o df df' where
  dialog := by rw [Opened.after_dialog h, ← ho, IniDef.lastDialog, hd, IniDef.lastDialog]
  warnings := hw
  reports := fun ht hopt => absurd (hval ht) (by simp [hopt])

theorem Settles.of_eq (hd : df'.dialogs = df.dialogs) (hw : df'.warnings = df.warnings)
    (ho : df.lastDialog.isSome = o.dialog) (h : ¬ (sec = "UserDefined" ∧ key = "dialog"))
    (hval : tokens = [] → optional sec o key = true) : Settles sec key tokens num o df df' :=
  .of_warned hd (hw ▸ List.prefix_rfl) ho h hval

theorem IniDef.warnsAt_warn (df : IniDef F) (num : ℕ) (msg : String) : (df.warn num msg).WarnsAt num :=
  ⟨msg, List.mem_append_right _ List.mem_cons_self⟩

theorem Settles.warn (msg : String) (ho : df.lastDialog.isSome = o.dialog)
    (h : ¬ (sec = "UserDefined" ∧ key = "dialog")) :
    Settles sec key tokens num o df (df.warn num msg) where
  dialog := by rw [Opened.after_dialog h, ← ho]; rfl
  warnings := List.prefix_append _ _
  reports := fun _ _ => df.warnsAt_warn num msg

end Settles

/-! ## Values -/

section Values

variable {tokens : List Token} {num : ℕ}

theorem ends_strTok (tokens : List Token) (idx num : ℕ) :
    Exec.Ends (liftParse (strTok tokens idx num)) fun _ => tokens ≠ [] := by
  refine ends_liftParse fun a ha => ?_
  rintro rfl
  exact nomatch ha

theorem ends_firstOr (tokens : List Token) (num : ℕ) (msg : String) :
    Exec.Ends (liftParse (firstOr tokens num msg)) fun _ => tokens ≠ [] := by
  refine ends_liftParse fun a ha => ?_
  rintro rfl
  exact nomatch ha

theorem ends_namePair (tokens : List Token) (num : ℕ) :
    Exec.Ends (liftParse (namePair tokens num)) fun _ => tokens ≠ [] := by
  refine ends_liftParse fun a ha => ?_
  rintro rfl
  exact nomatch ha

/-- There is a first token where there is any. -/
theorem ends_tokenAt (h : tokens ≠ []) :
    Exec.Ends (liftM (tokenAt tokens 0) : Parse Token) fun _ => True := by
  cases tokens with
  | nil => exact absurd rfl h
  | cons t tokens => exact Exec.ends_pure trivial

theorem tokensFrom_returns {idx : ℕ} (h : idx ≤ tokens.length) :
    Exec.Returns (tokensFrom tokens idx) fun _ => True := ⟨_, if_pos h, trivial⟩

variable [F64 F]

theorem ends_firstNumber (h : tokens ≠ []) :
    Exec.Ends (firstNumber tokens num : Parse F) fun _ => True := by
  unfold firstNumber
  exact (ends_tokenAt h).bind fun t _ => ends_liftParse fun _ _ => trivial

theorem ends_firstU32 (h : tokens ≠ []) :
    Exec.Ends (firstU32 F tokens num) fun _ => True := by
  unfold firstU32
  exact (ends_firstNumber h).bind fun n _ => Exec.ends_pure trivial

theorem ends_numOrExpr (tokens : List Token) (idx num : ℕ) :
    Exec.Ends (numOrExpr tokens idx num : Parse (NumOrExpr F)) fun _ => True := by
  unfold numOrExpr
  split
  · exact (parseExpr_returns _ _).bind fun e _ => Exec.ends_pure trivial
  · exact (ends_liftParse fun _ _ => trivial).bind fun n _ => Exec.ends_pure trivial
  · exact Exec.ends_throw _

theorem ends_optionalField (tokens : List Token) (idx line : ℕ) :
    Exec.Ends (optionalField tokens idx line : Parse (Option (NumOrExpr F))) fun _ => True := by
  unfold optionalField
  split_ifs
  · exact (ends_numOrExpr _ _ _).bind fun n _ => Exec.ends_pure trivial
  · exact Exec.ends_pure trivial

theorem ends_unitsAt (tokens : List Token) (idx line : ℕ) :
    Exec.Ends (unitsAt tokens idx line : Parse (Option (StrOrExpr F))) fun _ => True := by
  unfold unitsAt
  split
  · exact (parseExpr_returns _ _).bind fun e _ => Exec.ends_pure trivial
  · exact Exec.ends_pure trivial
  · exact Exec.ends_pure trivial

theorem ends_flag (line : ℕ) (c : ConstantDef F) (t : Token) :
    Exec.Ends (flag line c t) fun _ => True := by
  unfold flag
  split
  · exact Exec.ends_pure trivial
  · split_ifs
    · exact Exec.ends_pure trivial
    · split
      · exact (parseExpr_returns _ _).bind fun e _ => Exec.ends_pure trivial
      · exact (ends_liftParse fun _ _ => trivial).bind fun n _ => Exec.ends_pure trivial

theorem ends_constantTail (c : ConstantDef F) (tokens : List Token) (idx line : ℕ) :
    Exec.Ends (constantTail c tokens idx line) fun _ => True := by
  unfold constantTail
  refine (ends_unitsAt _ _ _).bind fun units _ => ?_
  refine (ends_optionalField _ _ _).bind fun scale _ => ?_
  refine (ends_optionalField _ _ _).bind fun translate _ => ?_
  refine (ends_optionalField _ _ _).bind fun lo _ => ?_
  refine (ends_optionalField _ _ _).bind fun hi _ => ?_
  exact Exec.ends_foldlM (fun c t _ => ends_flag line c t) _ trivial

/-- There is no shape in an empty text, so the labels of a bits constant start within the line. -/
theorem parseShape_lt {idx line : ℕ} {shape : Shape}
    (h : parseShape line (strTokOr tokens idx) = .ok shape) : idx < tokens.length := by
  by_contra hidx
  have hnone : tokens[idx]? = none := List.getElem?_eq_none (by omega)
  rw [strTokOr, hnone] at h
  exact nomatch h

theorem ends_constantFields (c : ConstantDef F) (tokens : List Token) (idx line : ℕ) :
    Exec.Ends (constantFields c tokens idx line) fun _ => True := by
  unfold constantFields
  split
  · split
    · exact (ends_liftParse fun _ _ => trivial).bind fun n _ => Exec.ends_pure trivial
    · exact Exec.ends_throw _
  · refine (ends_liftParse fun _ h => parseShape_lt h).bind fun shape hidx => ?_
    split
    · exact (tokensFrom_returns hidx).lift.bind fun labels _ => Exec.ends_pure trivial
    · exact Exec.ends_throw _
  · exact (ends_liftParse fun _ _ => trivial).bind fun shape _ => ends_constantTail _ _ _ _
  · exact ends_constantTail _ _ _ _

theorem ends_constantDef (name : String) (cls : ConstantClass) (tokens : List Token)
    (page : Option UInt8) (lastOffset : Option UInt32) (line : ℕ) :
    Exec.Ends (constantDef name cls tokens page lastOffset line : Parse (ConstantDef F))
      fun _ => True := by
  unfold constantDef
  refine (ends_liftParse fun _ _ => trivial).bind fun ty _ => ?_
  split
  · exact ends_constantFields _ _ _ _
  · split
    · exact Exec.ends_throw _
    · exact (ends_liftParse fun _ _ => trivial).bind fun offset _ => ends_constantFields _ _ _ _

omit [F64 F] in
theorem ne_nil_of_constantClass {cls : ConstantClass} (h : constantClass tokens = some cls) :
    tokens ≠ [] := by
  rintro rfl
  exact nomatch h

end Values

/-! ## The lines of a section -/

section Lines

variable {sec : String}

/-- What a section keeps for itself agrees with what is open, and every line settles. -/
def Settling {σ : Type} (sec : String) (R : σ → Opened → Prop)
    (entry : ℕ → String → List Token → σ → IniDef F → Parse (σ × IniDef F)) : Prop :=
  ∀ num key tokens s df o, R s o → df.lastDialog.isSome = o.dialog →
    (tokens = [] → indexes sec o key = false) →
    Exec.Ends (entry num key tokens s df) fun r =>
      R r.1 (o.after sec key tokens) ∧ Settles sec key tokens num o df r.2

/-- The same of a section that keeps nothing. -/
def SettlingEntry (sec : String) (entry : ℕ → String → List Token → IniDef F → Parse (IniDef F)) :
    Prop :=
  ∀ num key tokens df o, df.lastDialog.isSome = o.dialog →
    (tokens = [] → indexes sec o key = false) →
    Exec.Ends (entry num key tokens df) fun df' => Settles sec key tokens num o df df'

/-- The definition after some lines: dialogs are as they say, warnings stay, and every line without
a value is reported unless it may be one. -/
structure Reported (lines : List SourceLine) (o : Opened) (df df' : IniDef F) : Prop where
  dialog : df'.lastDialog.isSome = o.dialog
  warnings : df.warnings <+: df'.warnings
  reports : ∀ x ∈ lines, ∀ key, x.line.bareKey = some key → optional x.sec x.opened key = false →
    x.sec ∈ parsedSections → df'.WarnsAt x.line.num

/-- No line lacks the value that its parser takes without asking. -/
def Indexable (lines : List SourceLine) : Prop :=
  ∀ x ∈ lines, ∀ key, x.line.bareKey = some key → indexes x.sec x.opened key = false

theorem IniDef.WarnsAt.mono {df df' : IniDef F} {num : ℕ} (h : df.WarnsAt num)
    (hw : df.warnings <+: df'.warnings) : df'.WarnsAt num := by
  obtain ⟨msg, hmsg⟩ := h
  exact ⟨msg, hw.subset hmsg⟩

theorem bareKey_eq_some {line : Line} {key : String} :
    line.bareKey = some key ↔ line.parts = some (key, []) := by
  unfold Line.bareKey Line.parts
  cases hkv : splitKv line.text with
  | none => simp
  | some p =>
    obtain ⟨k, rest⟩ := p
    obtain ⟨s, rfl⟩ := splitKv_trimmed hkv
    have hnil : tokenize line.num (Text.trim s) = .ok [] ↔ Text.trim s = [] :=
      tokenize_eq_nil.trans Text.trim_trim_eq_nil
    dsimp only [Option.bind_some]
    cases hs : Text.trim s with
    | nil =>
      rw [hs] at hnil
      rw [hnil.mpr rfl]
      simp [Except.toOption]
    | cons c s' =>
      rw [hs] at hnil
      refine iff_of_false nofun fun h => ?_
      cases ht : tokenize line.num (c :: s') with
      | error e => rw [ht] at h; exact nomatch h
      | ok tokens =>
        rw [ht] at h
        obtain ⟨-, rfl⟩ := Prod.mk.inj (Option.some.inj h)
        exact nomatch hnil.mp ht

/-- A line with key and tokens changes nothing before its section's parser sees it, any other is a
warning. -/
theorem kv_eq (line : Line) (df : IniDef F) :
    match line.parts with
    | some p => kv line df = (some p, df)
    | none => ∃ msg, kv line df = (none, df.warn line.num msg) := by
  unfold Line.parts kv
  cases splitKv line.text with
  | none => exact ⟨_, rfl⟩
  | some p =>
    obtain ⟨key, rest⟩ := p
    dsimp only [Option.bind_some]
    cases tokenize line.num rest with
    | ok tokens => rfl
    | error e => exact ⟨_, rfl⟩

section Run

variable {σ : Type} {R : σ → Opened → Prop}
  {entry : ℕ → String → List Token → σ → IniDef F → Parse (σ × IniDef F)}

/-- The lines of a section, by induction on them. -/
theorem Settling.eachLine (h : Settling sec R entry) (lines : List Line) {s : σ} {df : IniDef F}
    {o : Opened} (hR : R s o) (ho : df.lastDialog.isSome = o.dialog)
    (hidx : Indexable (sectionLines sec o lines)) :
    Exec.Ends (TsIni.eachLine entry lines s df) fun r =>
      R r.1 (o.leave sec lines) ∧
        Reported (sectionLines sec o lines) (o.leave sec lines) df r.2 := by
  induction lines generalizing s df o with
  | nil => exact Exec.ends_pure ⟨hR, ho, List.prefix_rfl, nofun⟩
  | cons line lines ih =>
    have hidx' : Indexable (sectionLines sec (o.afterLine sec line) lines) :=
      fun x hx => hidx x (List.mem_cons_of_mem _ hx)
    have hkv := kv_eq line df
    unfold TsIni.eachLine
    cases hp : line.parts with
    | none =>
      rw [hp] at hkv
      obtain ⟨msg, hkv⟩ := hkv
      have ho' : (o.afterLine sec line) = o := by rw [Opened.afterLine, hp]
      rw [hkv]
      rw [ho'] at hidx'
      have hrest := ih hR (show (df.warn line.num msg).lastDialog.isSome = o.dialog from ho) hidx'
      refine hrest.mono fun r ⟨hR', hrep⟩ => ?_
      rw [sectionLines, Opened.leave, List.foldl_cons, ho']
      refine ⟨hR', hrep.dialog, (List.prefix_append _ _).trans hrep.warnings, ?_⟩
      intro x hx key hkey
      rcases List.mem_cons.mp hx with rfl | hx
      · rw [bareKey_eq_some.mp hkey] at hp
        exact nomatch hp
      · exact hrep.reports x hx key hkey
    | some p =>
      obtain ⟨key, tokens⟩ := p
      rw [hp] at hkv
      have ho' : (o.afterLine sec line) = o.after sec key tokens := by rw [Opened.afterLine, hp]
      rw [hkv]
      dsimp only
      have hhead : tokens = [] → indexes sec o key = false := by
        rintro rfl
        exact hidx _ List.mem_cons_self key (bareKey_eq_some.mpr hp)
      refine (h line.num key tokens s df o hR ho hhead).bind fun ⟨s1, df1⟩ ⟨hR1, hset⟩ => ?_
      refine (ih (ho'.symm ▸ hR1) (ho'.symm ▸ hset.dialog) hidx').mono fun r ⟨hR', hrep⟩ => ?_
      refine ⟨hR', hrep.dialog, hset.warnings.trans hrep.warnings, ?_⟩
      intro x hx key' hkey hopt hsec
      rcases List.mem_cons.mp hx with rfl | hx
      · obtain ⟨rfl, rfl⟩ := Prod.mk.inj (Option.some.inj (hp.symm.trans (bareKey_eq_some.mp hkey)))
        exact (hset.reports rfl hopt).mono hrep.warnings
      · exact hrep.reports x hx key' hkey hopt hsec

/-- The lines of a section that keeps nothing. -/
theorem SettlingEntry.eachEntry {entry : ℕ → String → List Token → IniDef F → Parse (IniDef F)}
    (h : SettlingEntry sec entry) (lines : List Line) {df : IniDef F} {o : Opened}
    (ho : df.lastDialog.isSome = o.dialog) (hidx : Indexable (sectionLines sec o lines)) :
    Exec.Ends (TsIni.eachEntry entry lines df)
      fun df' => Reported (sectionLines sec o lines) (o.leave sec lines) df df' := by
  have hset : Settling sec (fun (_ : Unit) _ => True)
      (fun num key tokens () df => do return ((), ← entry num key tokens df)) :=
    fun num key tokens _ df o _ ho hidx =>
      (h num key tokens df o ho hidx).bind fun df' hdf' => Exec.ends_pure ⟨trivial, hdf'⟩
  exact (hset.eachLine lines trivial ho hidx).bind fun r hr => Exec.ends_pure hr.2

end Run

end Lines

/-! ## Section by section -/

section Sections

variable {sec key : String} {tokens : List Token} {num : ℕ} {o : Opened} {df : IniDef F} {α : Type}
  {P : α → Prop}

theorem settles_bind {x : Parse α} (hx : Exec.Ends x P) {f : α → IniDef F}
    (hd : ∀ a, (f a).dialogs = df.dialogs) (hw : ∀ a, (f a).warnings = df.warnings)
    (ho : df.lastDialog.isSome = o.dialog) (h : ¬ (sec = "UserDefined" ∧ key = "dialog"))
    (hval : ∀ a, P a → tokens = [] → optional sec o key = true) :
    Exec.Ends (x >>= fun a => pure (f a)) fun df' => Settles sec key tokens num o df df' :=
  hx.bind fun a ha => Exec.ends_pure (.of_eq (hd a) (hw a) ho h (hval a ha))

/-- The same of a value that is a token of the line. -/
theorem settles_strTok {idx : ℕ} {f : String → IniDef F} (hd : ∀ a, (f a).dialogs = df.dialogs)
    (hw : ∀ a, (f a).warnings = df.warnings) (ho : df.lastDialog.isSome = o.dialog)
    (h : ¬ (sec = "UserDefined" ∧ key = "dialog")) :
    Exec.Ends (liftParse (strTok tokens idx num) >>= fun a => pure (f a))
      fun df' => Settles sec key tokens num o df df' :=
  settles_bind (ends_strTok tokens idx num) hd hw ho h fun _ h1 h2 => absurd h2 h1

variable [F64 F]

theorem megatuneEntry_ends : SettlingEntry "MegaTune" (megatuneEntry (F := F)) := by
  intro num key tokens df o ho _
  unfold megatuneEntry
  split
  · exact Exec.ends_pure (.of_eq rfl rfl ho (by simp) fun _ => by simp [optional])
  · exact settles_strTok (fun _ => rfl) (fun _ => rfl) ho (by simp)
  · exact settles_strTok (fun _ => rfl) (fun _ => rfl) ho (by simp)
  · exact settles_strTok (fun _ => rfl) (fun _ => rfl) ho (by simp)
  · exact Exec.ends_pure (.warn _ ho (by simp))

omit [F64 F] in
theorem settingGroupsEntry_ends : SettlingEntry "SettingGroups" (settingGroupsEntry (F := F)) := by
  intro num key tokens df o ho _
  unfold settingGroupsEntry
  split
  · exact settles_strTok (fun _ => rfl) (fun _ => rfl) ho (by simp)
  · refine (ends_strTok tokens 0 num).bind fun opt hne => ?_
    dsimp only
    split
    · exact Exec.ends_pure (.of_eq rfl rfl ho (by simp) fun h => absurd h hne)
    · exact Exec.ends_pure (.warn _ ho (by simp))
  · exact Exec.ends_pure (.warn _ ho (by simp))

theorem pcVariablesEntry_ends : SettlingEntry "PcVariables" (pcVariablesEntry (F := F)) := by
  intro num key tokens df o ho _
  unfold pcVariablesEntry
  split
  · next cls hcls =>
    exact settles_bind (ends_constantDef _ _ _ _ _ _) (fun _ => rfl) (fun _ => rfl) ho (by simp)
      fun _ _ h => absurd h (ne_nil_of_constantClass hcls)
  · exact Exec.ends_pure (.warn _ ho (by simp))

/-- A key of the header that is not `page` takes no value only where it may. -/
theorem headerKey_ends {h : ConstantsHeader} (hpage : key ≠ "page")
    (hidx : tokens = [] → indexes "Constants" o key = false) :
    Exec.Ends (headerKey F num key tokens h)
      fun _ => tokens = [] → optional "Constants" o key = true := by
  have hne (hin : indexes "Constants" o key = true) : tokens ≠ [] := fun ht =>
    absurd (hidx ht) (by simp [hin])
  unfold headerKey
  split
  case h_1 | h_10 | h_17 =>
    exact (ends_strTok _ _ _).bind fun _ h => Exec.ends_pure fun h' => absurd h' h
  case h_2 =>
    exact (ends_firstNumber (hne (by simp [indexes, headerIndexed]))).bind fun _ _ =>
      Exec.ends_pure fun h' => absurd h' (hne (by simp [indexes, headerIndexed]))
  case h_11 | h_12 | h_13 | h_15 | h_16 =>
    exact (ends_firstU32 (hne (by simp [indexes, headerIndexed]))).bind fun _ _ =>
      Exec.ends_pure fun h' => absurd h' (hne (by simp [indexes, headerIndexed]))
  case h_14 =>
    exact (ends_tokenAt (hne (by simp [indexes, headerIndexed]))).bind fun _ _ =>
      Exec.ends_pure fun h' => absurd h' (hne (by simp [indexes, headerIndexed]))
  case h_3 =>
    exact (ends_liftParse fun _ _ => trivial).bind fun _ _ =>
      Exec.ends_pure fun _ => by simp [optional, headerIndexed]
  case h_4 | h_5 | h_6 | h_7 | h_8 | h_9 =>
    exact Exec.ends_pure fun _ => by simp [optional, headerIndexed]
  case h_18 => exact Exec.ends_pure fun _ => by simp_all [optional, headerIndexed]

theorem constantsEntry_ends :
    Settling "Constants" (fun _ _ => True) (constantsEntry (F := F)) := by
  intro num key tokens s df o _ ho hidx
  unfold constantsEntry
  split
  · next hpage =>
    subst hpage
    refine (ends_firstOr tokens num _).bind fun t hne => ?_
    exact (ends_liftParse fun _ _ => trivial).bind fun n _ =>
      Exec.ends_pure ⟨trivial, .of_eq rfl rfl ho (by simp) fun h => absurd h hne⟩
  · next hpage =>
    split
    · next cls hcls =>
      split
      · exact Exec.ends_throw _
      · exact (ends_constantDef _ _ _ _ _ _).bind fun c _ => Exec.ends_pure
          ⟨trivial, .of_eq rfl rfl ho (by simp) fun h => absurd h (ne_nil_of_constantClass hcls)⟩
    · exact (headerKey_ends hpage hidx).bind fun h hval =>
        Exec.ends_pure ⟨trivial, .of_eq rfl rfl ho (by simp) hval⟩

omit [F64 F] in
theorem constantsExtensionsEntry_ends :
    SettlingEntry "ConstantsExtensions" (constantsExtensionsEntry (F := F)) := by
  intro num key tokens df o ho _
  unfold constantsExtensionsEntry
  split
  · exact settles_strTok (fun _ => rfl) (fun _ => rfl) ho (by simp)
  · refine (ends_strTok tokens 0 num).bind fun name hne => ?_
    refine settles_bind (tokensFrom_returns (List.length_pos_iff.mpr hne)).lift (fun _ => rfl)
      (fun _ => rfl) ho (by simp) fun _ _ h => absurd h hne
  · exact settles_strTok (fun _ => rfl) (fun _ => rfl) ho (by simp)
  · exact Exec.ends_pure (.warn _ ho (by simp))

theorem outputChannelsEntry_ends :
    SettlingEntry "OutputChannels" (outputChannelsEntry (F := F)) := by
  intro num key tokens df o ho hidx
  unfold outputChannelsEntry
  split
  · exact settles_strTok (fun _ => rfl) (fun _ => rfl) ho (by simp)
  · have hne : tokens ≠ [] := fun h => absurd (hidx h) (by simp [indexes])
    exact settles_bind (ends_firstU32 hne) (fun _ => rfl) (fun _ => rfl) ho (by simp)
      fun _ _ h => absurd h hne
  · split
    · next src hsrc =>
      have hne : tokens ≠ [] := by rintro rfl; exact nomatch hsrc
      exact settles_bind (parseExpr_returns _ _) (fun _ => rfl) (fun _ => rfl) ho (by simp)
        fun _ _ h => absurd h hne
    · split
      · exact Exec.ends_pure (.warn _ ho (by simp))
      · next cls hcls =>
        refine (ends_constantDef _ _ _ _ _ _).bind fun c _ => ?_
        exact settles_bind (P := fun _ => True) (ends_liftParse fun _ _ => trivial) (fun _ => rfl)
          (fun _ => rfl) ho (by simp) fun _ _ h => absurd h (ne_nil_of_constantClass hcls)

theorem tableKey_ends {t : TableDef F} (hkey : key ≠ "table") (ht : o.table = true)
    (hidx : tokens = [] → indexes "TableEditor" o key = false) :
    Exec.Ends (tableKey num key tokens t)
      fun _ => tokens = [] → optional "TableEditor" o key = true := by
  unfold tableKey
  split
  case h_1 | h_2 =>
    exact (ends_namePair _ _).bind fun _ h => Exec.ends_pure fun h' => absurd h' h
  case h_3 | h_8 =>
    exact (ends_strTok _ _ _).bind fun _ h => Exec.ends_pure fun h' => absurd h' h
  case h_5 =>
    have hne : tokens ≠ [] := fun h => absurd (hidx h) (by simp [indexes, ht])
    exact (ends_firstNumber hne).bind fun _ _ => Exec.ends_pure fun h' => absurd h' hne
  case h_4 | h_7 => exact Exec.ends_pure fun _ => by simp [optional, ht]
  case h_6 =>
    exact (ends_liftParse fun _ _ => trivial).bind fun _ _ =>
      Exec.ends_pure fun _ => by simp [optional, ht]
  case h_9 => exact Exec.ends_pure fun _ => by simp_all [optional]

theorem tableEditorEntry_ends :
    Settling "TableEditor" (fun current o => current.isSome = o.table)
      (tableEditorEntry (F := F)) := by
  intro num key tokens current df o hR ho hidx
  unfold tableEditorEntry
  split
  · next hkey =>
    subst hkey
    refine Exec.Ends.bind (P := fun _ => tokens ≠ []) ?_ fun t hne => Exec.ends_pure ?_
    · refine ends_liftParse fun a ha => ?_
      rintro rfl
      exact nomatch ha
    · refine ⟨by simp [Opened.after], .of_eq ?_ ?_ ho (by simp) fun h => absurd h hne⟩ <;>
      cases current <;> rfl
  · next hkey =>
    have hafter : (o.after "TableEditor" key tokens).table = o.table := by
      simp [Opened.after, hkey]
    split
    · exact Exec.ends_pure ⟨hR.trans hafter.symm, .warn _ ho (by simp)⟩
    · exact (tableKey_ends hkey hR.symm hidx).bind fun t hval =>
        Exec.ends_pure ⟨hR.trans hafter.symm, .of_eq rfl rfl ho (by simp) hval⟩

theorem curveKey_ends {c : CurveDef F} (hkey : key ≠ "curve") (hc : o.curve = true) :
    Exec.Ends (curveKey num key tokens c)
      fun _ => tokens = [] → optional "CurveEditor" o key = true := by
  have haxis : Exec.Ends (axisFields num tokens : Parse (List (NumOrExpr F))) fun _ => True :=
    Exec.ends_mapM (fun i => ends_numOrExpr tokens i num) _
  unfold curveKey
  split
  case h_1 => exact Exec.ends_pure fun _ => by simp [optional, hc]
  case h_2 | h_3 =>
    exact haxis.bind fun _ _ => Exec.ends_pure fun _ => by simp [optional, hc]
  case h_4 => exact (ends_namePair _ _).bind fun _ h => Exec.ends_pure fun h' => absurd h' h
  case h_5 => exact (ends_strTok _ _ _).bind fun _ h => Exec.ends_pure fun h' => absurd h' h
  case h_6 => exact Exec.ends_pure fun _ => by simp_all [optional]

theorem curveEditorEntry_ends :
    Settling "CurveEditor" (fun current o => current.isSome = o.curve)
      (curveEditorEntry (F := F)) := by
  intro num key tokens current df o hR ho hidx
  unfold curveEditorEntry
  split
  · next hkey =>
    subst hkey
    refine (ends_strTok tokens 0 num).bind fun id hne => Exec.ends_pure ?_
    refine ⟨by simp [Opened.after], .of_eq ?_ ?_ ho (by simp) fun h => absurd h hne⟩ <;>
      cases current <;> rfl
  · next hkey =>
    have hafter : (o.after "CurveEditor" key tokens).curve = o.curve := by
      simp [Opened.after, hkey]
    split
    · exact Exec.ends_pure ⟨hR.trans hafter.symm, .warn _ ho (by simp)⟩
    · exact (curveKey_ends hkey hR.symm).bind fun t hval =>
        Exec.ends_pure ⟨hR.trans hafter.symm, .of_eq rfl rfl ho (by simp) hval⟩

theorem ends_gaugeDef (num : ℕ) (name : String) (tokens : List Token) (category : String) :
    Exec.Ends (gaugeDef num name tokens category : Parse (GaugeDef F)) fun _ => tokens ≠ [] := by
  unfold gaugeDef
  refine (ends_strTok tokens 0 num).bind fun _ hne => ?_
  refine (ends_strTok tokens 1 num).bind fun _ _ => ?_
  refine (ends_strTok tokens 2 num).bind fun _ _ => ?_
  iterate 6 refine (ends_numOrExpr tokens _ num).bind fun _ _ => ?_
  refine (ends_liftParse (P := fun _ => True) fun _ _ => trivial).bind fun _ _ => ?_
  exact (ends_liftParse (P := fun _ => True) fun _ _ => trivial).bind fun _ _ => Exec.ends_pure hne

theorem gaugeConfigurationsEntry_ends :
    Settling "GaugeConfigurations" (fun _ _ => True) (gaugeConfigurationsEntry (F := F)) := by
  intro num key tokens category df o _ ho _
  unfold gaugeConfigurationsEntry
  split_ifs
  · exact (ends_strTok tokens 0 num).bind fun _ hne =>
      Exec.ends_pure ⟨trivial, .of_eq rfl rfl ho (by simp) fun h => absurd h hne⟩
  · exact Exec.ends_pure ⟨trivial, .warn _ ho (by simp)⟩
  · exact (ends_gaugeDef _ _ _ _).bind fun _ hne =>
      Exec.ends_pure ⟨trivial, .of_eq rfl rfl ho (by simp) fun h => absurd h hne⟩

/-- Its two labels come first, so the colors start within the line. -/
theorem ends_indicatorOf (num : ℕ) (src : String) (tokens : List Token) :
    Exec.Ends (indicatorOf num src tokens : Parse (Indicator F)) fun _ => True := by
  unfold indicatorOf
  refine (parseExpr_returns _ _).bind fun _ _ => ?_
  refine (ends_strTok tokens 1 num).bind fun _ _ => ?_
  refine Exec.Ends.bind (P := fun _ => 2 < tokens.length) ?_ fun _ hlen => ?_
  · refine ends_liftParse fun a ha => ?_
    by_contra hlen
    rw [strTok, List.getElem?_eq_none (by omega)] at ha
    exact nomatch ha
  · exact (tokensFrom_returns hlen).lift.bind fun _ _ => Exec.ends_pure trivial

theorem frontPageEntry_ends :
    Settling "FrontPage" (fun _ _ => True) (frontPageEntry (F := F)) := by
  intro num key tokens gauges df o _ ho _
  unfold frontPageEntry
  split
  · exact (ends_strTok tokens 0 num).bind fun _ hne =>
      Exec.ends_pure ⟨trivial, .of_eq rfl rfl ho (by simp) fun h => absurd h hne⟩
  · split_ifs
    · split
      · next src hsrc =>
        have hne : tokens ≠ [] := by rintro rfl; exact nomatch hsrc
        exact (ends_indicatorOf _ _ _).bind fun _ _ =>
          Exec.ends_pure ⟨trivial, .of_eq rfl rfl ho (by simp) fun h => absurd h hne⟩
      · exact Exec.ends_pure ⟨trivial, .warn _ ho (by simp)⟩
    · exact Exec.ends_pure ⟨trivial, .warn _ ho (by simp)⟩

theorem ends_conditionAt (tokens : List Token) (idx num : ℕ) :
    Exec.Ends (conditionAt tokens idx num : Parse (Option (Expr F))) fun _ => True := by
  unfold conditionAt
  split
  · exact (parseExpr_returns _ _).bind fun _ _ => Exec.ends_pure trivial
  · exact Exec.ends_pure trivial

theorem datalogEntry_ends : SettlingEntry "Datalog" (datalogEntry (F := F)) := by
  intro num key tokens df o ho _
  unfold datalogEntry
  split_ifs
  · exact Exec.ends_pure (.warn _ ho (by simp))
  · dsimp only
    split
    · exact Exec.ends_pure (.warn _ ho (by simp))
    · refine (ends_conditionAt _ _ _).bind fun _ _ => ?_
      refine (ends_strTok tokens 0 num).bind fun _ hne => ?_
      refine (ends_strTok tokens 1 num).bind fun _ _ => ?_
      exact settles_strTok (fun _ => rfl) (fun _ => rfl) ho (by simp)

/-! ### Menus and dialogs -/

def IniDef.Adds (df df' : IniDef F) : Prop := ∃ ws, df' = { df with warnings := df.warnings ++ ws }

omit [F64 F] in
theorem IniDef.Adds.refl (df : IniDef F) : df.Adds df := ⟨[], by rw [List.append_nil]⟩

omit [F64 F] in
theorem IniDef.Adds.trans {df df' df'' : IniDef F} (h : df.Adds df') (h' : df'.Adds df'') :
    df.Adds df'' := by
  obtain ⟨ws, rfl⟩ := h
  obtain ⟨ws', rfl⟩ := h'
  exact ⟨ws ++ ws', by rw [List.append_assoc]⟩

omit [F64 F] in
theorem IniDef.Adds.dialogs {df df' : IniDef F} (h : df.Adds df') : df'.dialogs = df.dialogs := by
  obtain ⟨ws, rfl⟩ := h
  rfl

omit [F64 F] in
theorem IniDef.Adds.warnings {df df' : IniDef F} (h : df.Adds df') :
    df.warnings <+: df'.warnings := by
  obtain ⟨ws, rfl⟩ := h
  exact List.prefix_append _ _

omit [F64 F] in
theorem IniDef.adds_warn (df : IniDef F) (num : ℕ) (msg : String) : df.Adds (df.warn num msg) :=
  ⟨_, rfl⟩

theorem conditionOf_returns (num : ℕ) (src : String) (df : IniDef F) :
    Exec.Returns (conditionOf num src df) fun r => df.Adds r.2 := by
  unfold conditionOf
  split_ifs
  · exact Exec.returns_pure (.refl df)
  · refine (parseExpr_returns num src).run.bind fun r _ => ?_
    split
    · exact Exec.returns_pure (.refl df)
    · exact Exec.returns_pure (df.adds_warn _ _)

theorem conditions_returns (num : ℕ) (tokens : List Token) (df : IniDef F) :
    Exec.Returns (conditions num tokens df) fun r => df.Adds r.2 := by
  induction tokens generalizing df with
  | nil => exact Exec.returns_pure (.refl df)
  | cons t tokens ih =>
    cases t with
    | bare s | str s => exact ih df
    | expr src =>
      refine (conditionOf_returns num src df).bind fun ⟨c, df1⟩ h1 => ?_
      exact (ih df1).bind fun ⟨cs, df2⟩ h2 => Exec.returns_pure (h1.trans h2)

theorem firstCondition_returns (num : ℕ) (tokens : List Token) (df : IniDef F) :
    Exec.Returns (firstCondition num tokens df) fun r => df.Adds r.2 :=
  (conditions_returns num tokens df).bind fun _ h => Exec.returns_pure h

/-- An entry of a menu needs a target, which is a first token. -/
theorem menuEntry_returns (num : ℕ) (tokens : List Token) (df : IniDef F) :
    Exec.Returns (menuEntry num tokens df) fun r =>
      df.Adds r.2 ∧ (r.1 = none → r.2.WarnsAt num) ∧ (tokens = [] → r.1 = none) := by
  unfold menuEntry
  split
  · exact Exec.returns_pure ⟨df.adds_warn _ _, fun _ => df.warnsAt_warn _ _, fun _ => rfl⟩
  · next first hfirst =>
    have hne : tokens ≠ [] := by rintro rfl; exact nomatch hfirst
    split
    refine (tokensFrom_returns (List.length_pos_iff.mpr hne)).bind fun rest _ => ?_
    exact (firstCondition_returns num rest df).bind fun r h =>
      Exec.returns_pure ⟨h, nofun, fun h => absurd h hne⟩

omit [F64 F] in
theorem addEntry_dialogs (num : ℕ) (key : String) (menu : MenuDef F) (entry : MenuEntry F)
    (df : IniDef F) : (addEntry num key menu entry df).dialogs = df.dialogs := by
  unfold addEntry
  split_ifs
  · split <;> rfl
  · rfl

omit [F64 F] in
theorem addEntry_warnings (num : ℕ) (key : String) (menu : MenuDef F) (entry : MenuEntry F)
    (df : IniDef F) : df.warnings <+: (addEntry num key menu entry df).warnings := by
  unfold addEntry
  split_ifs
  · split
    · exact List.prefix_rfl
    · exact List.prefix_append _ _
  · exact List.prefix_rfl

theorem menuItem_ends (ho : df.lastDialog.isSome = o.dialog) (menu : MenuDef F) :
    Exec.Ends (menuItem num key tokens menu df)
      fun df' => Settles "Menu" key tokens num o df df' := by
  unfold menuItem
  split_ifs with hgroup hsep
  · exact settles_strTok (fun _ => rfl) (fun _ => rfl) ho (by simp)
  · refine Exec.ends_pure (.of_eq rfl rfl ho (by simp) ?_)
    rintro rfl
    exact nomatch hsep
  · refine (menuEntry_returns num tokens df).lift.bind ?_
    rintro ⟨e, df'⟩ ⟨ha, hwarn, hnil⟩
    cases e with
    | none =>
      exact Exec.ends_pure ⟨by rw [Opened.after_dialog (by simp), ← ho, IniDef.lastDialog,
        ha.dialogs, IniDef.lastDialog], ha.warnings, fun _ _ => hwarn rfl⟩
    | some entry =>
      refine Exec.ends_pure (.of_warned ?_ ?_ ho (by simp) fun h => nomatch hnil h)
      · exact (addEntry_dialogs ..).trans ha.dialogs
      · exact ha.warnings.trans (addEntry_warnings ..)

theorem menuLine_ends : SettlingEntry "Menu" (menuLine (F := F)) := by
  intro num key tokens df o ho _
  unfold menuLine
  split_ifs with hdialog
  · exact Exec.ends_pure (.of_eq rfl rfl ho (by simp) fun _ => by simp [optional, hdialog])
  · exact settles_strTok (fun _ => rfl) (fun _ => rfl) ho (by simp)
  · split
    · exact Exec.ends_pure (.warn _ ho (by simp))
    · exact menuItem_ends ho _
  · exact Exec.ends_pure (.warn _ ho (by simp))

omit [F64 F] in
/-- Where there is a dialog, there is one after a dialog is set. -/
theorem lastDialog_setDialog (df : IniDef F) (dialog : DialogDef F) :
    (df.setDialog dialog).lastDialog.isSome = true := by
  have hne : (df.setDialog dialog).dialogs.entries ≠ [] := IndexMap.insertEntries_ne_nil _ _ _
  rw [IniDef.lastDialog, Option.isSome_map, List.getLast?_eq_getLast_of_ne_nil hne]
  rfl

theorem fieldItem_returns (item) (num : ℕ) (hne : tokens ≠ []) (df : IniDef F) :
    Exec.Returns (fieldItem item num tokens df) fun r => df.Adds r.2 := by
  refine (tokensFrom_returns (List.length_pos_iff.mpr hne)).bind fun rest _ => ?_
  exact (conditions_returns num rest df).bind fun r h => Exec.returns_pure h

theorem panelItem_returns (num : ℕ) (tokens : List Token) (df : IniDef F) :
    Exec.Returns (panelItem num tokens df) fun r =>
      df.Adds r.2 ∧ (r.1 = none → r.2.WarnsAt num) ∧ (tokens = [] → r.1 = none) := by
  unfold panelItem
  split
  · exact Exec.returns_pure ⟨df.adds_warn _ _, fun _ => df.warnsAt_warn _ _, fun _ => rfl⟩
  · next target htarget =>
    have hne : tokens ≠ [] := by rintro rfl; exact nomatch htarget
    refine (tokensFrom_returns (List.length_pos_iff.mpr hne)).bind fun rest _ => ?_
    exact (firstCondition_returns num rest df).bind fun r h =>
      Exec.returns_pure ⟨h, nofun, fun h => absurd h hne⟩

omit [F64 F] in
theorem settles_setDialog {df' : IniDef F} (ha : df.Adds df') (dialog : DialogDef F)
    (ho : o.dialog = true) (hval : tokens = [] → optional "UserDefined" o key = true) :
    Settles "UserDefined" key tokens num o df (df'.setDialog dialog) where
  dialog := by
    rw [lastDialog_setDialog]
    unfold Opened.after
    split_ifs <;> simp [ho]
  warnings := ha.warnings
  reports := fun ht hopt => absurd (hval ht) (by simp [hopt])

theorem dialogLine_ends (hkey : key ∈ dialogKeys) (ho : o.dialog = true)
    (hdlg : df.lastDialog.isSome = o.dialog)
    (hidx : tokens = [] → indexes "UserDefined" o key = false) (dialog : DialogDef F) :
    Exec.Returns (dialogLine num key tokens dialog df)
      fun df' => Settles "UserDefined" key tokens num o df df' := by
  have hne (hin : indexes "UserDefined" o key = true) : tokens ≠ [] := fun ht =>
    absurd (hidx ht) (by simp [hin])
  unfold dialogLine
  split
  case h_1 | h_2 | h_3 =>
    have hne' := hne (by simp [indexes, ho])
    exact (fieldItem_returns _ num hne' df).bind fun r h =>
      Exec.returns_pure (settles_setDialog h _ ho fun h => absurd h hne')
  case h_4 =>
    refine (panelItem_returns num tokens df).bind ?_
    rintro ⟨i, df'⟩ ⟨ha, hwarn, hnil⟩
    cases i with
    | none =>
      exact Exec.returns_pure ⟨by rw [Opened.after_dialog (by simp), ← hdlg, IniDef.lastDialog,
        ha.dialogs, IniDef.lastDialog], ha.warnings, fun _ _ => hwarn rfl⟩
    | some item =>
      exact Exec.returns_pure (settles_setDialog ha _ ho fun h => nomatch hnil h)
  case h_5 h1 h2 h3 h4 =>
    refine Exec.returns_pure (settles_setDialog (.refl df) _ ho fun _ => ?_)
    have htopic : key = "topicHelp" := by
      simp only [dialogKeys, List.mem_cons, List.not_mem_nil, or_false] at hkey
      rcases hkey with h | h | h | h | h
      exacts [absurd h h1, absurd h h2, absurd h h3, absurd h h4, h]
    simp [optional, ho, htopic]

theorem userDefinedLine_ends : SettlingEntry "UserDefined" (userDefinedLine (F := F)) := by
  intro num key tokens df o ho hidx
  unfold userDefinedLine
  split_ifs with hdialog hkey hvisual
  · refine (ends_strTok tokens 0 num).bind fun name hne => Exec.ends_pure ?_
    refine ⟨?_, List.prefix_rfl, fun h => absurd h hne⟩
    rw [lastDialog_setDialog, hdialog]
    simp [Opened.after]
  · split
    · exact Exec.ends_pure (.warn _ ho (by simp [hdialog]))
    · next dialog hlast =>
      have ho' : o.dialog = true := by rw [← ho, hlast]; rfl
      exact (dialogLine_ends hkey ho' ho hidx dialog).lift
  · exact Exec.ends_pure (.of_eq rfl rfl ho (by simp [hdialog]) fun _ => by simp [optional, hvisual])
  · exact Exec.ends_pure (.warn _ ho (by simp [hdialog]))

/-! ### Reference tables -/

theorem ends_calibrationNumber (num : ℕ) (tokens : List Token) :
    Exec.Ends (liftParse (calibrationNumber F num tokens)) fun _ => tokens ≠ [] := by
  refine ends_liftParse fun a ha => ?_
  rintro rfl
  exact nomatch ha

theorem ends_solutionOf (num : ℕ) (tokens : List Token) :
    Exec.Ends (solutionOf num tokens : Parse (Option (String × Expr F))) fun _ => True := by
  unfold solutionOf
  split
  · split_ifs
    · exact Exec.ends_pure trivial
    · refine (ends_strTok tokens 0 num).bind fun _ _ => ?_
      exact (parseExpr_returns _ _).bind fun _ _ => Exec.ends_pure trivial
  · exact Exec.ends_pure trivial

theorem calibrationKey_ends {cal : AfrCalibration F}
    (hkey : key ∉ ["tableWriteCommand", "tableBlockingFactor", "referenceTable"]) :
    Exec.Ends (calibrationKey num key tokens cal)
      fun _ => tokens = [] → optional "ReferenceTables" o key = true := by
  unfold calibrationKey
  split
  case h_1 | h_2 | h_3 | h_4 =>
    exact (ends_calibrationNumber _ _).bind fun _ h => Exec.ends_pure fun h' => absurd h' h
  case h_5 =>
    exact (ends_solutionOf _ _).bind fun _ _ => Exec.ends_pure fun _ => by simp [optional]
  case h_6 => exact Exec.ends_pure fun _ => by simp_all [optional]

theorem referenceTablesEntry_ends :
    Settling "ReferenceTables" (fun s o => s.active = o.lambda)
      (referenceTablesEntry (F := F)) := by
  intro num key tokens s df o hR ho _
  unfold referenceTablesEntry
  split
  · refine (ends_strTok tokens 0 num).bind fun _ hne => Exec.ends_pure ⟨?_, ?_⟩
    · simp [Opened.after, hR]
    · exact .of_eq rfl rfl ho (by simp) fun h => absurd h hne
  · refine (ends_calibrationNumber _ _).bind fun _ hne => Exec.ends_pure ⟨?_, ?_⟩
    · simp [Opened.after, hR]
    · exact .of_eq rfl rfl ho (by simp) fun h => absurd h hne
  · refine Exec.Ends.bind (P := fun name => tokens ≠ [] ∧ name = strTokOr tokens 0) ?_
      fun name hname => Exec.ends_pure ⟨?_, ?_⟩
    · refine ends_liftParse fun a ha => ?_
      cases tokens with
      | nil => exact nomatch ha
      | cons t tokens => exact ⟨nofun, (Except.ok.inj ha).symm⟩
    · simp [Opened.after, hname.2]
    · exact .of_eq rfl rfl ho (by simp) fun h => absurd h hname.1
  · next h1 h2 h3 =>
    have hkey : key ∉ ["tableWriteCommand", "tableBlockingFactor", "referenceTable"] := by
      simp only [List.mem_cons, List.not_mem_nil, or_false, not_or]
      exact ⟨h1, h2, h3⟩
    have hafter : (o.after "ReferenceTables" key tokens).lambda = o.lambda := by
      simp [Opened.after, show key ≠ "referenceTable" from h3]
    split_ifs with hactive
    · exact (calibrationKey_ends hkey).bind fun _ hval =>
        Exec.ends_pure ⟨hR.trans hafter.symm, .of_eq rfl rfl ho (by simp) hval⟩
    · refine Exec.ends_pure ⟨hR.trans hafter.symm, .of_eq rfl rfl ho (by simp) fun _ => ?_⟩
      have hno : o.lambda = false := by rw [← hR]; simpa using hactive
      simp only [optional, hno, Bool.false_and, Bool.not_false, Bool.and_true]
      simpa using hkey

end Sections

/-! ## A whole source -/

section Source

variable {sec : String} {o : Opened} {lines : List Line} {df : IniDef F}

theorem sec_of_mem_sectionLines {x : SourceLine} (hx : x ∈ sectionLines sec o lines) :
    x.sec = sec := by
  induction lines generalizing o with
  | nil => exact nomatch hx
  | cons line lines ih =>
    rcases List.mem_cons.mp hx with rfl | hx
    · rfl
    · exact ih hx

theorem Opened.leave_dialog (hsec : sec ≠ "UserDefined") (o : Opened) (lines : List Line) :
    (o.leave sec lines).dialog = o.dialog := by
  induction lines generalizing o with
  | nil => rfl
  | cons line lines ih =>
    rw [Opened.leave, List.foldl_cons]
    refine (ih (o.afterLine sec line)).trans ?_
    unfold Opened.afterLine
    split
    · exact Opened.after_dialog fun h => hsec h.1
    · rfl

/-- What is done after the last line changes neither dialogs nor warnings. -/
theorem Reported.finish {xs : List SourceLine} {df' df'' : IniDef F} (h : Reported xs o df df')
    (hd : df''.dialogs = df'.dialogs) (hw : df''.warnings = df'.warnings) :
    Reported xs o df df'' where
  dialog := by rw [IniDef.lastDialog, hd, ← h.dialog, IniDef.lastDialog]
  warnings := hw ▸ h.warnings
  reports := fun x hx key hkey hopt hsec => (h.reports x hx key hkey hopt hsec).mono
    (hw ▸ List.prefix_rfl)

variable [F64 F]

theorem parseSection_ends (name : String) (ho : df.lastDialog.isSome = o.enter.dialog)
    (hidx : Indexable (sectionLines name o.enter lines)) :
    Exec.Ends (parseSection name lines df) fun df' =>
      Reported (sectionLines name o.enter lines) (o.enter.leave name lines) df df' := by
  unfold parseSection
  split
  · exact megatuneEntry_ends.eachEntry lines ho hidx
  · exact settingGroupsEntry_ends.eachEntry lines ho hidx
  · exact pcVariablesEntry_ends.eachEntry lines ho hidx
  · exact (constantsEntry_ends.eachLine lines trivial ho hidx).bind fun r hr =>
      Exec.ends_pure hr.2
  · exact constantsExtensionsEntry_ends.eachEntry lines ho hidx
  · exact outputChannelsEntry_ends.eachEntry lines ho hidx
  · refine (tableEditorEntry_ends.eachLine lines rfl ho hidx).bind fun ⟨current, df'⟩ hr =>
      Exec.ends_pure (hr.2.finish ?_ ?_) <;> cases current <;> rfl
  · refine (curveEditorEntry_ends.eachLine lines rfl ho hidx).bind fun ⟨current, df'⟩ hr =>
      Exec.ends_pure (hr.2.finish ?_ ?_) <;> cases current <;> rfl
  · exact (gaugeConfigurationsEntry_ends.eachLine lines trivial ho hidx).bind fun r hr =>
      Exec.ends_pure hr.2
  · exact (frontPageEntry_ends.eachLine lines trivial ho hidx).bind fun r hr =>
      Exec.ends_pure (hr.2.finish rfl rfl)
  · exact datalogEntry_ends.eachEntry lines ho hidx
  · exact menuLine_ends.eachEntry lines ho hidx
  · exact userDefinedLine_ends.eachEntry lines ho hidx
  · refine (referenceTablesEntry_ends.eachLine lines rfl ho hidx).bind fun ⟨s, df'⟩ hr =>
      Exec.ends_pure (hr.2.finish ?_ ?_) <;> split_ifs <;> rfl
  · next hnone =>
    have hparsed : name ∉ parsedSections := by
      simp_all [parsedSections]
    refine Exec.ends_pure ⟨?_, List.prefix_rfl, fun x hx _ _ _ hsec => ?_⟩
    · rw [Opened.leave_dialog (fun h => hparsed (by rw [h]; decide)), ho]
    · exact absurd (sec_of_mem_sectionLines hx ▸ hsec) hparsed

/-- The sections in turn, by induction on them. -/
theorem parseGroups_ends (groups : List (String × List Line))
    (ho : df.lastDialog.isSome = o.dialog) (hidx : Indexable (allLines o groups)) :
    Exec.Ends (parseGroups groups df) fun df' =>
      df.warnings <+: df'.warnings ∧ ∀ x ∈ allLines o groups, ∀ key, x.line.bareKey = some key →
        optional x.sec x.opened key = false → x.sec ∈ parsedSections → df'.WarnsAt x.line.num := by
  induction groups generalizing df o with
  | nil => exact Exec.ends_pure ⟨List.prefix_rfl, nofun⟩
  | cons group groups ih =>
    obtain ⟨name, lines⟩ := group
    unfold parseGroups
    refine (parseSection_ends name ho fun x hx => hidx x (List.mem_append_left _ hx)).bind
      fun df1 hrep => ?_
    refine (ih hrep.dialog fun x hx => hidx x (List.mem_append_right _ hx)).mono
      fun df2 ⟨hw, hreports⟩ => ?_
    refine ⟨hrep.warnings.trans hw, fun x hx key hkey hopt hsec => ?_⟩
    rcases List.mem_append.mp hx with hx | hx
    · exact (hrep.reports x hx key hkey hopt hsec).mono hw
    · exact hreports x hx key hkey hopt hsec

/-- **A source parses to a definition or an error as long as no key that indexes lacks its value, and
every other key without a value is reported, unless it may be without.** -/
theorem parseWithSymbols_reports (symbols : List (List Char)) (src : List Char)
    (hidx : Indexable (sourceLines symbols src)) :
    Exec.Ends (parseWithSymbols symbols src : Parse (IniDef F)) fun df =>
      ∀ x ∈ sourceLines symbols src, ∀ key, x.line.bareKey = some key → x.sec ∈ parsedSections →
        optional x.sec x.opened key = false → df.WarnsAt x.line.num := by
  unfold parseWithSymbols
  refine (ends_liftParse (P := fun lines => preprocess symbols src = .ok lines) fun _ h => h).bind
    fun lines hpre => ?_
  have hlines : sourceLines symbols src = allLines {} (groupLines lines) := by
    rw [sourceLines, hpre]
  rw [hlines] at hidx ⊢
  have hstart : ({} : IniDef F).lastDialog.isSome = ({} : Opened).dialog := rfl
  exact (parseGroups_ends (groupLines lines) hstart hidx).mono
    fun df h x hx key hkey hsec hopt => h.2 x hx key hkey hopt hsec

end Source

/-! ## Sources of one line -/

/-- A source with one line in one section. -/
def oneLine (sec line : String) : List Char := ("[" ++ sec ++ "]\n" ++ line).toList

theorem sourceLines_idle :
    sourceLines [] (oneLine "PcVariables" "idle =") = [⟨"PcVariables", {}, ⟨2, "idle =".toList⟩⟩] := by
  decide +kernel

theorem parseWithSymbols_reports_idle :
    Exec.Ends (parseWithSymbols [] (oneLine "PcVariables" "idle =") : Parse (IniDef XRat)) fun df =>
      ∀ x ∈ sourceLines [] (oneLine "PcVariables" "idle ="), ∀ key, x.line.bareKey = some key →
        x.sec ∈ parsedSections → optional x.sec x.opened key = false → df.WarnsAt x.line.num :=
  parseWithSymbols_reports [] (oneLine "PcVariables" "idle =") fun x hx key _ => by
    rw [sourceLines_idle] at hx
    obtain rfl := List.mem_singleton.mp hx
    rfl

theorem sourceLines_pageSize :
    sourceLines [] (oneLine "Constants" "pageSize =") = [⟨"Constants", {}, ⟨2, "pageSize =".toList⟩⟩] := by
  decide +kernel

/-- A number of pages that is left out aborts the parser; sizes of pages that are left out are taken
for a list of none. -/
theorem valueless_not_reported :
    (¬ ∀ (symbols : List (List Char)) (src : List Char),
      ∃ r, (parseWithSymbols symbols src : Parse (IniDef XRat)).run = .ok r) ∧
    ¬ ∀ (symbols : List (List Char)) (src : List Char) (df : IniDef XRat),
      (parseWithSymbols symbols src : Parse (IniDef XRat)).run = .ok (.ok df) →
        ∀ x ∈ sourceLines symbols src, ∀ key, x.line.bareKey = some key → x.sec ∈ parsedSections →
          df.WarnsAt x.line.num := by
  constructor
  · intro h
    obtain ⟨r, hr⟩ := h [] (oneLine "Constants" "nPages =")
    have habort : (parseWithSymbols [] (oneLine "Constants" "nPages =") :
        Parse (IniDef XRat)).run.isOk = false := by decide +kernel
    rw [hr] at habort
    exact nomatch habort
  · intro h
    obtain ⟨df, hdf, hw⟩ : ∃ df : IniDef XRat,
        (parseWithSymbols [] (oneLine "Constants" "pageSize =")).run = .ok (.ok df) ∧
          df.warnings = [] := exists_parsed (by decide +kernel)
    obtain ⟨msg, hmsg⟩ := h [] (oneLine "Constants" "pageSize =") df hdf
      ⟨"Constants", {}, ⟨2, "pageSize =".toList⟩⟩ (by rw [sourceLines_pageSize]; decide) "pageSize"
      (by decide +kernel) (by decide)
    rw [hw] at hmsg
    exact nomatch hmsg

end RustyTune.TsIni
