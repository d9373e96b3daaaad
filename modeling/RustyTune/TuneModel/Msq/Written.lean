import RustyTune.TuneModel.FieldIndex
import RustyTune.TuneModel.Msq.Partition
import RustyTune.TuneModel.Msq.Reread
import RustyTune.TuneModel.Views

/-!
# What a saved file has of a constant

* `Written`: the line that a file has of a constant, on its page.
* `lineOf_scalar`, `lineOf_bits`, `lineOf_array`, `lineOf_string`: what stands on the page for a line.
* **`parse_save`**: what is read of a saved file; `mem_constants_savedFile`: its constants are those that are
  written.
-/

namespace RustyTune.TuneModel.Msq

open TsIni Exec XRat

open Text (Recoding)

open Xml (Reader)

variable {m : Machine} {t : Tune XRat} {name : String} {c : ConstantDef XRat} {line : Line XRat}
  {r : Recoding}

/-- The file that is saved has this line of the constant. -/
def Written (m : Machine) (t : Tune XRat) (name : String) (c : ConstantDef XRat) (line : Line XRat) :
    Prop :=
  t.constant name = some c ∧
    ∃ pageIdx < t.pageCount, ∃ lines, pageLines m t pageIdx = .ok lines ∧ (name, line) ∈ lines

def userOf (scale translate : XRat) (raw : ℤ) : XRat :=
  F64.mul (F64.add (F64.ofInt raw) translate) scale

/-! ## Pages -/

theorem saveConstant_ok {s s' : List (String × Line XRat) × List (UInt32 × UInt32)}
    {entry : String × ConstantDef XRat} (h : saveConstant m t s entry = .ok s') :
    ∀ e ∈ s'.1, e ∈ s.1 ∨ e.1 = entry.1 ∧ lineOf m t entry.1 entry.2 = .ok (some e.2) := by
  intro e he
  rw [saveConstant, bind_eq_ok] at h
  obtain ⟨owned, -, h⟩ := h
  cases owned with
  | none =>
    rw [← pure_eq_ok.mp h] at he
    exact .inl he
  | some owned =>
    obtain ⟨line, hline, h⟩ := bind_eq_ok.mp h
    cases line with
    | none =>
      rw [← pure_eq_ok.mp h] at he
      exact .inl he
    | some line =>
      rw [← pure_eq_ok.mp h] at he
      rcases List.mem_append.mp he with he | he
      · exact .inl he
      · rw [List.mem_singleton.mp he]
        exact .inr ⟨rfl, hline⟩

theorem saveConstants_ok {entries : List (String × ConstantDef XRat)}
    {s s' : List (String × Line XRat) × List (UInt32 × UInt32)}
    (h : entries.foldlM (saveConstant m t) s = .ok s') :
    ∀ e ∈ s'.1, e ∈ s.1 ∨ ∃ c, (e.1, c) ∈ entries ∧ lineOf m t e.1 c = .ok (some e.2) := by
  induction entries generalizing s with
  | nil =>
    rw [List.foldlM_nil, pure_eq_ok] at h
    exact fun e he => .inl (h ▸ he)
  | cons entry entries ih =>
    rw [List.foldlM_cons, bind_eq_ok] at h
    obtain ⟨s₁, hstep, h⟩ := h
    intro e he
    rcases ih h e he with he | ⟨c, hc, hline⟩
    · rcases saveConstant_ok hstep e he with he | ⟨hname, hline⟩
      · exact .inl he
      · refine .inr ⟨entry.2, ?_, hname ▸ hline⟩
        rw [hname]
        exact List.mem_cons_self
    · exact .inr ⟨c, List.mem_cons_of_mem entry hc, hline⟩

/-- A line of a page is the line of its constant. -/
theorem mem_pageLines {pageIdx : ℕ} {lines : List (String × Line XRat)}
    (h : pageLines m t pageIdx = .ok lines) {e : String × Line XRat} (he : e ∈ lines) :
    ∃ c, t.constant e.1 = some c ∧ lineOf m t e.1 c = .ok (some e.2) := by
  rw [pageLines, bind_eq_ok] at h
  obtain ⟨s, hs, h⟩ := h
  rw [← pure_eq_ok.mp h] at he
  rcases saveConstants_ok hs e he with hno | ⟨c, hc, hline⟩
  · exact absurd hno List.not_mem_nil
  · exact ⟨c, IndexMap.get?_eq_some.mpr (List.mem_filter.mp hc).1, hline⟩

theorem Written.lineOf (h : Written m t name c line) : lineOf m t name c = .ok (some line) := by
  obtain ⟨hc, pageIdx, -, lines, hlines, hmem⟩ := h
  obtain ⟨c', hc', hline⟩ := mem_pageLines hlines hmem
  obtain rfl := Option.some.inj (hc.symm.trans hc')
  exact hline

theorem forall₂_mem {α β : Type} {R : α → β → Prop} {l : List α} {l' : List β}
    (h : List.Forall₂ R l l') : (∀ a ∈ l, ∃ b ∈ l', R a b) ∧ ∀ b ∈ l', ∃ a ∈ l, R a b := by
  induction h with
  | nil => simp
  | @cons a b l l' hab _ ih =>
    refine ⟨List.forall_mem_cons.mpr ⟨⟨b, List.mem_cons_self, hab⟩, fun x hx => ?_⟩,
      List.forall_mem_cons.mpr ⟨⟨a, List.mem_cons_self, hab⟩, fun y hy => ?_⟩⟩
    · obtain ⟨y, hy, hxy⟩ := ih.1 x hx
      exact ⟨y, List.mem_cons_of_mem b hy, hxy⟩
    · obtain ⟨x, hx, hxy⟩ := ih.2 y hy
      exact ⟨x, List.mem_cons_of_mem a hx, hxy⟩

theorem mem_flatten_pages {pages : List (List (String × Line XRat))}
    (h : (List.range t.pageCount).mapM (pageLines m t) = .ok pages) :
    (name, line) ∈ pages.flatten ↔ ∃ c, Written m t name c line := by
  obtain ⟨hleft, hright⟩ := forall₂_mem (except_mapM_eq_ok.mp h)
  rw [List.mem_flatten]
  constructor
  · rintro ⟨lines, hlines, hmem⟩
    obtain ⟨pageIdx, hpageIdx, hpage⟩ := hright lines hlines
    obtain ⟨c, hc, -⟩ := mem_pageLines hpage hmem
    exact ⟨c, hc, pageIdx, List.mem_range.mp hpageIdx, lines, hpage, hmem⟩
  · rintro ⟨c, hc, pageIdx, hpageIdx, lines, hlines, hmem⟩
    obtain ⟨lines', hmem', hpage⟩ := hleft pageIdx (List.mem_range.mpr hpageIdx)
    obtain rfl := Except.ok.inj (hlines.symm.trans hpage)
    exact ⟨lines, hmem', hmem⟩

/-! ## The file -/

theorem variableLine_ok {entry : String × ConstantDef XRat} {e : String × Line XRat}
    (h : variableLine m t entry = .ok (some e)) : e.1 = entry.1 := by
  rw [variableLine] at h
  split_ifs at h
  · cases h
  split at h
  · obtain ⟨digits, -, h⟩ := bind_eq_ok.mp h
    obtain ⟨units, -, h⟩ := bind_eq_ok.mp h
    rw [← Option.some.inj (pure_eq_ok.mp h)]
  · rw [← Option.some.inj (pure_eq_ok.mp h)]
  · cases h

/-- The file that is saved has this line of the variable. -/
def WrittenVariable (m : Machine) (t : Tune XRat) (name : String) (line : Line XRat) : Prop :=
  ∃ c, t.df.pcVariables.get? name = some c ∧ variableLine m t (name, c) = .ok (some (name, line))

theorem mem_variableLines {vars : List (String × Line XRat)} (h : variableLines m t = .ok vars) :
    (name, line) ∈ vars ↔ WrittenVariable m t name line := by
  rw [variableLines, bind_eq_ok] at h
  obtain ⟨lines, hlines, h⟩ := h
  obtain ⟨hleft, hright⟩ := forall₂_mem (except_mapM_eq_ok.mp hlines)
  rw [← pure_eq_ok.mp h, List.mem_filterMap]
  constructor
  · rintro ⟨o, ho, heq⟩
    obtain rfl : o = some (name, line) := heq
    obtain ⟨entry, hentry, hline⟩ := hright _ ho
    obtain rfl := variableLine_ok hline
    exact ⟨entry.2, IndexMap.get?_eq_some.mpr hentry, hline⟩
  · rintro ⟨c, hc, hline⟩
    obtain ⟨o, ho, hline'⟩ := hleft _ (IndexMap.get?_eq_some.mp hc)
    rw [Except.ok.inj (hline'.symm.trans hline)] at ho
    exact ⟨_, ho, rfl⟩

/-- Names that an XML text has as they are. -/
structure PlainNames (t : Tune XRat) : Prop where
  constants : ∀ name c, t.constant name = some c → Xml.escape name.toList = name.toList
  pcVariables : ∀ name c, t.df.pcVariables.get? name = some c → Xml.escape name.toList = name.toList

/-- **What is read of a saved file**, whatever becomes of the characters that are not ASCII. -/
theorem parse_save (reader : Reader) (r : Recoding) {symbols : List String}
    {author writeDate text : String} (hnames : PlainNames t)
    (hsave : save m t symbols author writeDate = .ok text) : ∃ vars pages,
      variableLines m t = .ok vars ∧ (List.range t.pageCount).mapM (pageLines m t) = .ok pages ∧
        MsqFile.parse reader (r.apply text.toList) =
          .ok (savedFile r t symbols author writeDate vars pages) := by
  obtain ⟨vars, pages, hvars, hpages, rfl⟩ := save_eq_ok.mp hsave
  refine ⟨vars, pages, hvars, hpages, ?_⟩
  rw [render_document (fun e he => ?_) fun page hpage e he => ?_]
  · exact parse_document reader r t symbols author writeDate vars pages
  · obtain ⟨c, hc, -⟩ : WrittenVariable m t e.1 e.2 := (mem_variableLines hvars).mp he
    exact hnames.pcVariables e.1 c hc
  · obtain ⟨c, hc, -⟩ : ∃ c, Written m t e.1 c e.2 :=
      (mem_flatten_pages hpages).mp (List.mem_flatten.mpr ⟨page, hpage, he⟩)
    exact hnames.constants e.1 c hc

/-- The constants of the file are those that are written, under names as they are recoded. -/
theorem mem_constants_recoded {r : Recoding} {symbols : List String} {author writeDate : String}
    {vars : List (String × Line XRat)} {pages : List (List (String × Line XRat))}
    (hinj : ∀ name name' c c', t.constant name = some c → t.constant name' = some c' →
      r.string name = r.string name' → name = name')
    (h : (List.range t.pageCount).mapM (pageLines m t) = .ok pages) {value : MsqValue XRat} :
    (name, value) ∈ (savedFile r t symbols author writeDate vars pages).constants.entries ↔
      ∃ name' c line, Written m t name' c line ∧ name = r.string name' ∧ value = line.value r := by
  have hmem : ∀ name value, (name, value) ∈ pages.flatten.map (readLine r) ↔
      ∃ name' c line, Written m t name' c line ∧ name = r.string name' ∧ value = line.value r := by
    intro name value
    rw [List.mem_map]
    constructor
    · rintro ⟨⟨name', line⟩, hline, heq⟩
      obtain ⟨c, hc⟩ := (mem_flatten_pages h).mp hline
      obtain ⟨rfl, rfl⟩ := Prod.mk.inj heq
      exact ⟨name', c, line, hc, rfl, rfl⟩
    · rintro ⟨name', c, line, hc, rfl, rfl⟩
      exact ⟨(name', line), (mem_flatten_pages h).mpr ⟨c, hc⟩, rfl⟩
  refine (IndexMap.mem_entries_ofList fun k v v' hv hv' => ?_).trans (hmem name value)
  obtain ⟨name₁, c, line, hc, rfl, rfl⟩ := (hmem k v).mp hv
  obtain ⟨name₂, c', line', hc', hname, rfl⟩ := (hmem _ v').mp hv'
  obtain rfl := hinj name₁ name₂ c c' hc.1 hc'.1 hname
  obtain rfl := Option.some.inj (hc.1.symm.trans hc'.1)
  rw [Option.some.inj (Except.ok.inj (hc.lineOf.symm.trans hc'.lineOf))]

/-- The constants of the file are those that are written, where names stay as they are. -/
theorem mem_constants_savedFile {r : Recoding} {symbols : List String} {author writeDate : String}
    {vars : List (String × Line XRat)} {pages : List (List (String × Line XRat))}
    (hnames : ∀ name c, t.constant name = some c → r.string name = name)
    (h : (List.range t.pageCount).mapM (pageLines m t) = .ok pages) {value : MsqValue XRat} :
    (name, value) ∈ (savedFile r t symbols author writeDate vars pages).constants.entries ↔
      ∃ c line, Written m t name c line ∧ value = line.value r := by
  rw [mem_constants_recoded (fun name name' c c' hc hc' heq => ?_) h]
  · constructor
    · rintro ⟨name', c, line, hc, rfl, rfl⟩
      rw [hnames name' c hc.1]
      exact ⟨c, line, hc, rfl⟩
    · rintro ⟨c, line, hc, rfl⟩
      exact ⟨name, c, line, hc, (hnames name c hc.1).symm, rfl⟩
  · rwa [hnames name c hc, hnames name' c' hc'] at heq

theorem mem_pcVariables_savedFile {r : Recoding} {symbols : List String} {author writeDate : String}
    {vars : List (String × Line XRat)} {pages : List (List (String × Line XRat))}
    (hnames : ∀ name c, t.df.pcVariables.get? name = some c → r.string name = name)
    (h : variableLines m t = .ok vars) {value : MsqValue XRat} :
    (name, value) ∈ (savedFile r t symbols author writeDate vars pages).pcVariables.entries ↔
      ∃ line, WrittenVariable m t name line ∧ value = line.value r := by
  have hmem : ∀ name value, (name, value) ∈ vars.map (readLine r) ↔
      ∃ line, WrittenVariable m t name line ∧ value = line.value r := by
    intro name value
    rw [List.mem_map]
    constructor
    · rintro ⟨⟨name', line⟩, hline, heq⟩
      have hwritten := (mem_variableLines h).mp hline
      have ⟨c, hc, _⟩ := hwritten
      obtain ⟨rfl, rfl⟩ := Prod.mk.inj heq
      dsimp only
      rw [hnames name' c hc]
      exact ⟨line, hwritten, rfl⟩
    · rintro ⟨line, hwritten, rfl⟩
      refine ⟨(name, line), (mem_variableLines h).mpr hwritten, ?_⟩
      have ⟨c, hc, _⟩ := hwritten
      rw [readLine, hnames name c hc]
  refine (IndexMap.mem_entries_ofList fun k v v' hv hv' => ?_).trans (hmem name value)
  obtain ⟨line, ⟨c, hc, hline⟩, rfl⟩ := (hmem k v).mp hv
  obtain ⟨line', ⟨c', hc', hline'⟩, rfl⟩ := (hmem k v').mp hv'
  obtain rfl := Option.some.inj (hc.symm.trans hc')
  have heq := Option.some.inj (Except.ok.inj (hline.symm.trans hline'))
  rw [(Prod.mk.inj heq).2]

/-- **A saved file has its head, its settings, and the values of what is written**, and nothing else. -/
theorem saved_readsBack (reader : Reader) (r : Recoding) (m : Machine) (t : Tune XRat)
    (symbols : List String) (author writeDate text : String) (hnames : PlainNames t)
    (hconstants : ∀ name c, t.constant name = some c → Text.IsAscii name.toList)
    (hvariables : ∀ name c, t.df.pcVariables.get? name = some c → Text.IsAscii name.toList)
    (hsave : save m t symbols author writeDate = .ok text) :
    ∃ file, MsqFile.parse reader (r.apply text.toList) = .ok file ∧
      file.signature = some (r.string t.df.signature) ∧
      file.firmwareInfo = some (r.string (replaceChar ' ' "+" t.df.signature)) ∧
      file.author = some (r.string author) ∧ file.writeDate = some (r.string writeDate) ∧
      file.settings = symbols.map r.string ∧
      (∀ name value, (name, value) ∈ file.constants.entries ↔
        ∃ c line, Written m t name c line ∧ value = line.value r) ∧
      ∀ name value, (name, value) ∈ file.pcVariables.entries ↔
        ∃ line, WrittenVariable m t name line ∧ value = line.value r := by
  obtain ⟨vars, pages, hvars, hpages, hparse⟩ := parse_save reader r hnames hsave
  refine ⟨_, hparse, rfl, rfl, rfl, rfl, rfl, fun name value => ?_, fun name value => ?_⟩
  · exact mem_constants_savedFile (fun name c hc => r.string_of_isAscii (hconstants name c hc)) hpages
  · exact mem_pcVariables_savedFile (fun name c hc => r.string_of_isAscii (hvariables name c hc)) hvars

/-! ## A constant of each class -/

def garageConstants : List (ConstantDef XRat) :=
  [plainConstant "reqFuel" .scalar .u16 0 none (.num (fin (1 / 10))),
    plainConstant "advance" .array .u08 2 (some (.array1D 2)) (.num (fin (1 / 2))),
    { plainConstant "fanMode" .bits .u08 4 (some (.bits 0 1)) (.num 1) with
      labels := ["Off", "On/Off", "PWM"] },
    { plainConstant "engine" .string .u08 5 none (.num 1) with stringLen := some 3 }]

def garageVariables : List (ConstantDef XRat) :=
  [plainConstant "wueCold" .scalar .u08 0 none (.num 1),
    { plainConstant "algorithm" .bits .u08 0 (some (.bits 0 0)) (.num 1) with
      labels := ["MAP", "TPS"] }]

/-- A tune with a constant of each class and two variables. -/
def garage (bytes : List UInt8) : Tune XRat :=
  let t := plainTune garageConstants [bytes]
  { t with
    df := { t.df with
      signature := "speeduino 202501"
      pcVariables := IndexMap.ofList (garageVariables.map fun c => (c.name, c)) }
    pcValues := IndexMap.ofList [("wueCold", fin (301 / 2)), ("algorithm", fin 1)] }

/-- `40.0`, `[10, 20]`, the second choice and a name. -/
def garageBytes : List UInt8 := [144, 1, 20, 40, 1, 86, 38, 56]

theorem garage_constant {bytes : List UInt8} {name : String} {c : ConstantDef XRat}
    (h : (garage bytes).constant name = some c) : (name, c) ∈ garageConstants.map fun c => (c.name, c) :=
  IndexMap.get?_eq_some.mp h

theorem garage_variable {bytes : List UInt8} {name : String} {c : ConstantDef XRat}
    (h : (garage bytes).df.pcVariables.get? name = some c) :
    (name, c) ∈ garageVariables.map fun c => (c.name, c) :=
  IndexMap.get?_eq_some.mp h

theorem garage_ascii {bytes : List UInt8} {name : String} {c : ConstantDef XRat}
    (h : (garage bytes).constant name = some c) : Text.IsAscii name.toList := by
  have hall : ∀ e ∈ garageConstants.map fun c => (c.name, c), Text.IsAscii e.1.toList := by decide
  exact hall _ (garage_constant h)

theorem garage_names (bytes : List UInt8) : PlainNames (garage bytes) := by
  have hconstants : ∀ e ∈ garageConstants.map fun c => (c.name, c),
      Xml.escape e.1.toList = e.1.toList := by decide
  have hvariables : ∀ e ∈ garageVariables.map fun c => (c.name, c),
      Xml.escape e.1.toList = e.1.toList := by decide
  exact ⟨fun name c h => hconstants _ (garage_constant h), fun name c h => hvariables _ (garage_variable h)⟩

theorem save_garage : ∃ text, save ⟨.debug, 8⟩ (garage garageBytes) ["LAMBDA"] "Ann & Bo" "today" =
    .ok text := by
  have hok : (save ⟨.debug, 8⟩ (garage garageBytes) ["LAMBDA"] "Ann & Bo" "today").isOk = true := by
    decide +kernel
  rcases hsave : save ⟨.debug, 8⟩ (garage garageBytes) ["LAMBDA"] "Ann & Bo" "today" with e | text
  · rw [hsave] at hok
    cases hok
  · exact ⟨text, rfl⟩

def garageLines : List (String × Line XRat) :=
  [("reqFuel", .scalar 0 none (fin 40)), ("advance", .array 1 2 0 none [fin 10, fin 20]),
    ("fanMode", .label "On/Off"), ("engine", .string "V&8")]

def garageVariableLines : List (String × Line XRat) :=
  [("wueCold", .scalar 0 none (fin (301 / 2))), ("algorithm", .label "TPS")]

theorem pageLines_garage : pageLines ⟨.debug, 8⟩ (garage garageBytes) 0 = .ok garageLines := by
  have h : (pageLines ⟨.debug, 8⟩ (garage garageBytes) 0).toOption = some garageLines := by
    decide +kernel
  rcases hlines : pageLines ⟨.debug, 8⟩ (garage garageBytes) 0 with e | lines
  · rw [hlines] at h
    cases h
  · rw [hlines] at h
    rw [Option.some.inj h]

theorem written_garage {e : String × Line XRat} (h : e ∈ garageLines) :
    ∃ c, Written ⟨.debug, 8⟩ (garage garageBytes) e.1 c e.2 := by
  obtain ⟨c, hc, -⟩ := mem_pageLines pageLines_garage h
  exact ⟨c, hc, 0, by decide, garageLines, pageLines_garage, h⟩

theorem variableLines_garage :
    variableLines ⟨.debug, 8⟩ (garage garageBytes) = .ok garageVariableLines := by
  have h : (variableLines ⟨.debug, 8⟩ (garage garageBytes)).toOption = some garageVariableLines := by
    decide +kernel
  rcases hlines : variableLines ⟨.debug, 8⟩ (garage garageBytes) with e | lines
  · rw [hlines] at h
    cases h
  · rw [hlines] at h
    rw [Option.some.inj h]

/-- Numbers, a label, a text and their variables are read back. -/
theorem saved_readsBack_garage : ∃ text file,
    save ⟨.debug, 8⟩ (garage garageBytes) ["LAMBDA"] "Ann & Bo" "today" = .ok text ∧
      MsqFile.parse Xml.scanner (Recoding.latin1.apply text.toList) = .ok file ∧
      file.signature = some "speeduino 202501" ∧ file.author = some "Ann & Bo" ∧
      file.settings = ["LAMBDA"] ∧
      (∀ e ∈ [("reqFuel", .num (fin 40)), ("advance", .array [fin 10, fin 20]),
        ("fanMode", .text "On/Off"), ("engine", .text "V&8")], e ∈ file.constants.entries) ∧
      ∀ e ∈ [("wueCold", .num (fin (301 / 2))), ("algorithm", .text "TPS")],
        e ∈ file.pcVariables.entries := by
  obtain ⟨text, hsave⟩ := save_garage
  have hvariables : ∀ name c, (garage garageBytes).df.pcVariables.get? name = some c →
      Text.IsAscii name.toList := by
    have hall : ∀ e ∈ garageVariables.map fun c => (c.name, c), Text.IsAscii e.1.toList := by decide
    exact fun name c h => hall _ (garage_variable h)
  obtain ⟨file, hparse, hsignature, -, hauthor, -, hsettings, hconstants, hpc⟩ :=
    saved_readsBack Xml.scanner .latin1 _ _ _ _ _ _ (garage_names _) (fun _ _ => garage_ascii)
      hvariables hsave
  refine ⟨text, file, hsave, hparse, hsignature.trans (by decide +kernel),
    hauthor.trans (by decide +kernel), hsettings.trans (by decide +kernel), fun e he => ?_, fun e he => ?_⟩
  · have hvalues : garageLines.map (fun e => (e.1, e.2.value .latin1)) =
        [("reqFuel", .num (fin 40)), ("advance", .array [fin 10, fin 20]),
          ("fanMode", .text "On/Off"), ("engine", .text "V&8")] := by decide +kernel
    rw [← hvalues] at he
    obtain ⟨line, hline, rfl⟩ := List.mem_map.mp he
    obtain ⟨c, hc⟩ := written_garage hline
    exact (hconstants _ _).mpr ⟨c, line.2, hc, rfl⟩
  · have hvalues : garageVariableLines.map (fun e => (e.1, e.2.value .latin1)) =
        [("wueCold", .num (fin (301 / 2))), ("algorithm", .text "TPS")] := by decide +kernel
    rw [← hvalues] at he
    obtain ⟨line, hline, rfl⟩ := List.mem_map.mp he
    exact (hpc _ _).mpr ⟨line.2, (mem_variableLines variableLines_garage).mp hline, rfl⟩

/-! ## Lines -/

/-- **The line of a scalar** is the value of what stands on the page. -/
theorem lineOf_scalar (hc : t.constant name = some c) (hcls : c.cls = .scalar)
    (h : lineOf m t name c = .ok (some line)) : ∃ p offset raw scale translate digits units,
      t.located c = some (p, offset) ∧ readRaw p.data offset c.ty = some raw ∧
        t.Coded m c scale translate ∧ line = .scalar digits units (userOf scale translate raw) := by
  simp only [lineOf, hcls, bind_eq_ok] at h
  obtain ⟨digits, -, units, -, value, hvalue, h⟩ := h
  split at h
  · next v =>
    simp only [Tune.constantValue, Tune.constantValueWith, hc] at hvalue
    rcases hl : t.located c with - | ⟨p, offset⟩
    · simp [hl] at hvalue
    · rcases hraw : readRaw p.data offset c.ty with - | raw
      · simp [hl, hcls, hraw] at hvalue
      · simp only [hl, hcls, hraw] at hvalue
        obtain ⟨o, hscaled, hnum⟩ := bind_eq_ok.mp hvalue
        obtain ⟨v', rfl, hv'⟩ := Option.map_eq_some_iff.mp (pure_eq_ok.mp hnum)
        obtain ⟨scale, translate, hcoded⟩ := Tune.coded_of_scaled hscaled
        have huser := Option.some.inj (Except.ok.inj ((hcoded.scaled raw).symm.trans hscaled))
        refine ⟨p, offset, raw, scale, translate, digits, units, rfl, hraw, hcoded, ?_⟩
        rw [← Option.some.inj (pure_eq_ok.mp h), userOf, huser, Value.num.inj hv']
  · cases h

/-- **The line of a choice** goes by the number that the field holds. -/
theorem lineOf_bits (hc : t.constant name = some c) (hcls : c.cls = .bits)
    (h : lineOf m t name c = .ok (some line)) : ∃ p offset raw lo hi v,
      t.located c = some (p, offset) ∧ readRaw p.data offset c.ty = some raw ∧
        c.shape = some (.bits lo hi) ∧ fieldValue m lo hi (BitVec.ofInt 64 raw) = .ok v ∧
        line = choiceLine c.labels (asUsize (F64.toI64 (F64.ofInt v.toNat : XRat)).toInt)
          (F64.toI64 (F64.ofInt v.toNat : XRat)).toInt := by
  simp only [lineOf, hcls, bind_eq_ok] at h
  obtain ⟨digits, -, units, -, value, hvalue, h⟩ := h
  split at h
  · next idx =>
    simp only [Tune.constantValue, Tune.constantValueWith, hc] at hvalue
    rcases hl : t.located c with - | ⟨p, offset⟩
    · simp [hl] at hvalue
    · rcases hraw : readRaw p.data offset c.ty with - | raw
      · simp [hl, hcls, hraw] at hvalue
      · rcases hshape : c.shape with - | ⟨lo, hi⟩ | n | ⟨x, y⟩
        · simp [hl, hcls, hraw, hshape] at hvalue
        · simp only [hl, hcls, hraw, hshape] at hvalue
          obtain ⟨v, hv, hnum⟩ := bind_eq_ok.mp hvalue
          refine ⟨p, offset, raw, lo, hi, v, rfl, hraw, rfl, hv, ?_⟩
          rw [← Option.some.inj (pure_eq_ok.mp h), Value.num.inj (Option.some.inj (pure_eq_ok.mp hnum))]
        · simp [hl, hcls, hraw, hshape] at hvalue
        · simp [hl, hcls, hraw, hshape] at hvalue
  · cases h

theorem lineOf_string (hcls : c.cls = .string) (h : lineOf m t name c = .ok (some line)) :
    ∃ text, t.constantValue m name = .ok (some (.str text)) ∧ line = .string text := by
  simp only [lineOf, hcls, bind_eq_ok] at h
  obtain ⟨digits, -, units, -, value, hvalue, h⟩ := h
  split at h
  · next text => exact ⟨text, hvalue, (Option.some.inj (pure_eq_ok.mp h)).symm⟩
  · cases h

/-- **The line of an array** has the values of its elements. -/
theorem lineOf_array (hc : t.constant name = some c) (hcls : c.cls = .array)
    (h : lineOf m t name c = .ok (some line)) : ∃ cols rows digits units values,
      line = .array cols rows digits units values ∧ values.length = c.elementCount ∧
        ∀ k v, values[k]? = some v → t.arrayElement m name k = .ok (some v) := by
  simp only [lineOf, hcls, bind_eq_ok] at h
  obtain ⟨digits, -, units, -, o, hvalues, h⟩ := h
  cases o with
  | none => cases h
  | some values =>
    obtain ⟨shape, hshape, hlen, hread⟩ := Tune.arrayValues_eq_some.mp hvalues
    rw [hc, Option.bind_some] at hshape
    have hcount : values.length = c.elementCount := by
      rw [hlen, ConstantDef.elementCount, hshape, Option.map_some, Option.getD_some]
    simp only [hshape] at h
    cases shape with
    | bits lo hi => cases h
    | array1D n =>
      exact ⟨1, n.toNat, digits, units, values, (Option.some.inj (pure_eq_ok.mp h)).symm, hcount, hread⟩
    | array2D x y =>
      exact ⟨x.toNat, y.toNat, digits, units, values, (Option.some.inj (pure_eq_ok.mp h)).symm, hcount,
        hread⟩

/-- An element that is read is the value of what stands on the page. -/
theorem arrayElement_coded {k : ℕ} {v : XRat} (hc : t.constant name = some c)
    (h : t.arrayElement m name k = .ok (some v)) : ∃ raw scale translate,
      t.arrayRaw name k = some raw ∧ t.Coded m c scale translate ∧ v = userOf scale translate raw := by
  obtain ⟨pageIdx, base, p, raw, -, -, hloc, hp, hraw, hscaled⟩ := Tune.arrayElement_place hc h
  obtain ⟨scale, translate, hcoded⟩ := Tune.coded_of_scaled hscaled
  refine ⟨raw, scale, translate, ?_, hcoded, ?_⟩
  · exact (arrayRaw_eq_some hc).mpr ⟨p, base, Tune.located_eq_some.mpr ⟨pageIdx, hloc, hp⟩, hraw⟩
  · exact Option.some.inj (Except.ok.inj (hscaled.symm.trans (hcoded.scaled raw)))

/-! ## Choices -/

/-- The fields of choices lie within their words. -/
def FieldsFit (t : Tune XRat) : Prop :=
  ∀ name c lo hi, t.constant name = some c → c.cls = .bits → c.shape = some (.bits lo hi) →
    lo.toNat ≤ hi.toNat ∧ hi.toNat < 8 * c.ty.size

section Fields

variable {lo hi : UInt8} {word v : BitVec 64}

/-- A field that lies within its word is read alike with and without a sign. -/
theorem fieldRaw_of_fieldValue (hle : lo.toNat ≤ hi.toNat) (hhi : hi.toNat < 32)
    (hv : fieldValue m lo hi word = .ok v) : fieldRaw m lo hi word = .ok v := by
  obtain ⟨width, hwidth, hw⟩ := fieldWidth_eq m hle (by omega)
  have hlt : width.toNat < 64 := by
    rw [hw, bitWidth]
    omega
  have hne : (1 : BitVec 64) <<< (width.toNat % 64) ≠ BitVec.intMin 64 := by
    rw [ne_eq, one_shiftLeft_eq_intMin_iff hlt, hw, bitWidth]
    omega
  have hones : onesI64 m lo hi = .ok ((1 : BitVec 64) <<< (width.toNat % 64) - 1) := by
    rw [onesI64, hwidth, ok_bind, Machine.shlI64, Machine.shlU64, decide_eq_true hlt, m.checked_true,
      ok_bind, Machine.predI64, decide_eq_true hne, m.checked_true]
  have hraw : fieldRaw m lo hi word =
      .ok (word.sshiftRight (lo.toNat % 64) &&& ((1 : BitVec 64) <<< (width.toNat % 64) - 1)) := by
    rw [fieldRaw, hones, ok_bind, Machine.shrI64, decide_eq_true (by omega), m.checked_true]
    rfl
  obtain ⟨ones, hones', -⟩ := fieldValue_ok hv
  obtain rfl := ones_eq hones' hones
  rw [hraw]
  refine congrArg Except.ok (BitVec.eq_of_getLsbD_eq fun i hi' => ?_)
  rw [getLsbD_fieldValue hv hones', BitVec.getLsbD_and]
  by_cases hin : lo.toNat % 64 + i < 64
  · rw [BitVec.getLsbD_sshiftRight, if_pos hin]
    simp [show ¬ 64 ≤ i by omega]
  · rw [getLsbD_onesU64 hle (by omega) hones', decide_eq_false (by rw [bitWidth]; omega), Bool.and_false,
      Bool.and_false]

/-- A mask has 63 bits at most. -/
theorem fieldValue_lt (hv : fieldValue m lo hi word = .ok v) : v.toNat < 2 ^ 63 := by
  obtain ⟨ones, hones, -⟩ := fieldValue_ok hv
  refine Nat.lt_pow_two_of_testBit _ fun i hi' => ?_
  change v.getLsbD i = false
  have hwidth : maskWidth lo hi < 64 := Nat.mod_lt _ (by decide)
  rw [getLsbD_fieldValue hv hones, getLsbD_onesU64_wrapped hones, decide_eq_false (by omega), Bool.and_false]

theorem toI64_ofInt {n : ℕ} (h : n < 2 ^ 63) : (F64.toI64 (F64.ofInt n : XRat)).toInt = n := by
  refine (toInt_toI64 n).trans ?_
  omega

theorem asUsize_natCast {n : ℕ} (h : n < 2 ^ 63) : asUsize n = n := by
  rw [asUsize]
  omega

end Fields

/-- **The line of a choice** goes by the number in its field. -/
theorem lineOf_choice (hc : t.constant name = some c) (hcls : c.cls = .bits)
    (h : lineOf m t name c = .ok (some line)) : ∃ p offset raw lo hi v,
      t.located c = some (p, offset) ∧ readRaw p.data offset c.ty = some raw ∧
        c.shape = some (.bits lo hi) ∧ fieldValue m lo hi (BitVec.ofInt 64 raw) = .ok v ∧
        line = choiceLine c.labels v.toNat v.toNat := by
  obtain ⟨p, offset, raw, lo, hi, v, hl, hraw, hshape, hv, rfl⟩ := lineOf_bits hc hcls h
  refine ⟨p, offset, raw, lo, hi, v, hl, hraw, hshape, hv, ?_⟩
  rw [toI64_ofInt (fieldValue_lt hv), asUsize_natCast (fieldValue_lt hv)]

/-- The number in a field that lies within its word is its raw value. -/
theorem constantRaw_choice {lo hi : UInt8} (hle : lo.toNat ≤ hi.toNat) (hhi : hi.toNat < 8 * c.ty.size)
    (hc : t.constant name = some c) (hcls : c.cls = .bits) {p : PageState} {offset : ℕ}
    (hl : t.located c = some (p, offset)) {raw : ℤ} (hraw : readRaw p.data offset c.ty = some raw)
    (hshape : c.shape = some (.bits lo hi)) {v : BitVec 64}
    (hv : fieldValue m lo hi (BitVec.ofInt 64 raw) = .ok v) :
    t.constantRaw m name = .ok (some v.toNat) := by
  have hsize := size_bits_le c.ty
  have hlt := fieldValue_lt hv
  have hint : v.toInt = v.toNat := BitVec.toInt_eq_toNat_of_lt (by omega)
  exact (Tune.constantRaw_bits hc hcls hshape hl).mpr
    ⟨raw, hraw, v, fieldRaw_of_fieldValue hle (by omega) hv, hint⟩

/-! ## Texts -/

/-- The text is recoded to itself, and no quote ends it. -/
def Kept (r : Recoding) (s : String) : Prop := r.apply s.toList = s.toList ∧ s.toList.getLast? ≠ some '"'

/-- What is read of a text is the text when it is kept. -/
theorem readText_eq_iff {s : String} :
    String.ofList (Text.trimEndWhere (· == '"') (r.apply s.toList)) = s ↔ Kept r s := by
  rw [Kept, ← Text.trimEnd_apply_eq_iff r (by decide), ← String.toList_inj, String.toList_ofList]

/-- **A choice is read back when its label is kept, and stands there first.** -/
theorem fileBitsIndex_choice {n : ℕ} (hc : t.constant name = some c) (hn : n < 2 ^ 63) :
    fileBitsIndex t name ((choiceLine c.labels n n).value r) = some (n : ℤ) ↔
      ∀ label, c.labels[n]? = some label → label ≠ "INVALID" →
        Kept r label ∧ c.labels.idxOf label = n := by
  have hnum : fileBitsIndex t name ((Line.index (n : ℤ)).value r) = some (n : ℤ) :=
    congrArg some (toI64_ofInt hn)
  rw [choiceLine]
  rcases hlabel : c.labels[n]? with - | label
  · exact iff_of_true hnum (by simp)
  dsimp only
  by_cases hinvalid : label = "INVALID"
  · rw [if_neg (not_not.mpr hinvalid)]
    refine iff_of_true hnum fun label' hlabel' hne => absurd ?_ hne
    rw [← Option.some.inj hlabel', hinvalid]
  rw [if_pos hinvalid]
  simp only [Option.some.injEq, forall_eq', ne_eq, hinvalid, not_false_eq_true, forall_const,
    ← readText_eq_iff, Line.value, fileBitsIndex, hc, Option.bind_some]
  generalize String.ofList (Text.trimEndWhere (· == '"') (r.apply label.toList)) = read
  constructor
  · intro h
    split_ifs at h with hread hmem
    have hidx : c.labels.idxOf read = n := by exact_mod_cast Option.some.inj h
    have hget : c.labels[n]? = some read := by
      rw [← hidx]
      exact List.getElem?_idxOf hmem
    obtain rfl := Option.some.inj (hget.symm.trans hlabel)
    exact ⟨rfl, hidx⟩
  · rintro ⟨rfl, hidx⟩
    rw [if_neg hinvalid, if_pos (List.mem_of_getElem? hlabel), hidx]

end RustyTune.TuneModel.Msq
