import RustyTune.TuneModel.Msq.Document

/-!
# A saved file read back

* `Line.value`: the value that is read of what is written, its texts being recoded;
  **`parseBody_body`**.
* `Reads`: what a part of the file does to the constants read.
* **`parse_save`**: the constants that are read of a saved file.
-/

namespace RustyTune.TuneModel.Msq

open TsIni XRat

open Text (Recoding)

open Xml (Document Reader)

/-! ## Values -/

def ofNumbers : List XRat → MsqValue XRat
  | [] => .text ""
  | [v] => .num v
  | v :: w :: vs => .array (v :: w :: vs)

/-- The value of what is written, with recoded texts. -/
def Line.value (r : Recoding) : Line XRat → MsqValue XRat
  | .scalar _ _ v => .num (sixDecimals v)
  | .label s | .string s => .text (String.ofList (Text.trimEndWhere (· == '"') (r.apply s.toList)))
  | .index i => .num (fin i)
  | .array _ _ _ _ values => ofNumbers (values.map sixDecimals)

theorem parseBody_quoted (s : List Char) : (parseBody ('"' :: (s ++ ['"'])) : MsqValue XRat) =
    .text (String.ofList (Text.trimEndWhere (· == '"') s)) := by
  have htrim : Text.trim ('"' :: (s ++ ['"'])) = '"' :: (s ++ ['"']) :=
    Text.trim_cons_append_cons (by decide) (by decide) s []
  have hend : Text.trimEndWhere (· == '"') (s ++ ['"']) = Text.trimEndWhere (· == '"') s := by
    rw [Text.trimEndWhere, List.reverse_append]
    rfl
  rw [parseBody, htrim, ← hend]
  rfl

theorem parseBody_words {s : List Char} (h : ∀ c ∈ s, c ≠ '"') {vs : List XRat} (hne : vs ≠ [])
    (hvs : parseNums (Text.splitWhitespace s) = some vs) : parseBody s = ofNumbers vs := by
  have hmem : ∀ c ∈ Text.trim s, c ∈ s := by
    intro c hc
    obtain ⟨a, b, -, -, hs⟩ := Text.exists_trim s
    rw [hs]
    exact List.mem_append_left _ (List.mem_append_right _ hc)
  unfold parseBody
  split
  · next heq => exact absurd rfl (h '"' (hmem '"' (heq ▸ List.mem_cons_self)))
  · rw [Text.splitWhitespace_trim, hvs]
    rcases vs with - | ⟨v, - | ⟨w, vs⟩⟩
    · exact absurd rfl hne
    · rfl
    · rfl

theorem parseNums_fmtNum (vs : List XRat) :
    parseNums (vs.map fun v => (fmtNum v).toList) = some (vs.map sixDecimals) := by
  induction vs with
  | nil => rfl
  | cons v vs ih =>
    rw [List.map_cons, parseNums, String.ofList_toList, parse_fmtNum, ih]
    rfl

theorem splitWhitespace_rows (rows : List (List XRat)) (s : List Char) :
    Text.splitWhitespace ((String.join (rows.map rowText)).toList ++ s) =
      (rows.flatten.map fun v => (fmtNum v).toList) ++ Text.splitWhitespace s := by
  induction rows with
  | nil => rfl
  | cons row rows ih =>
    have hwords : (String.join (row.map fun v => fmtNum v ++ " ")).toList =
        (row.map fun v => (fmtNum v).toList).flatMap fun w => w ++ [' '] := by
      rw [String.toList_join, List.flatMap_map, List.flatMap_map]
      exact List.flatMap_congr fun v _ => String.toList_append
    have hisWord : ∀ w ∈ row.map fun v => (fmtNum v).toList, Text.IsWord w := by
      intro w hw
      obtain ⟨v, -, rfl⟩ := List.mem_map.mp hw
      exact isWord_fmtNum v
    rw [List.map_cons, String.join_cons, String.toList_append, rowText, String.toList_append,
      String.toList_append, hwords, List.append_assoc, List.append_assoc, List.append_assoc,
      Text.splitWhitespace_blank_append (List.all_eq_true.mp (by decide)), Text.splitWhitespace_words hisWord,
      Text.splitWhitespace_blank_append (List.all_eq_true.mp (by decide)), ih, List.flatten_cons, List.map_append,
      List.append_assoc]

theorem isAscii_of_isPlain {s : List Char} (h : ∀ c ∈ s, isPlain c = true) : Text.IsAscii s := by
  intro c hc
  have := h c hc
  simp only [isPlain, Bool.and_eq_true, decide_eq_true_eq] at this
  exact this.1.1

theorem ne_quote_of_isPlain {s : List Char} (h : ∀ c ∈ s, isPlain c = true) : ∀ c ∈ s, c ≠ '"' := by
  rintro c hc rfl
  exact absurd (h _ hc) (by decide)

theorem parseBody_word {w : List Char} (hne : w ≠ []) (hw : ∀ c ∈ w, isPlain c = true) {v : XRat}
    (hv : F64.parse (String.ofList w) = some v) (r : Recoding) : parseBody (r.apply w) = .num v := by
  rw [r.apply_of_isAscii (isAscii_of_isPlain hw)]
  refine parseBody_words (ne_quote_of_isPlain hw) (List.cons_ne_nil v []) ?_
  rw [Text.splitWhitespace_word (isWord_of_isPlain hne hw), parseNums, hv]
  rfl

theorem isPlain_toString (i : ℤ) : ∀ c ∈ (toString i).toList, isPlain c = true := by
  intro c hc
  rw [toList_toString] at hc
  exact isPlain_of_isNumeral (isNumeral_signed hc)

theorem parse_toString (i : ℤ) : F64.parse (toString i) = some (fin i) := by
  have hsigned : toString i = String.ofList (signed (decide (i < 0)) i.natAbs 0) := by
    rw [← toList_toString, String.ofList_toList]
  have hneg : decide (i < 0) = true → i ≤ 0 := fun h => (of_decide_eq_true h).le
  have hvalue := signed_value 0 hneg fun h => not_lt.mp (of_decide_eq_false h)
  rw [pow_zero, div_one, div_one] at hvalue
  rw [hsigned]
  refine (parse_signed _ _ _).trans ?_
  rw [pow_zero, div_one, hvalue]

theorem isAscii_rows (rows : List (List XRat)) :
    Text.IsAscii ("\n" ++ String.join (rows.map rowText) ++ "      ").toList := by
  intro c hc
  rcases mem_rows hc with h | rfl | rfl
  · simp only [isPlain, Bool.and_eq_true, decide_eq_true_eq] at h
    exact h.1.1
  · decide
  · decide

/-- **The rows of an array are read as their numbers.** -/
theorem parseBody_rows (rows : List (List XRat)) :
    parseBody ("\n" ++ String.join (rows.map rowText) ++ "      ").toList =
      ofNumbers (rows.flatten.map sixDecimals) := by
  have hwords : Text.splitWhitespace ("\n" ++ String.join (rows.map rowText) ++ "      ").toList =
      rows.flatten.map fun v => (fmtNum v).toList := by
    rw [String.toList_append, String.toList_append, List.append_assoc,
      Text.splitWhitespace_blank_append (List.all_eq_true.mp (by decide)), splitWhitespace_rows]
    exact List.append_nil _
  by_cases hne : rows.flatten = []
  · rw [hne] at hwords ⊢
    rw [parseBody, Text.trim_eq_nil_of_splitWhitespace hwords]
    rfl
  · refine parseBody_words ?_ (by simpa using hne) (hwords ▸ parseNums_fmtNum _)
    rintro c hc rfl
    exact absurd (mem_rows hc) (by decide)

/-- **What is written of a constant is read as its value.** -/
theorem parseBody_body (r : Recoding) (line : Line XRat) :
    parseBody (r.apply line.body.toList) = line.value r := by
  have hquoted : ∀ s : String, parseBody (r.apply (quoted s).toList) =
      (.text (String.ofList (Text.trimEndWhere (· == '"') (r.apply s.toList))) : MsqValue XRat) := by
    intro s
    have hchars : r.apply (quoted s).toList = '"' :: (r.apply s.toList ++ ['"']) := by
      rw [quoted, String.toList_append, String.toList_append, r.apply_append, r.apply_append,
        r.apply_of_isAscii (by decide), List.append_assoc]
      rfl
    rw [hchars, parseBody_quoted]
  cases line with
  | scalar digits units v =>
    exact parseBody_word (fmtNum_ne_nil v) isPlain_fmtNum
      (by rw [String.ofList_toList]; exact parse_fmtNum v) r
  | label s => exact hquoted s
  | string s => exact hquoted s
  | index i =>
    have hparse := parse_toString i
    have hne : (toString i).toList ≠ [] := fun h => by
      rw [String.toList_eq_nil_iff.mp h] at hparse
      have hempty : XRat.parse "" = none := rfl
      cases hempty.symm.trans hparse
    exact parseBody_word hne (isPlain_toString i) (by rwa [String.ofList_toList]) r
  | array cols rows digits units values =>
    have hrows := parseBody_rows (chunks (Max.max cols 1) values)
    rw [flatten_chunks (by omega)] at hrows
    exact (congrArg parseBody (r.apply_of_isAscii (isAscii_rows _))).trans hrows

/-! ## Parsing -/

/-- What the events of a part of the file do. -/
def readPart (d : Document) (s : ParseState XRat) : Except MsqError (ParseState XRat) :=
  (d.events.map .ok).foldlM ParseState.event s

/-- Whether a page is numbered, and what is read so far. -/
abbrev Progress : Type := Bool × MsqFile XRat

/-- The part opens no element that it does not close, and this is what becomes of the progress. -/
def Reads (d : Document) (f : Progress → Progress) : Prop :=
  ∀ s : ParseState XRat, s.element = none → ∃ s', readPart d s = .ok s' ∧ s'.element = none ∧
    (s'.inNumberedPage, s'.file) = f (s.inNumberedPage, s.file)

theorem readPart_append (d d' : Document) (s : ParseState XRat) :
    readPart (d ++ d') s = readPart d s >>= readPart d' := by
  rw [readPart, Xml.events_append, List.map_append, List.foldlM_append]
  rfl

theorem reads_nil : Reads [] id := fun s hs => ⟨s, rfl, hs, rfl⟩

theorem Reads.append {d d' : Document} {f f' : Progress → Progress} (hd : Reads d f)
    (hd' : Reads d' f') : Reads (d ++ d') (f' ∘ f) := by
  intro s hs
  obtain ⟨s₁, hread, hs₁, hf⟩ := hd s hs
  obtain ⟨s₂, hread', hs₂, hf'⟩ := hd' s₁ hs₁
  refine ⟨s₂, ?_, hs₂, ?_⟩
  · rw [readPart_append, hread]
    exact hread'
  · rw [hf', hf]
    rfl

/-- An entry: the value of its body, with the name recoded. -/
def readLine (r : Recoding) (e : String × Line XRat) : String × MsqValue XRat :=
  (r.string e.1, e.2.value r)

/-- A line of a page; it counts where the page is numbered. -/
def readConstant (r : Recoding) (p : Progress) (e : String × Line XRat) : Progress :=
  (p.1, if p.1 then
    { p.2 with constants := p.2.constants.insert (r.string e.1) (e.2.value r) } else p.2)

def readVariable (r : Recoding) (p : Progress) (e : String × Line XRat) : Progress :=
  (p.1, { p.2 with pcVariables := p.2.pcVariables.insert (r.string e.1) (e.2.value r) })

def readSetting (r : Recoding) (p : Progress) (symbol : String) : Progress :=
  (p.1, { p.2 with settings := p.2.settings ++ [r.string symbol] })

def readHead (r : Recoding) (t : Tune XRat) (author writeDate : String) (p : Progress) : Progress :=
  (p.1, { p.2 with
    author := some (r.string author)
    writeDate := some (r.string writeDate)
    signature := some (r.string t.df.signature)
    firmwareInfo := some (r.string (replaceChar ' ' "+" t.df.signature)) })

theorem parseBody_append_blank (s : List Char) :
    (parseBody (s ++ [' ']) : MsqValue XRat) = parseBody s := by
  rw [parseBody, parseBody, Text.trim_append_blank (List.all_eq_true.mp (by decide))]

theorem attrOf_line (r : Recoding) (tag name : String) (line : Line XRat) :
    attrOf (Xml.Element.recode r ⟨tag, line.attributes name⟩).values "name" = some (r.string name) := by
  cases line <;> simp [attrOf, Xml.Element.values, Xml.Element.recode, Line.attributes]

theorem recode_lineEnd (r : Recoding) : r.string "\n" = "\n" := r.string_of_isAscii (by decide)

/-- A tag and the text after it, which counts within an element. -/
theorem readPart_singleton {tag : Xml.Tag} {s s₁ : ParseState XRat}
    (h : s.event (.ok tag.event) = .ok s₁) (text : String) : readPart [(tag, text)] s =
      .ok (if text = "" ∨ s₁.element = none then s₁
        else { s₁ with body := s₁.body ++ text.toList ++ [' '] }) := by
  have hevents : Document.events [(tag, text)] =
      tag.event :: if text = "" then [] else [.text (.ok text)] := List.append_nil _
  rw [readPart, hevents, List.map_cons, List.foldlM_cons, h]
  by_cases hempty : text = ""
  · rw [if_pos hempty, if_pos (.inl hempty)]
    rfl
  · rw [if_neg hempty]
    change (s₁.event (.ok (.text (.ok text))) >>= pure) = _
    rw [bind_pure, ParseState.event]
    cases helement : s₁.element with
    | none => rw [if_neg (by simp), if_pos (.inr rfl)]
    | some element => rw [Option.isSome_some, if_pos rfl, if_neg (by simp [hempty])]

/-- A line opens its element, with a body that is read as its value, and closes it. -/
theorem readPart_line (r : Recoding) {tag : String} (htag : tag = "constant" ∨ tag = "pcVariable")
    (e : String × Line XRat) (s : ParseState XRat) :
    ∃ body, (parseBody body : MsqValue XRat) = e.2.value r ∧
      readPart (Document.recode r (e.2.tags tag e.1)) s =
        readPart [(.stop tag, "\n")] { s with element := some (tag, r.string e.1), body } := by
  have hopening : s.opening tag (Xml.Element.recode r ⟨tag, e.2.attributes e.1⟩).values =
      { s with element := some (tag, r.string e.1), body := [] } := by
    rcases htag with rfl | rfl <;> simp only [ParseState.opening, attrOf_line]
  have hparts : Document.recode r (e.2.tags tag e.1) =
      [(.start (Xml.Element.recode r ⟨tag, e.2.attributes e.1⟩), r.string e.2.body)] ++
        [(.stop tag, "\n")] := by
    rw [← recode_lineEnd r]
    rfl
  have hchars : (r.string e.2.body).toList = r.apply e.2.body.toList := String.toList_ofList
  have hevent : s.event (.ok (Xml.Tag.event
      (.start (Xml.Element.recode r ⟨tag, e.2.attributes e.1⟩)))) =
      .ok { s with element := some (tag, r.string e.1), body := [] } := congrArg Except.ok hopening
  rw [hparts, readPart_append, readPart_singleton hevent]
  by_cases hempty : r.string e.2.body = ""
  · refine ⟨[], ?_, ?_⟩
    · rw [← parseBody_body r e.2, ← hchars, hempty]
      rfl
    · rw [if_pos (.inl hempty)]
      rfl
  · refine ⟨(r.string e.2.body).toList ++ [' '], ?_, ?_⟩
    · rw [parseBody_append_blank, hchars, parseBody_body]
    · rw [if_neg (by simp [hempty])]
      rfl

/-- **A line of a page is an entry of the file.** -/
theorem reads_constant (r : Recoding) (e : String × Line XRat) :
    Reads (Document.recode r (e.2.tags "constant" e.1)) fun p => readConstant r p e := by
  intro s hs
  obtain ⟨body, hbody, hread⟩ := readPart_line r (.inl rfl) e s
  have hclosing : ParseState.event { s with element := some ("constant", r.string e.1), body }
      (.ok (Xml.Tag.event (.stop "constant"))) = .ok (if s.inNumberedPage then
        { s with body, file :=
          { s.file with constants := s.file.constants.insert (r.string e.1) (e.2.value r) } }
      else { s with body }) := by
    simp [ParseState.event, Xml.Tag.event, ParseState.closing, hbody, hs]
  rw [hread, readPart_singleton hclosing]
  cases hpage : s.inNumberedPage with
  | true => exact ⟨_, rfl, by simp [hs], by simp [hs, readConstant]⟩
  | false => exact ⟨_, rfl, by simp [hs], by simp [hs, readConstant]⟩

theorem reads_variable (r : Recoding) (e : String × Line XRat) :
    Reads (Document.recode r (e.2.tags "pcVariable" e.1)) fun p => readVariable r p e := by
  intro s hs
  obtain ⟨body, hbody, hread⟩ := readPart_line r (.inr rfl) e s
  have hclosing : ParseState.event { s with element := some ("pcVariable", r.string e.1), body }
      (.ok (Xml.Tag.event (.stop "pcVariable"))) = .ok { s with body, file :=
        { s.file with pcVariables := s.file.pcVariables.insert (r.string e.1) (e.2.value r) } } := by
    simp [ParseState.event, Xml.Tag.event, ParseState.closing, hbody, hs]
  rw [hread, readPart_singleton hclosing]
  exact ⟨_, rfl, by simp [hs], by simp [hs, readVariable]⟩

theorem reads_singleton {tag : Xml.Tag} {f : Progress → Progress}
    (h : ∀ s : ParseState XRat, s.element = none → ∃ s₁, s.event (.ok tag.event) = .ok s₁ ∧
      s₁.element = none ∧ (s₁.inNumberedPage, s₁.file) = f (s.inNumberedPage, s.file))
    (text : String) : Reads [(tag, text)] f := by
  intro s hs
  obtain ⟨s₁, hevent, hs₁, hf⟩ := h s hs
  refine ⟨s₁, ?_, hs₁, hf⟩
  rw [readPart_singleton hevent, if_pos (.inr hs₁)]

theorem reads_idle {tag : Xml.Tag} (h : ∀ s : ParseState XRat, s.event (.ok tag.event) = .ok s)
    (text : String) : Reads [(tag, text)] id :=
  reads_singleton (fun s hs => ⟨s, h s, hs, rfl⟩) text

theorem event_stop {name : String} (h : name ≠ "constant" ∧ name ≠ "pcVariable")
    (s : ParseState XRat) : s.event (.ok (Xml.Tag.event (.stop name))) = .ok s := by
  simp [ParseState.event, Xml.Tag.event, ParseState.closing, h.1, h.2]

theorem reads_flatMap {α : Type} {d : α → Document} {f : Progress → α → Progress} {l : List α}
    (h : ∀ a ∈ l, Reads (d a) fun p => f p a) : Reads (l.flatMap d) fun p => l.foldl f p := by
  induction l with
  | nil => exact reads_nil
  | cons a l ih =>
    rw [List.flatMap_cons]
    exact (h a List.mem_cons_self).append (ih fun b hb => h b (List.mem_cons_of_mem a hb))

theorem recode_append (r : Recoding) (d d' : Document) :
    Document.recode r (d ++ d') = d.recode r ++ Document.recode r d' := List.map_append

theorem recode_flatMap {α : Type} (r : Recoding) (d : α → Document) (l : List α) :
    Document.recode r (l.flatMap d) = l.flatMap fun a => (d a).recode r := List.map_flatMap

theorem reads_page (r : Recoding) (page : List (String × Line XRat) × ℕ) :
    Reads ((pageTags page).recode r) fun p => page.1.foldl (readConstant r) (true, p.2) := by
  have hstart : Reads [((Xml.Tag.start ⟨"page", [("number", toString page.2)]⟩).recode r, r.string "\n")]
      fun p => (true, p.2) := by
    refine reads_singleton (fun s hs => ⟨_, rfl, ?_, ?_⟩) _
    · simp [ParseState.opening, hs, Xml.Element.recode]
    · simp [ParseState.opening, Xml.Element.recode, Xml.Element.values, attrOf]
  have hlines : Reads ((lineTags "constant" page.1).recode r) fun p => page.1.foldl (readConstant r) p := by
    rw [lineTags, recode_flatMap]
    exact reads_flatMap fun e _ => reads_constant r e
  have hparts : (pageTags page).recode r =
      [((Xml.Tag.start ⟨"page", [("number", toString page.2)]⟩).recode r, r.string "\n")] ++
        ((lineTags "constant" page.1).recode r ++
          [((Xml.Tag.stop "page").recode r, r.string "\n")]) := by
    rw [pageTags, ← List.singleton_append, recode_append, recode_append]
    rfl
  rw [hparts]
  exact hstart.append (hlines.append (reads_idle (event_stop (by decide)) _))

theorem reads_headTags (r : Recoding) (t : Tune XRat) (author writeDate : String) :
    Reads ((headTags t author writeDate).recode r) (readHead r t author writeDate) := by
  have hauthor : Reads [((Xml.Tag.empty ⟨"bibliography",
      [("author", author), ("tuneComment", ""), ("writeDate", writeDate)]⟩).recode r, r.string "\n")]
      fun p => (p.1, { p.2 with
        author := some (r.string author), writeDate := some (r.string writeDate) }) := by
    refine reads_singleton (fun s hs => ⟨s.opening "bibliography" _, rfl, hs, ?_⟩) _
    simp [ParseState.opening, Xml.Element.recode, Xml.Element.values, attrOf]
  have hversion : Reads [((Xml.Tag.empty ⟨"versionInfo", [("fileFormat", "5.0"),
      ("firmwareInfo", replaceChar ' ' "+" t.df.signature), ("nPages", toString t.pageCount),
      ("signature", t.df.signature)]⟩).recode r, r.string "\n")]
      fun p => (p.1, { p.2 with
        signature := some (r.string t.df.signature)
        firmwareInfo := some (r.string (replaceChar ' ' "+" t.df.signature)) }) := by
    refine reads_singleton (fun s hs => ⟨s.opening "versionInfo" _, rfl, hs, ?_⟩) _
    simp [ParseState.opening, Xml.Element.recode, Xml.Element.values, attrOf]
  exact hauthor.append hversion

theorem reads_settingsTags (r : Recoding) (symbols : List String) :
    Reads ((settingsTags symbols).recode r) fun p => symbols.foldl (readSetting r) p := by
  have hsettings : Reads (Document.recode r (symbols.flatMap settingTags))
      fun p => symbols.foldl (readSetting r) p := by
    rw [recode_flatMap]
    refine reads_flatMap fun symbol _ => reads_singleton (fun s hs => ⟨_, rfl, ?_, ?_⟩) _
    · simp [ParseState.opening, Xml.Element.recode, Xml.Element.values, attrOf, hs]
    · simp [ParseState.opening, Xml.Element.recode, Xml.Element.values, attrOf, readSetting]
  have hparts : settingsTags symbols = [(.start ⟨"settings", [("Comment",
      "These setting are only used if this msq is opened without a project.")]⟩, "\n")] ++
      (symbols.flatMap settingTags ++ [(.stop "settings", "\n")]) := rfl
  rw [hparts, recode_append, recode_append]
  exact (reads_idle (fun _ => rfl) _).append
    (hsettings.append (reads_idle (event_stop (by decide)) _))

/-! ## The whole file -/

/-- The map with the pairs inserted in order. -/
def insertAll (m : IndexMap String (MsqValue XRat)) (l : List (String × MsqValue XRat)) :
    IndexMap String (MsqValue XRat) := l.foldl (fun m e => m.insert e.1 e.2) m

theorem foldl_readConstant (r : Recoding) (pages : List (List (String × Line XRat) × ℕ)) (p : Progress) :
    (pages.foldl (fun p page => page.1.foldl (readConstant r) (true, p.2)) p).2 =
      { p.2 with constants := insertAll p.2.constants ((pages.flatMap Prod.fst).map (readLine r)) } := by
  have hpage : ∀ (page : List (String × Line XRat)) (file : MsqFile XRat),
      page.foldl (readConstant r) (true, file) =
        (true, { file with constants := insertAll file.constants (page.map (readLine r)) }) := by
    intro page
    induction page with
    | nil => exact fun _ => rfl
    | cons e page ih => exact fun file => ih _
  induction pages generalizing p with
  | nil => rfl
  | cons page pages ih =>
    rw [List.foldl_cons, ih, hpage, List.flatMap_cons, List.map_append, insertAll, insertAll,
      insertAll, List.foldl_append]

theorem foldl_readVariable (r : Recoding) (vars : List (String × Line XRat)) (p : Progress) :
    (vars.foldl (readVariable r) p).2 =
      { p.2 with pcVariables := insertAll p.2.pcVariables (vars.map (readLine r)) } := by
  induction vars generalizing p with
  | nil => rfl
  | cons e vars ih => exact ih _

theorem foldl_readSetting (r : Recoding) (symbols : List String) (p : Progress) :
    (symbols.foldl (readSetting r) p).2 =
      { p.2 with settings := p.2.settings ++ symbols.map r.string } := by
  induction symbols generalizing p with
  | nil => rw [List.map_nil, List.append_nil]; rfl
  | cons symbol symbols ih =>
    rw [List.foldl_cons, ih, List.map_cons, readSetting, List.append_assoc, List.singleton_append]

theorem reads_document (r : Recoding) (t : Tune XRat) (symbols : List String) (author writeDate : String)
    (vars : List (String × Line XRat)) (pages : List (List (String × Line XRat))) :
    Reads ((document t symbols author writeDate vars pages).recode r) fun p =>
      symbols.foldl (readSetting r)
        (pages.zipIdx.foldl (fun p page => page.1.foldl (readConstant r) (true, p.2))
          (vars.foldl (readVariable r) (readHead r t author writeDate p))) := by
  have hvars : Reads ((lineTags "pcVariable" vars).recode r) fun p => vars.foldl (readVariable r) p := by
    rw [lineTags, recode_flatMap]
    exact reads_flatMap fun e _ => reads_variable r e
  have hpages : Reads (Document.recode r (pages.zipIdx.flatMap pageTags)) fun p =>
      pages.zipIdx.foldl (fun p page => page.1.foldl (readConstant r) (true, p.2)) p := by
    rw [recode_flatMap]
    exact reads_flatMap fun page _ => reads_page r page
  have hparts : document t symbols author writeDate vars pages =
      [(.declaration ⟨"xml", [("version", "1.0"), ("encoding", "ISO-8859-1")]⟩, "\n")] ++
        ([(.start ⟨"msq", [("xmlns", "http://www.msefi.com/:msq")]⟩, "\n")] ++
          (headTags t author writeDate ++ lineTags "pcVariable" vars ++ pages.zipIdx.flatMap pageTags ++
            settingsTags symbols ++ [(.stop "msq", "\n")])) := rfl
  rw [hparts]
  simp only [recode_append]
  exact (reads_idle (fun _ => rfl) _).append ((reads_idle (fun _ => rfl) _).append
    (((((reads_headTags r t author writeDate).append hvars).append hpages).append
      (reads_settingsTags r symbols)).append (reads_idle (event_stop (by decide)) _)))

/-- What a saved file stands for: the names and texts recoded, and the values of the lines. -/
def savedFile (r : Recoding) (t : Tune XRat) (symbols : List String) (author writeDate : String)
    (vars : List (String × Line XRat)) (pages : List (List (String × Line XRat))) : MsqFile XRat where
  signature := some (r.string t.df.signature)
  firmwareInfo := some (r.string (replaceChar ' ' "+" t.df.signature))
  author := some (r.string author)
  writeDate := some (r.string writeDate)
  settings := symbols.map r.string
  constants := IndexMap.ofList (pages.flatten.map (readLine r))
  pcVariables := IndexMap.ofList (vars.map (readLine r))

theorem parse_document (reader : Reader) (r : Recoding) (t : Tune XRat) (symbols : List String)
    (author writeDate : String) (vars : List (String × Line XRat))
    (pages : List (List (String × Line XRat))) :
    MsqFile.parse reader (r.apply (document t symbols author writeDate vars pages).render) =
      .ok (savedFile r t symbols author writeDate vars pages) := by
  have hform : (document t symbols author writeDate vars pages).WellFormed := wellFormed_document
  obtain ⟨s, hs, -, hfile⟩ := reads_document r t symbols author writeDate vars pages ParseState.init rfl
  have hpages : pages.zipIdx.flatMap Prod.fst = pages.flatten := by
    rw [List.flatMap_def, List.zipIdx_map_fst]
  have hfile := congrArg Prod.snd hfile
  dsimp only at hfile
  rw [foldl_readSetting, foldl_readConstant, foldl_readVariable, hpages] at hfile
  rw [MsqFile.parse, Xml.apply_render r hform.proper, reader.read_render _ (hform.recode r)]
  exact (congrArg (Except.map ParseState.file) hs).trans (congrArg Except.ok hfile)

end RustyTune.TuneModel.Msq
