import RustyTune.TuneModel.Msq.Numbers
import RustyTune.TuneModel.Msq.Parse

/-!
# A saved file as a document

* `Line.tags`: what is written of a constant, as tags; `document`: the file.
* **`render_document`**: the text that is saved is the text of the document, which is well-formed
  (`wellFormed_document`).
-/

namespace RustyTune.TuneModel.Msq

open TsIni XRat

open Xml (Document IsName Balanced)

/-! ## Elements -/

def quoted (s : String) : String := "\"" ++ s ++ "\""

/-- The text of an element, without escapes. -/
def Line.body : Line XRat → String
  | .scalar _ _ v => fmtNum v
  | .label s | .string s => quoted s
  | .index i => toString i
  | .array cols _ _ _ values =>
    "\n" ++ String.join ((chunks (max cols 1) values).map rowText) ++ "      "

def unitsAttributes : Option String → List (String × String)
  | some units => [("units", trimQuotes units)]
  | none => []

def Line.attributes (name : String) : Line XRat → List (String × String)
  | .scalar digits units _ =>
    ("digits", toString digits) :: ("name", name) :: unitsAttributes units
  | .label _ | .index _ | .string _ => [("name", name)]
  | .array cols rows digits units _ =>
    ("cols", toString cols) :: ("digits", toString digits) :: ("name", name) ::
      ("rows", toString rows) :: unitsAttributes units

def Line.tags (tag name : String) (line : Line XRat) : Document :=
  [(.start ⟨tag, line.attributes name⟩, line.body), (.stop tag, "\n")]

/-- Lines, with the tag of their elements. -/
def lineTags (tag : String) (lines : List (String × Line XRat)) : Document :=
  lines.flatMap fun e => e.2.tags tag e.1

/-! ## The file -/

variable (m : Machine) (t : Tune XRat)

def headTags (author writeDate : String) : Document :=
  [(.empty ⟨"bibliography", [("author", author), ("tuneComment", ""), ("writeDate", writeDate)]⟩, "\n"),
    (.empty ⟨"versionInfo", [("fileFormat", "5.0"), ("firmwareInfo", replaceChar ' ' "+" t.df.signature),
      ("nPages", toString t.pageCount), ("signature", t.df.signature)]⟩, "\n")]

def pageTags (page : List (String × Line XRat) × ℕ) : Document :=
  (.start ⟨"page", [("number", toString page.2)]⟩, "\n") ::
    (lineTags "constant" page.1 ++ [(.stop "page", "\n")])

def settingTags (symbol : String) : Document :=
  [(.empty ⟨"setting", [("name", symbol), ("value", symbol)]⟩, "\n")]

def settingsTags (symbols : List String) : Document :=
  (.start ⟨"settings",
    [("Comment", "These setting are only used if this msq is opened without a project.")]⟩, "\n") ::
    (symbols.flatMap settingTags ++ [(.stop "settings", "\n")])

/-- The file of variables and of constants on pages. -/
def document (symbols : List String) (author writeDate : String) (vars : List (String × Line XRat))
    (pages : List (List (String × Line XRat))) : Document :=
  (.declaration ⟨"xml", [("version", "1.0"), ("encoding", "ISO-8859-1")]⟩, "\n") ::
    (.start ⟨"msq", [("xmlns", "http://www.msefi.com/:msq")]⟩, "\n") ::
      (headTags t author writeDate ++ lineTags "pcVariable" vars ++ pages.zipIdx.flatMap pageTags ++
        settingsTags symbols ++ [(.stop "msq", "\n")])

/-! ## Texts -/

theorem toList_replaceChar (c : Char) (new s : String) : (replaceChar c new s).toList =
    s.toList.flatMap fun d => if d = c then new.toList else [d] := String.toList_ofList

theorem toList_xmlEscape (s : String) : (xmlEscape s).toList = Xml.escape s.toList := by
  simp only [xmlEscape, toList_replaceChar, List.flatMap_assoc, Xml.escape]
  refine List.flatMap_congr fun c _ => ?_
  by_cases hspecial : c = '&' ∨ c = '<' ∨ c = '>' ∨ c = '"'
  · rcases hspecial with rfl | rfl | rfl | rfl <;> rfl
  · simp only [not_or] at hspecial
    obtain ⟨h1, h2, h3, h4⟩ := hspecial
    simp only [Xml.escapeChar, if_neg h1, if_neg h2, if_neg h3, if_neg h4, List.flatMap_singleton]

theorem toString_string (s : String) : toString s = s := rfl

theorem toString_uint8 (n : UInt8) : toString n = toString n.toNat := rfl

theorem escape_toDigits (n : ℕ) : Xml.escape (Nat.toDigits 10 n) = Nat.toDigits 10 n := by
  refine Xml.escape_of_plain fun c hc => ?_
  have hplain := isPlain_of_isNumeral (c := c) (by simp [isNumeral, isDigit_toDigits hc])
  simp only [isPlain, Bool.and_eq_true, Bool.not_eq_true'] at hplain
  exact hplain.2

theorem escape_of_isPlain {s : List Char} (h : ∀ c ∈ s, isPlain c = true) : Xml.escape s = s := by
  refine Xml.escape_of_plain fun c hc => ?_
  have := h c hc
  simp only [isPlain, Bool.and_eq_true, Bool.not_eq_true'] at this
  exact this.2

theorem escape_quoted (s : String) : Xml.escape (quoted s).toList =
    "&quot;".toList ++ (Xml.escape s.toList ++ "&quot;".toList) := by
  rw [quoted, String.toList_append, String.toList_append, Xml.escape_append, Xml.escape_append,
    List.append_assoc]
  rfl

/-- The characters of an array: those of numbers, and white space. -/
theorem mem_rows {rows : List (List XRat)} {c : Char}
    (hc : c ∈ ("\n" ++ String.join (rows.map rowText) ++ "      ").toList) :
    isPlain c = true ∨ c = ' ' ∨ c = '\n' := by
  have hindent : "         ".toList.all (· = ' ') = true := by decide
  have hend : "      ".toList.all (· = ' ') = true := by decide
  rw [String.toList_append, String.toList_append, List.mem_append, List.mem_append, String.toList_join,
    List.flatMap_map, List.mem_flatMap] at hc
  rcases hc with (hc | ⟨row, -, hc⟩) | hc
  · exact .inr (.inr (List.mem_singleton.mp hc))
  · rw [rowText, String.toList_append, String.toList_append, String.toList_join, List.flatMap_map,
      List.mem_append, List.mem_append, List.mem_flatMap] at hc
    rcases hc with (hc | ⟨v, -, hc⟩) | hc
    · exact .inr (.inl (of_decide_eq_true (List.all_eq_true.mp hindent c hc)))
    · rw [String.toList_append, List.mem_append] at hc
      exact hc.imp (isPlain_fmtNum c) fun h => .inl (List.mem_singleton.mp h)
    · exact .inr (.inr (List.mem_singleton.mp hc))
  · exact .inr (.inl (of_decide_eq_true (List.all_eq_true.mp hend c hc)))

theorem escape_rows (rows : List (List XRat)) :
    Xml.escape ("\n" ++ String.join (rows.map rowText) ++ "      ").toList =
      ("\n" ++ String.join (rows.map rowText) ++ "      ").toList := by
  refine Xml.escape_of_plain fun c hc => ?_
  rcases mem_rows hc with h | rfl | rfl
  · simp only [isPlain, Bool.and_eq_true, Bool.not_eq_true'] at h
    exact h.2
  · decide
  · decide

theorem render_element (tag : String) (attributes : List (String × String)) (body : String) :
    Document.render [(.start ⟨tag, attributes⟩, body), (.stop tag, "\n")] =
      '<' :: (tag.toList ++ (attributes.flatMap Xml.renderAttribute ++ '>' ::
        (Xml.escape body.toList ++ '<' :: '/' :: (tag.toList ++ ['>', '\n'])))) := by
  have hend : Xml.escape ['\n'] = ['\n'] := by decide
  simp [Document.render, Xml.Tag.render, Xml.Tag.content, Xml.Element.render, hend]

theorem render_quoted {tag name : String} (hname : Xml.escape name.toList = name.toList) (s : String) :
    (s!"<{tag} name=\"{name}\">&quot;{xmlEscape s}&quot;</{tag}>\n").toList =
      Document.render [(.start ⟨tag, [("name", name)]⟩, quoted s), (.stop tag, "\n")] := by
  rw [render_element, escape_quoted]
  simp [toString_string, Xml.renderAttribute, hname, toList_xmlEscape]

theorem toList_unitsAttr (units : Option String) :
    (unitsAttr units).toList = (unitsAttributes units).flatMap Xml.renderAttribute := by
  cases units with
  | none => rfl
  | some units =>
    simp [unitsAttr, unitsAttributes, Xml.renderAttribute, toString_string, toList_xmlEscape]

/-- **What is written of a constant is the text of its tags.** -/
theorem render_line {tag name : String} (hname : Xml.escape name.toList = name.toList)
    (line : Line XRat) : (line.text tag name).toList = Document.render (line.tags tag name) := by
  rw [Line.tags, render_element]
  cases line with
  | scalar digits units v =>
    change (s!"<{tag} digits=\"{digits}\" name=\"{name}\"{unitsAttr units}>{fmtNum v}</{tag}>\n").toList = _
    simp only [Line.attributes, Line.body, List.flatMap_cons, ← toList_unitsAttr,
      escape_of_isPlain isPlain_fmtNum]
    simp [toString_string, toString_uint8, Xml.renderAttribute, hname, escape_toDigits]
  | label s => exact (render_quoted hname s).trans (render_element ..)
  | index i =>
    have hi : Xml.escape (toString i).toList = (toString i).toList := escape_of_isPlain fun c hc => by
      rw [toList_toString] at hc
      exact isPlain_of_isNumeral (isNumeral_signed hc)
    change (s!"<{tag} name=\"{name}\">{i}</{tag}>\n").toList = _
    simp only [Line.attributes, Line.body, hi]
    generalize toString i = text
    simp [toString_string, Xml.renderAttribute, hname]
  | array cols rows digits units values =>
    change (s!"<{tag} cols=\"{cols}\" digits=\"{digits}\" name=\"{name}\" rows=\"{rows}\"{unitsAttr units}>\n" ++
      String.join ((chunks (Max.max cols 1) values).map rowText) ++ s!"      </{tag}>\n").toList = _
    have hbody : Xml.escape (Line.body (.array cols rows digits units values)).toList =
        (Line.body (.array cols rows digits units values)).toList := escape_rows _
    rw [hbody]
    simp only [Line.attributes, Line.body, List.flatMap_cons, ← toList_unitsAttr]
    generalize String.join ((chunks (Max.max cols 1) values).map rowText) = text
    simp [toString_string, toString_uint8, Xml.renderAttribute, hname, escape_toDigits]
  | string s => exact (render_quoted hname s).trans (render_element ..)

/-! ## The text of the file -/

variable {m t} {symbols : List String} {author writeDate text : String}
  {vars : List (String × Line XRat)} {pages : List (List (String × Line XRat))}

theorem render_lineTags {tag : String} {lines : List (String × Line XRat)}
    (h : ∀ e ∈ lines, Xml.escape e.1.toList = e.1.toList) :
    (String.join (lines.map fun e => e.2.text tag e.1)).toList = (lineTags tag lines).render := by
  induction lines with
  | nil => rfl
  | cons e lines ih =>
    obtain ⟨he, hlines⟩ := List.forall_mem_cons.mp h
    rw [List.map_cons, String.join_cons, String.toList_append, ih hlines, render_line he,
      ← Xml.render_append]
    rfl

theorem render_cons (tag : Xml.Tag) (d : Document) :
    Document.render ((tag, "\n") :: d) = tag.render ++ '\n' :: d.render := by
  have hend : Xml.escape ['\n'] = ['\n'] := by decide
  simp [Document.render, hend]

theorem render_pageTags {page : List (String × Line XRat) × ℕ}
    (h : ∀ e ∈ page.1, Xml.escape e.1.toList = e.1.toList) :
    (pageText page.2 page.1).toList = (pageTags page).render := by
  have htext : pageText page.2 page.1 = s!"<page number=\"{page.2}\">\n" ++
      String.join (page.1.map fun e => e.2.text "constant" e.1) ++ "</page>\n" := rfl
  rw [htext, String.toList_append, String.toList_append, render_lineTags h, pageTags, render_cons,
    Xml.render_append, render_cons]
  simp [Xml.Tag.render, Xml.Tag.content, Xml.Element.render, Xml.renderAttribute, toString_string,
    escape_toDigits, Document.render]

theorem render_settingTags (symbols : List String) :
    (String.join (symbols.map fun symbol =>
      s!"<setting name=\"{xmlEscape symbol}\" value=\"{xmlEscape symbol}\"/>\n")).toList =
      Document.render (symbols.flatMap settingTags) := by
  induction symbols with
  | nil => rfl
  | cons symbol symbols ih =>
    rw [List.map_cons, String.join_cons, String.toList_append, ih, List.flatMap_cons,
      Xml.render_append, settingTags, render_cons]
    simp [Xml.Tag.render, Xml.Tag.content, Xml.Element.render, Xml.renderAttribute,
      toString_string, toList_xmlEscape, Document.render]

theorem render_settingsTags (symbols : List String) : (settingsText symbols).toList =
    (settingsTags symbols).render ++ Document.render [(.stop "msq", "\n")] := by
  have htext : settingsText symbols =
      "<settings Comment=\"These setting are only used if this msq is opened without a project.\">\n" ++
        String.join (symbols.map fun symbol =>
          s!"<setting name=\"{xmlEscape symbol}\" value=\"{xmlEscape symbol}\"/>\n") ++
        "</settings>\n</msq>\n" := rfl
  have hcomment : Xml.escape
      "These setting are only used if this msq is opened without a project.".toList =
      "These setting are only used if this msq is opened without a project.".toList :=
    rfl
  rw [htext, String.toList_append, String.toList_append, render_settingTags, settingsTags, render_cons,
    Xml.render_append, render_cons, render_cons]
  generalize Document.render (symbols.flatMap settingTags) = tags
  simp only [Xml.Tag.render, Xml.Tag.content, Xml.Element.render, Xml.renderAttribute,
    List.flatMap_cons, hcomment]
  simp [Document.render]

theorem render_bibliography (author writeDate : String) :
    (bibliographyText author writeDate).toList = Document.render [(.empty ⟨"bibliography",
      [("author", author), ("tuneComment", ""), ("writeDate", writeDate)]⟩, "\n")] := by
  have hempty : Xml.escape [] = [] := rfl
  unfold bibliographyText
  rw [render_cons]
  simp [Xml.Tag.render, Xml.Tag.content, Xml.Element.render, Xml.renderAttribute, Document.render,
    toString_string, toList_xmlEscape, hempty]

theorem render_versionInfo (firmware signature : String) (pageCount : ℕ) :
    (versionInfoText firmware signature pageCount).toList = Document.render [(.empty ⟨"versionInfo",
      [("fileFormat", "5.0"), ("firmwareInfo", firmware), ("nPages", toString pageCount),
        ("signature", signature)]⟩, "\n")] := by
  have hformat : Xml.escape ['5', '.', '0'] = ['5', '.', '0'] := by decide
  unfold versionInfoText
  rw [render_cons]
  simp [Xml.Tag.render, Xml.Tag.content, Xml.Element.render, Xml.renderAttribute, Document.render,
    toString_string, toList_xmlEscape, escape_toDigits, hformat]

theorem render_headTags (author writeDate : String) : (headText t author writeDate).toList =
    Document.render [(.declaration ⟨"xml", [("version", "1.0"), ("encoding", "ISO-8859-1")]⟩, "\n"),
      (.start ⟨"msq", [("xmlns", "http://www.msefi.com/:msq")]⟩, "\n")] ++
        (headTags t author writeDate).render := by
  have hopening : Document.render
      [(.declaration ⟨"xml", [("version", "1.0"), ("encoding", "ISO-8859-1")]⟩, "\n"),
        (.start ⟨"msq", [("xmlns", "http://www.msefi.com/:msq")]⟩, "\n")] =
      ("<?xml version=\"1.0\" encoding=\"ISO-8859-1\"?>\n" ++
        "<msq xmlns=\"http://www.msefi.com/:msq\">\n").toList := rfl
  have hbibliography := render_bibliography author writeDate
  have hversion := render_versionInfo (replaceChar ' ' "+" t.df.signature) t.df.signature t.pageCount
  have htext : ∀ a b c : String, (a ++ b ++ c).toList = a.toList ++ (b.toList ++ c.toList) :=
    fun a b c => by rw [String.toList_append, String.toList_append, List.append_assoc]
  refine (htext _ _ _).trans ?_
  rw [← hopening, hbibliography, hversion, ← Xml.render_append]
  rfl

/-- **What is saved is the text of the document.** -/
theorem render_document (hvars : ∀ e ∈ vars, Xml.escape e.1.toList = e.1.toList)
    (hpages : ∀ page ∈ pages, ∀ e ∈ page, Xml.escape e.1.toList = e.1.toList) :
    (headText t author writeDate ++ String.join (vars.map fun e => e.2.text "pcVariable" e.1) ++
      String.join (pages.zipIdx.map fun page => pageText page.2 page.1) ++
      settingsText symbols).toList = (document t symbols author writeDate vars pages).render := by
  have hpageText : (String.join (pages.zipIdx.map fun page => pageText page.2 page.1)).toList =
      Document.render (pages.zipIdx.flatMap pageTags) := by
    have hzip : ∀ page ∈ pages.zipIdx, ∀ e ∈ page.1, Xml.escape e.1.toList = e.1.toList :=
      fun page hpage => hpages page.1 (List.fst_mem_of_mem_zipIdx hpage)
    revert hzip
    generalize pages.zipIdx = indexed
    intro hzip
    induction indexed with
    | nil => rfl
    | cons page indexed ih =>
      obtain ⟨hpage, hrest⟩ := List.forall_mem_cons.mp hzip
      rw [List.map_cons, String.join_cons, String.toList_append, ih hrest, render_pageTags hpage,
        List.flatMap_cons, Xml.render_append]
  rw [String.toList_append, String.toList_append, String.toList_append, hpageText, render_lineTags hvars,
    render_settingsTags, render_headTags, document]
  simp only [← Xml.render_append, List.append_assoc]
  rfl

theorem save_eq_ok : save m t symbols author writeDate = .ok text ↔ ∃ vars pages,
    variableLines m t = .ok vars ∧ (List.range t.pageCount).mapM (pageLines m t) = .ok pages ∧
      text = headText t author writeDate ++ String.join (vars.map fun e => e.2.text "pcVariable" e.1) ++
        String.join (pages.zipIdx.map fun page => pageText page.2 page.1) ++ settingsText symbols := by
  simp only [save, Exec.bind_eq_ok, Exec.pure_eq_ok]
  constructor
  · rintro ⟨vars, hvars, pages, hpages, rfl⟩
    exact ⟨vars, pages, hvars, hpages, rfl⟩
  · rintro ⟨vars, pages, hvars, hpages, rfl⟩
    exact ⟨vars, hvars, pages, hpages, rfl⟩

/-! ## Its form -/

/-- The keys of an element stand in the order of the alphabet. -/
theorem keys_attributes (name : String) (line : Line XRat) :
    ((line.attributes name).map Prod.fst).Sublist ["cols", "digits", "name", "rows", "units"] := by
  cases line with
  | scalar digits units v =>
    cases units with
    | none => exact (by decide : ["digits", "name"].Sublist ["cols", "digits", "name", "rows", "units"])
    | some units =>
      exact (by decide : ["digits", "name", "units"].Sublist ["cols", "digits", "name", "rows", "units"])
  | array cols rows digits units values =>
    cases units with
    | none =>
      exact (by decide :
        ["cols", "digits", "name", "rows"].Sublist ["cols", "digits", "name", "rows", "units"])
    | some units => exact .refl _
  | label s | index i | string s =>
    exact (by decide : ["name"].Sublist ["cols", "digits", "name", "rows", "units"])

theorem balanced_lineTags {tag : String} (htag : IsName tag) (lines : List (String × Line XRat)) :
    Balanced (lineTags tag lines) := by
  refine Xml.balanced_flatMap fun e _ => Xml.balanced_nil.enclose ⟨htag, fun a ha => ?_, ?_⟩ e.2.body "\n"
  · exact (by decide : ∀ k ∈ ["cols", "digits", "name", "rows", "units"], IsName k) a.1
      ((keys_attributes e.1 e.2).subset (List.mem_map_of_mem ha))
  · exact (keys_attributes e.1 e.2).nodup (by decide)

theorem balanced_pageTags (page : List (String × Line XRat) × ℕ) : Balanced (pageTags page) :=
  (balanced_lineTags (by decide) page.1).enclose
    (.of_keys ["number"] (by decide : IsName "page") (by decide) (by decide) rfl) "\n" "\n"

theorem balanced_settingsTags (symbols : List String) : Balanced (settingsTags symbols) := by
  refine (Xml.balanced_flatMap fun symbol _ => ?_).enclose ⟨by decide, by decide, by decide⟩ "\n" "\n"
  exact Xml.balanced_empty
    (.of_keys ["name", "value"] (by decide : IsName "setting") (by decide) (by decide) rfl) "\n"

theorem balanced_headTags (author writeDate : String) : Balanced (headTags t author writeDate) :=
  (Xml.balanced_empty (.of_keys ["author", "tuneComment", "writeDate"]
    (by decide : IsName "bibliography") (by decide) (by decide) rfl) "\n").append
    (Xml.balanced_empty (.of_keys ["fileFormat", "firmwareInfo", "nPages", "signature"]
      (by decide : IsName "versionInfo") (by decide) (by decide) rfl) "\n")

/-- **The tags of a saved file are nested.** -/
theorem wellFormed_document : (document t symbols author writeDate vars pages).WellFormed := by
  have hbalanced : Balanced (headTags t author writeDate ++ lineTags "pcVariable" vars ++
      pages.zipIdx.flatMap pageTags ++ settingsTags symbols) :=
    (((balanced_headTags author writeDate).append (balanced_lineTags (by decide) vars)).append
      (Xml.balanced_flatMap fun page _ => balanced_pageTags page)).append (balanced_settingsTags symbols)
  have hfile := hbalanced.enclose (e := ⟨"msq", [("xmlns", "http://www.msefi.com/:msq")]⟩)
    ⟨by decide, by decide, by decide⟩ "\n" "\n" [] [] rfl
  rw [List.append_nil] at hfile
  exact ⟨⟨by decide, by decide, by decide⟩, hfile⟩

end RustyTune.TuneModel.Msq
