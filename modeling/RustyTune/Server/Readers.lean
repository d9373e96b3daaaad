import RustyTune.Datalog.Msl
import RustyTune.Server.Histories

/-!
# Two readers of a log

`readMsl` splits the text of a log; the first scan of a view streams its lines, and later views read
rows again by their offsets.

* `readHeaders_texts`, `contents_text`: the header and the lines of a text that is streamed.
* `Query.wanted`: the columns that are asked for; `selectedColumns_eq`: they are selected.
* `parseColumns_eq`: the cells that are skipped to are those of the columns.
* `Rows.run_texts`: what a scan finds of the lines, an entry to each row that has a time.
* `shownColumn`: of a column, what a view has to show; **`views_agree`**: it shows that.
-/

namespace RustyTune.Server.LogView

open Datalog (MslData readMsl isRow cellOf columnsOf parseCell)

variable {F J : Type} [F64 F] {path : String} {f : File}

/-! ## Lines -/

@[simp] theorem decodeLine_utf8Encode (l : List Char) : decodeLine (Text.utf8Encode l) = .ok l := by
  rw [decodeLine, Text.utf8Lossy_utf8Encode]
  exact if_pos rfl

theorem readHeader_text {texts : List (List Char)} {text : List Char} {n : ℕ}
    {lines : List (List UInt8)}
    (h : readHeader (texts.map Text.utf8Encode) = .ok (text, n, lines)) :
    ∃ l rest, texts = l :: rest ∧ text = trimLineEnd l ∧ lines = rest.map Text.utf8Encode := by
  cases texts with
  | nil => exact nomatch h
  | cons l rest =>
    rw [List.map_cons, readHeader, decodeLine_utf8Encode, except_ok_bind] at h
    obtain ⟨rfl, -, rfl⟩ : trimLineEnd l = text ∧ _ ∧ _ := by simpa using Except.ok.inj h
    exact ⟨l, rest, rfl, rfl, rfl⟩

theorem readHeaders_texts {bytes : List UInt8} {texts : List (List Char)} {h : Header}
    (hlines : Reader.readLines bytes = texts.map Text.utf8Encode)
    (hh : readHeaders bytes = .ok h) :
    ∃ t l u rest, texts = t :: l :: u :: rest ∧ h.title = String.ofList (trimLineEnd t) ∧
      h.labels = ((trimLineEnd l).splitOn '\t').map String.ofList ∧
      h.units = ((trimLineEnd u).splitOn '\t').map String.ofList ∧
      h.lines = rest.map Text.utf8Encode := by
  obtain ⟨⟨title, n₁, lines₁⟩, h₁, hh⟩ := except_bind_eq_ok.mp hh
  obtain ⟨⟨labels, n₂, lines₂⟩, h₂, hh⟩ := except_bind_eq_ok.mp hh
  obtain ⟨⟨units, n₃, lines₃⟩, h₃, hh⟩ := except_bind_eq_ok.mp hh
  rw [hlines] at h₁
  obtain ⟨t, rest₁, rfl, rfl, rfl⟩ := readHeader_text h₁
  obtain ⟨l, rest₂, rfl, rfl, rfl⟩ := readHeader_text h₂
  obtain ⟨u, rest₃, rfl, rfl, rfl⟩ := readHeader_text h₃
  dsimp only at hh
  split_ifs at hh
  · exact nomatch hh
  · obtain rfl := Except.ok.inj hh
    exact ⟨t, l, u, rest₃, rfl, rfl, rfl, rfl, rfl⟩

/-! ## Cells -/

/-- The labels a query asks for. -/
def Query.requests (query : Query F) (label : String) : Bool :=
  (((query.channels.getD "RPM,MAP,AFR,TPS,CLT").toList.splitOn ',').map String.ofList).contains label

/-- The first column, and those after it whose labels are asked for. -/
def Query.wanted (query : Query F) (labels : List String) : List ℕ :=
  0 :: ((List.range labels.length).drop 1).filter fun c => query.requests (labels.getD c "")

omit [F64 F] in
theorem selectedColumns_eq (labels : List String) (query : Query F) :
    selectedColumns labels query = query.wanted labels := by
  have hindex : ∀ e ∈ labels.zipIdx.drop 1, labels.getD e.2 "" = e.1 := by
    intro e he
    have hget := List.mem_zipIdx_iff_getElem?.mp (List.mem_of_mem_drop he)
    rw [List.getD_eq_getElem?_getD, hget]
    rfl
  have hrange : (List.range labels.length).drop 1 = (labels.zipIdx.drop 1).map (·.2) := by
    rw [List.map_drop, List.zipIdx_map_snd, List.range_eq_range']
  rw [selectedColumns, Query.wanted, hrange, List.filter_map]
  refine congrArg (fun l => 0 :: List.map _ l) (List.filter_congr fun e he => ?_)
  rw [Function.comp_apply, hindex e he]
  rfl

omit [F64 F] in
theorem Query.pairwise_wanted (query : Query F) (labels : List String) :
    (query.wanted labels).Pairwise (· < ·) := by
  have hrange : (0 :: (List.range labels.length).drop 1).Pairwise (· < ·) := by
    cases labels.length with
    | zero => exact List.pairwise_singleton _ _
    | succ n =>
      have h : (List.range (n + 1)).Pairwise (· < ·) := List.pairwise_lt_range
      rw [List.range_succ_eq_map] at h ⊢
      exact h
  exact hrange.sublist (List.filter_sublist.cons_cons 0)

omit [F64 F] in
theorem Query.lt_of_mem_wanted {query : Query F} {labels : List String} (h : labels ≠ []) {c : ℕ}
    (hc : c ∈ query.wanted labels) : c < labels.length := by
  rcases List.mem_cons.mp hc with rfl | hc
  · exact List.length_pos_of_ne_nil h
  · exact List.mem_range.mp (List.mem_of_mem_drop (List.mem_of_mem_filter hc))

/-- A cell as it is shown. -/
def shownCell (row : List Char) (c : ℕ) : Option F := (cellOf row c).filter F64.isFinite

theorem bind_cellValue (row : List Char) (c : ℕ) :
    (row.splitOn '\t')[c]?.bind cellValue = (shownCell row c : Option F) := by
  rw [shownCell, cellOf]
  cases (row.splitOn '\t')[c]? <;> rfl

theorem rowTime_eq (row : List Char) : rowTime row = (shownCell row 0 : Option F) := by
  rw [rowTime, List.head?_eq_getElem?, bind_cellValue]

theorem parseCells_eq (cells : List (List Char)) {previous : ℕ} {selected : List ℕ}
    (h : (previous :: selected).Pairwise (· < ·)) :
    parseCells (cells.drop (previous + 1)) previous selected =
      (selected.map fun c => cells[c]?.bind cellValue : List (Option F)) := by
  induction selected generalizing previous with
  | nil => rfl
  | cons c selected ih =>
    obtain ⟨hprevious, hrest⟩ := List.pairwise_cons.mp h
    have hlt : previous < c := hprevious c List.mem_cons_self
    have hskip : (cells.drop (previous + 1)).drop (c - previous - 1) = cells.drop c := by
      rw [List.drop_drop]
      congr 1
      omega
    rw [parseCells, hskip, List.drop_drop, ih hrest, List.map_cons, List.head?_drop]

theorem parseColumns_eq {row : List Char} {t : F} (ht : rowTime row = some t) {selected : List ℕ}
    (h : (0 :: selected).Pairwise (· < ·)) :
    parseColumns row (0 :: selected) t = (0 :: selected).map (shownCell row) := by
  have hcells := parseCells_eq (F := F) (row.splitOn '\t') h
  simp only [bind_cellValue] at hcells
  rw [List.map_cons, ← rowTime_eq, ht]
  exact congrArg (some t :: ·) hcells

/-! ## Rows -/

theorem Rows.line_eq_ok {s s' : Rows F} {line : List UInt8} (h : s.line line = .ok s') :
    ∃ text, decodeLine line = .ok text ∧ s' = {
      position := s.position + line.length
      rows := s.rows + if isRow (trimLineEnd text) then 1 else 0
      entries := s.entries ++ if isRow (trimLineEnd text) then
        (rowTime (trimLineEnd text)).toList.map (s.position, ·) else [] } := by
  rw [Rows.line] at h
  cases htext : decodeLine line with
  | error e =>
    rw [htext] at h
    cases h
  | ok text =>
    refine ⟨text, rfl, ?_⟩
    simp only [htext, bind, Except.bind] at h
    cases hrow : isRow (trimLineEnd text) with
    | false =>
      have hskip : isSkipped (trimLineEnd text) = true := (Bool.not_eq_false' _).mp hrow
      rw [if_pos hskip] at h
      rw [← Except.ok.inj h]
      simp
    | true =>
      have hskip : isSkipped (trimLineEnd text) = false := (Bool.not_eq_true' _).mp hrow
      rw [if_neg (Bool.eq_false_iff.mp hskip)] at h
      cases ht : rowTime (F := F) (trimLineEnd text) with
      | none =>
        rw [ht] at h
        rw [← Except.ok.inj h]
        simp
      | some t =>
        rw [ht] at h
        rw [← Except.ok.inj h]
        simp

/-- The row stands at the offset of the entry, and its time is the entry's. -/
def File.EntryOf (f : File) (e : ℕ × F) (row : List Char) : Prop :=
  rowAt f e.1 = .ok row ∧ rowTime row = some e.2

def rowsOf (lines : List (List Char)) : List (List Char) := (lines.map trimLineEnd).filter isRow

theorem rowsOf_cons (l : List Char) (lines : List (List Char)) :
    rowsOf (l :: lines) = (if isRow (trimLineEnd l) then [trimLineEnd l] else []) ++ rowsOf lines := by
  rw [rowsOf, List.map_cons, List.filter_cons]
  split_ifs <;> rfl

variable (F) in
/-- A row whose first cell is a finite number. -/
def hasTime (row : List Char) : Bool := (shownCell row 0 : Option F).isSome

theorem hasTime_eq (row : List Char) : hasTime F row = (rowTime row : Option F).isSome := by
  rw [hasTime, rowTime_eq]

/-- **What a scan finds of the lines of a text**: their rows, and an entry of each that has a time. -/
theorem Rows.run_texts {lines rows : List (List Char)} {s s' : Rows F}
    (hlines : Reader.readLines (f.bytes.drop s.position) = lines.map Text.utf8Encode)
    (hrows : List.Forall₂ f.EntryOf s.entries rows)
    (h : (lines.map Text.utf8Encode).foldlM Rows.line s = .ok s') :
    s'.rows = s.rows + (rowsOf lines).length ∧
      List.Forall₂ f.EntryOf s'.entries (rows ++ (rowsOf lines).filter (hasTime F)) := by
  induction lines generalizing s rows with
  | nil =>
    obtain rfl := Except.ok.inj h
    exact ⟨rfl, by simpa [rowsOf] using hrows⟩
  | cons l lines ih =>
    obtain ⟨s₁, hs₁, h⟩ := except_bind_eq_ok.mp h
    obtain ⟨text, htext, rfl⟩ := Rows.line_eq_ok hs₁
    obtain rfl := Except.ok.inj ((decodeLine_utf8Encode l).symm.trans htext)
    obtain ⟨rest, hline, hbytes, hrest⟩ := Reader.readLines_eq_cons hlines
    have hread : rowAt f s.position = .ok (trimLineEnd l) := by
      rw [rowAt, hline, htext]
      rfl
    have hnext : Reader.readLines (f.bytes.drop (s.position + (Text.utf8Encode l).length)) =
        lines.map Text.utf8Encode := by
      rw [← List.drop_drop, hbytes, List.drop_left, hrest]
    have hentry : List.Forall₂ f.EntryOf
        (if isRow (trimLineEnd l) then
          (rowTime (F := F) (trimLineEnd l)).toList.map (s.position, ·) else [])
        ((if isRow (trimLineEnd l) then [trimLineEnd l] else []).filter (hasTime F)) := by
      split_ifs
      · cases ht : rowTime (F := F) (trimLineEnd l) with
        | none =>
          rw [List.filter_cons_of_neg (by simp [hasTime_eq, ht])]
          exact .nil
        | some t =>
          rw [List.filter_cons_of_pos (by simp [hasTime_eq, ht])]
          exact .cons ⟨hread, ht⟩ .nil
      · exact .nil
    obtain ⟨hcount, hentries⟩ := ih hnext (List.rel_append hrows hentry) h
    refine ⟨?_, ?_⟩
    · rw [hcount, rowsOf_cons, List.length_append]
      dsimp only
      split_ifs <;> simp [Nat.add_assoc]
    · rwa [rowsOf_cons, List.filter_append, ← List.append_assoc]

/-! ## Columns -/

/-- How many rows have a finite first cell. -/
def timedRows (data : MslData F) : ℕ := (data.columns.getD 0 []).countP fun v => v.any F64.isFinite

/-- Of a column, the cells of the rows whose first cell is finite and in the range; a number that is
not finite is missing. -/
def shownColumn (data : MslData F) (query : Query F) (c : ℕ) : List (Option F) :=
  (((data.columns.getD 0 []).zip (data.columns.getD c [])).filter fun (t, _) =>
    t.any fun t => F64.isFinite t && query.covers t).map fun (_, v) => v.filter F64.isFinite

omit [F64 F] in
theorem pushRow_map {α β : Type} (selected : List α) (g : α → List β) (h : α → β) :
    pushRow (selected.map g) (selected.map h) = selected.map fun c => g c ++ [h c] := by
  induction selected with
  | nil => rfl
  | cons c selected ih => exact congrArg ((g c ++ [h c]) :: ·) ih

omit [F64 F] in
/-- Rows that are pushed make a column of each of their cells. -/
theorem foldl_pushRow {α β : Type} (selected : List α) (rows : List (α → β)) (g : α → List β) :
    (rows.map selected.map).foldl pushRow (selected.map g) =
      selected.map fun c => g c ++ rows.map fun row => row c := by
  induction rows generalizing g with
  | nil => simp
  | cons row rows ih =>
    rw [List.map_cons, List.foldl_cons, pushRow_map, ih]
    simp

/-- The row has a time that the query is about. -/
def Query.coversRow (query : Query F) (row : List Char) : Bool := (rowTime row).any query.covers

/-- The entries a query is about are those of the rows it is about. -/
theorem filter_entries {entries : List (ℕ × F)} {rows : List (List Char)}
    (h : List.Forall₂ f.EntryOf entries rows) {selected : List ℕ}
    (hsel : (0 :: selected).Pairwise (· < ·)) (query : Query F) :
    (entries.filter fun e => query.covers e.2).map (valuesAt f (0 :: selected)) =
      (rows.filter query.coversRow).map fun row => (0 :: selected).map (shownCell row) := by
  induction h with
  | nil => rfl
  | cons hentry _ ih =>
    obtain ⟨hread, ht⟩ := hentry
    rename_i e row entries rows _
    have hcovers : query.coversRow row = query.covers e.2 := by rw [Query.coversRow, ht]; rfl
    have hvalues : valuesAt f (0 :: selected) e = (0 :: selected).map (shownCell row) := by
      rw [valuesAt, hread]
      exact parseColumns_eq ht hsel
    rw [List.filter_cons, List.filter_cons, hcovers]
    split_ifs
    · rw [List.map_cons, List.map_cons, ih, hvalues]
    · exact ih

theorem map_covered (i : Index F) (query : Query F) (g : ℕ × F → List (Option F)) :
    (i.covered query).map (fun e => g e.1) =
      (i.entries.filter fun e => query.covers e.2).map g := by
  have hfst : i.entries = i.entries.zipIdx.map (·.1) := (List.zipIdx_map_fst 0 i.entries).symm
  conv_rhs => rw [hfst, List.filter_map, List.map_map]
  rfl

theorem Shows.columns_few [LawfulF64 F] {c : Index F} {query : Query F} {v : View F}
    (h : Shows path f c query v) (hfew : c.entries.length ≤ fullDetailRows) :
    v.columns = c.rowsColumns f query := by
  cases h with
  | first name hstart hstop hs =>
    have hwhole : query.whole = query := by
      cases query
      simp_all [Query.whole]
    have hfull := c.rowsColumns_full hfew f query
    rw [hwhole] at hfull
    exact ((scanned hs).full hfew).trans hfull.symm
  | rows name => rfl

section Data

variable {data : MslData F} {rows : List (List Char)} {n c : ℕ}

theorem getD_columnsOf (hc : c < n) :
    (columnsOf n rows : List (List (Option F))).getD c [] = rows.map fun row => cellOf row c := by
  rw [List.getD_eq_getElem?_getD, columnsOf, List.getElem?_map, List.getElem?_range hc]
  rfl

theorem timedRows_eq (hdata : data.columns = columnsOf n rows) (hn : 0 < n) :
    timedRows data = (rows.filter (hasTime F)).length := by
  rw [timedRows, hdata, getD_columnsOf hn, List.countP_map, ← List.countP_eq_length_filter]
  refine List.countP_congr fun row _ => ?_
  rw [hasTime, shownCell, Function.comp_apply]
  cases h : (cellOf row 0 : Option F) with
  | none => rfl
  | some t => cases ht : F64.isFinite t <;> simp [Option.filter, ht]

theorem shownColumn_eq (hdata : data.columns = columnsOf n rows) (hc : c < n) (query : Query F) :
    shownColumn data query c =
      ((rows.filter (hasTime F)).filter query.coversRow).map fun row => shownCell row c := by
  have hzip : (data.columns.getD 0 []).zip (data.columns.getD c []) =
      rows.map fun row => ((cellOf row 0 : Option F), (cellOf row c : Option F)) := by
    rw [hdata, getD_columnsOf hc, getD_columnsOf (by omega), List.zip_map']
  rw [shownColumn, hzip, List.filter_map, List.map_map, List.filter_filter]
  refine congrArg (List.map _) (List.filter_congr fun row _ => ?_)
  rw [Function.comp_apply, Query.coversRow, hasTime, rowTime_eq, shownCell]
  cases (cellOf row 0 : Option F) with
  | none => rfl
  | some t => cases ht : F64.isFinite t <;> simp [Option.filter, ht]

end Data

/-- Lines with their ends trimmed are the pieces of the text, but for an empty one at the end, which
is no row. -/
theorem pieces_of_lines {text t l u : List Char} {rest : List (List Char)}
    (h : Text.withEnds (text.splitOn '\n') = t :: l :: u :: rest) :
    ∃ lines, (text.splitOn '\n').map (Text.trimEndWhere (· == '\r')) =
        trimLineEnd t :: trimLineEnd l :: trimLineEnd u :: lines ∧
      lines.filter isRow = rowsOf rest := by
  have hcases := Text.map_splitOn_cases (· == '\r') text
  simp only [h, List.map_cons, List.cons_append] at hcases
  rcases hcases with hcases | hcases
  · exact ⟨_, hcases, rfl⟩
  · refine ⟨rest.map trimLineEnd ++ [[]], hcases, ?_⟩
    rw [List.filter_append]
    exact List.append_nil _

/-- What a scan finds of a text: its header, and an entry to each of its rows that has a time. -/
theorem contents_text {text : List Char} (hbytes : f.bytes = Text.utf8Encode text) {c : Index F}
    (h : contents path f = .ok c) :
    ∃ title labelLine unitsLine lines, (text.splitOn '\n').map (Text.trimEndWhere (· == '\r')) =
        title :: labelLine :: unitsLine :: lines ∧
      c.title = String.ofList title ∧ c.labels = (labelLine.splitOn '\t').map String.ofList ∧
      c.units = (unitsLine.splitOn '\t').map String.ofList ∧
      c.rows = (lines.filter isRow).length ∧
      List.Forall₂ f.EntryOf c.entries ((lines.filter isRow).filter (hasTime F)) := by
  obtain ⟨header, s, hh, hs, rfl⟩ := contents_eq_ok h
  have hlines : Reader.readLines f.bytes = (Text.withEnds (text.splitOn '\n')).map Text.utf8Encode := by
    rw [hbytes, Text.readLines_utf8Encode]
  obtain ⟨t, l, u, rest, htexts, htitle, hlabels, hunits, hrest⟩ := readHeaders_texts hlines hh
  obtain ⟨lines, hpieces, hrows⟩ := pieces_of_lines htexts
  have hafter := (readHeaders_lines hh).1
  rw [hrest] at hafter hs
  obtain ⟨hcount, hentries⟩ := Rows.run_texts hafter .nil hs
  rw [← hrows] at hcount hentries
  exact ⟨_, _, _, lines, hpieces, htitle, hlabels, hunits, hcount.trans (Nat.zero_add _), hentries⟩

/-- The header and the rows of a log that both readers accept. -/
theorem contents_agree {text : List Char} (hbytes : f.bytes = Text.utf8Encode text)
    {data : MslData F} (hdata : readMsl text = .ok data) {c : Index F}
    (h : contents path f = .ok c) :
    c.title = data.title ∧ c.labels = data.labels ∧ c.units = data.units ∧ c.rows = data.rows ∧
      ∃ rows, data.columns = columnsOf data.labels.length rows ∧ 0 < data.labels.length ∧
        List.Forall₂ f.EntryOf c.entries (rows.filter (hasTime F)) := by
  obtain ⟨title, labelLine, unitsLine, lines, hpieces, htitle, hlabels, hunits, hcount, hentries⟩ :=
    contents_text hbytes h
  obtain ⟨title', labelLine', unitsLine', lines', hpieces', htwo, rfl⟩ :=
    Datalog.readMsl_eq_ok.mp hdata
  obtain ⟨rfl, rfl, rfl, rfl⟩ : title = title' ∧ labelLine = labelLine' ∧
      unitsLine = unitsLine' ∧ lines = lines' := by simpa using hpieces.symm.trans hpieces'
  refine ⟨htitle, hlabels, hunits, hcount, lines.filter isRow, ?_, ?_, hentries⟩
  · rw [List.length_map]
  · rw [List.length_map]
    omega

/-- **The two readers agree.** -/
theorem views_agree [LawfulF64 F] {text : List Char} (hbytes : f.bytes = Text.utf8Encode text)
    {data : MslData F} (hdata : readMsl text = .ok data) {name₀ : String} {query₀ : Query F}
    {i : Index F} (hbuild : Index.build path f name₀ query₀ = .ok i) :
    i.title = data.title ∧ i.labels = data.labels ∧ i.units = data.units ∧ i.rows = data.rows ∧
      ∀ (codec : Codec F J) (s : Caches F J), s.Of codec path f →
        ∀ fs : String → Except String File, fs path = .ok f →
        ∀ (writable : Bool) (name : String) (query : Query F), ∃ view,
          (load fs codec writable s path name query).1 = .ok view ∧
          view.title = data.title ∧ view.labels = data.labels ∧ view.units = data.units ∧
          view.rows = data.rows ∧
          view.columnLabels = (query.wanted data.labels).map (data.labels.getD · "") ∧
          (timedRows data ≤ fullDetailRows →
            view.columns = (query.wanted data.labels).map (shownColumn data query)) := by
  have hof := of_build hbuild
  obtain ⟨htitle, hlabels, hunits, hcount, rows, hcolumns, hn, hentries⟩ :=
    contents_agree hbytes hdata hof.contents
  refine ⟨htitle, hlabels, hunits, hcount, fun codec s hs fs hfs writable name query => ?_⟩
  obtain ⟨view, hload, -, hshows⟩ := hs.load hfs hof.contents writable name query
  have hselected : selectedColumns ({ i with views := [] } : Index F).labels query.normal =
      query.wanted data.labels := by
    rw [hlabels]
    exact selectedColumns_eq data.labels query
  have hview : view.title = i.title ∧ view.labels = i.labels ∧ view.units = i.units ∧
      view.rows = i.rows ∧ view.columnLabels =
        (selectedColumns i.labels query.normal).map fun c => i.labels.getD c "" := by
    cases hshows with
    | first => exact ⟨rfl, rfl, rfl, rfl, rfl⟩
    | rows => exact ⟨rfl, rfl, rfl, rfl, rfl⟩
  obtain ⟨hviewTitle, hviewLabels, hviewUnits, hviewRows, hcolumnLabels⟩ := hview
  refine ⟨view, hload, hviewTitle.trans htitle, hviewLabels.trans hlabels, hviewUnits.trans hunits,
    hviewRows.trans hcount, ?_, fun hfew => ?_⟩
  · rw [hcolumnLabels, ← hselected, ← hlabels]
  rw [timedRows_eq hcolumns hn, ← hentries.length_eq] at hfew
  have hsorted := query.pairwise_wanted data.labels
  have hin : ∀ c ∈ query.wanted data.labels, c < data.labels.length :=
    fun c hc => Query.lt_of_mem_wanted (List.length_pos_iff.mp hn) hc
  rw [hshows.columns_few hfew, Index.rowsColumns_few hfew, map_covered, hselected]
  rw [Query.wanted] at hsorted hin ⊢
  generalize ((List.range data.labels.length).drop 1).filter _ = rest at hsorted hin ⊢
  rw [filter_entries hentries hsorted, ← List.map_const']
  have hcells := foldl_pushRow (0 :: rest)
    (((rows.filter (hasTime F)).filter query.coversRow).map fun row => shownCell (F := F) row)
    fun _ => []
  rw [List.map_map] at hcells
  refine hcells.trans (List.map_congr_left fun c hc => ?_)
  rw [shownColumn_eq hcolumns (hin c hc), List.nil_append, List.map_map]
  rfl

/-- A log with a mark, a short row and a cell that is no number. -/
def markedText : List Char := "t\r\nTime\tRPM\tRPM\ns\t\t\r\n0\t900\tx\nMARK 1\n\n1\r\n".toList

def markedLog : File := ⟨Text.utf8Encode markedText, some 0⟩

def rpmQuery : Query XRat := ⟨some 0, none, some "RPM", none⟩

theorem views_agree_marked : ∃ (data : MslData XRat) (i : Index XRat), readMsl markedText = .ok data ∧
    Index.build "log.msl" markedLog "log" rpmQuery = .ok i ∧ i.rows = data.rows ∧
    ∃ view, (load (fun _ => .ok markedLog) plainCodec true .empty "log.msl" "log" rpmQuery).1 =
        .ok view ∧
      view.columnLabels = (rpmQuery.wanted data.labels).map (data.labels.getD · "") ∧
      view.columns = (rpmQuery.wanted data.labels).map (shownColumn data rpmQuery) := by
  have hread : (match readMsl (F := XRat) markedText with
      | .ok data => decide (timedRows data ≤ fullDetailRows)
      | .error _ => false) = true := by decide +kernel
  have hscan : (Index.build "log.msl" markedLog "log" rpmQuery).isOk = true := by decide +kernel
  cases hdata : readMsl (F := XRat) markedText with
  | error e =>
    rw [hdata] at hread
    exact nomatch hread
  | ok data =>
    rw [hdata] at hread
    cases hbuild : Index.build "log.msl" markedLog "log" rpmQuery with
    | error e =>
      rw [hbuild] at hscan
      exact nomatch hscan
    | ok i =>
      obtain ⟨-, -, -, hrows, hviews⟩ := views_agree rfl hdata hbuild
      obtain ⟨view, hload, -, -, -, -, hlabels, hcolumns⟩ := hviews plainCodec .empty
        (caches_of_empty plainCodec "log.msl" markedLog) (fun _ => .ok markedLog) rfl true "log" rpmQuery
      exact ⟨data, i, rfl, rfl, hrows, view, hload, hlabels, hcolumns (of_decide_eq_true hread)⟩

end RustyTune.Server.LogView
