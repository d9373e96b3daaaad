import RustyTune.Datalog.Msl
import RustyTune.Lib.Nearest
import RustyTune.Lib.Numerals

/-!
# A recorded log, read back

* `flatMap_crlf_splitOn`: the lines of a log come apart. `line_eq`: a row is its cells with tabs
  between them.
* `CellFormat.kept`: what a rendered number reads back as; `parseCell_render`.
* **`readMsl_recorded`**: all that is read of a log that was recorded.
* **`recorded_readsBack_iff`**: it is what was recorded just where the whole numbers are in the range
  of 64 bits; `wide_lost`: another is lost.
-/

namespace RustyTune.Datalog

/-! ## Lines and rows -/

/-- Cells without tabs and line ends. -/
def Plain (s : List Char) : Prop := '\t' ∉ s ∧ '\n' ∉ s ∧ '\r' ∉ s

instance (s : List Char) : Decidable (Plain s) := inferInstanceAs (Decidable (_ ∧ _))

theorem intercalate_cons {α : Type} (sep : α) (x : List α) (xs : List (List α)) :
    [sep].intercalate (x :: xs) = x ++ xs.flatMap (sep :: ·) := by
  induction xs generalizing x with
  | nil => simp
  | cons y ys ih => rw [List.intercalate_cons_cons, ih, List.flatMap_cons]; simp

theorem notMem_joinTabs {a : Char} (ha : a ≠ '\t') {cells : List (List Char)}
    (h : ∀ cell ∈ cells, a ∉ cell) : a ∉ joinTabs cells := by
  cases cells with
  | nil => exact List.not_mem_nil
  | cons cell cells =>
    rw [joinTabs, intercalate_cons, List.mem_append, not_or]
    refine ⟨h cell List.mem_cons_self, fun hmem => ?_⟩
    obtain ⟨cell', hcell, hmem⟩ := List.mem_flatMap.mp hmem
    rcases List.mem_cons.mp hmem with rfl | hmem
    · exact ha rfl
    · exact h cell' (List.mem_cons_of_mem _ hcell) hmem

theorem flatMap_crlf_splitOn {lines : List (List Char)} (h : ∀ line ∈ lines, '\n' ∉ line) :
    (lines.flatMap (· ++ ['\r', '\n'])).splitOn '\n' = lines.map (· ++ ['\r']) ++ [[]] := by
  induction lines with
  | nil => rfl
  | cons line lines ih =>
    have hline : '\n' ∉ line ++ ['\r'] := by simpa using h line List.mem_cons_self
    have hfront : line ++ ['\r', '\n'] ++ lines.flatMap (· ++ ['\r', '\n']) =
        (line ++ ['\r']) ++ '\n' :: lines.flatMap (· ++ ['\r', '\n']) := by simp
    rw [List.flatMap_cons, hfront, List.splitOn_append_cons_self_of_not_mem hline,
      ih fun l hl => h l (List.mem_cons_of_mem _ hl), List.map_cons, List.cons_append]

theorem map_trim_crlf {lines : List (List Char)} (h : ∀ line ∈ lines, '\r' ∉ line) :
    (lines.map (· ++ ['\r'])).map (Text.trimEndWhere (· == '\r')) = lines := by
  rw [List.map_map]
  refine (List.map_congr_left fun line hl => ?_).trans (List.map_id lines)
  have hline : ∀ c ∈ line, (c == '\r') = false :=
    fun c hc => beq_eq_false_iff_ne.mpr fun heq => h line hl (heq ▸ hc)
  exact (Text.trimEndWhere_append (by simp) line).trans (Text.trimEndWhere_eq_self hline)

/-- A value in its column, as text. -/
def cellText (e : Option XRat × Column) : List Char := e.1.elim [] e.2.format.render

def rowLine (columns : List Column) (values : List (Option XRat)) : List Char :=
  joinTabs ((values.zip columns).map cellText)

theorem pushCell_eq (line : List Char) (e : Option XRat × Column) (i : ℕ) :
    MslWriter.pushCell line (e, i) = line ++ ((if 0 < i then ['\t'] else []) ++ cellText e) := by
  obtain ⟨v, col⟩ := e
  cases v with
  | none =>
    change (if 0 < i then line ++ ['\t'] else line) = _
    split_ifs <;> simp [cellText]
  | some v =>
    change (if 0 < i then line ++ ['\t'] else line) ++ col.format.render v = _
    split_ifs <;> simp [cellText]

theorem foldl_pushCell (cells : List (Option XRat × Column)) (line : List Char) (i : ℕ) :
    (cells.zipIdx (i + 1)).foldl MslWriter.pushCell line =
      line ++ (cells.map cellText).flatMap ('\t' :: ·) := by
  induction cells generalizing line i with
  | nil => simp
  | cons e cells ih =>
    rw [List.zipIdx_cons, List.foldl_cons, pushCell_eq, ih, if_pos (Nat.succ_pos i)]
    simp

theorem line_eq (cells : List (Option XRat × Column)) :
    cells.zipIdx.foldl MslWriter.pushCell [] = joinTabs (cells.map cellText) := by
  cases cells with
  | nil => rfl
  | cons e cells =>
    rw [List.zipIdx_cons, List.foldl_cons, pushCell_eq, foldl_pushCell, if_neg (Nat.lt_irrefl 0),
      List.map_cons, joinTabs, intercalate_cons]
    rfl

theorem writeRow_eq (w : MslWriter) (values : List (Option XRat)) : w.writeRow values =
    { w with
      file := w.file ++ (rowLine w.columns values ++ ['\r', '\n'])
      rows := w.rows + 1 } := by
  have hline := line_eq (values.zip w.columns)
  rw [rowLine, ← hline]
  rfl

theorem foldl_writeRow (rows : List (List (Option XRat))) (w : MslWriter) :
    rows.foldl MslWriter.writeRow w =
      { w with
        file := w.file ++ (rows.map (rowLine w.columns)).flatMap (· ++ ['\r', '\n'])
        rows := w.rows + rows.length } := by
  induction rows generalizing w with
  | nil => simp
  | cons row rows ih =>
    rw [List.foldl_cons, writeRow_eq, ih]
    simp [Nat.add_assoc, Nat.add_comm 1]

/-! ## Cells -/

namespace CellFormat

def rounded : CellFormat → ℚ → ℚ
  | .int, q => XRat.roundAway q
  | .fixed p, q => XRat.roundEven (q * 10 ^ p.toNat) / 10 ^ p.toNat

/-- What a rendered number reads back as: a whole number ends with the range of 64 bits. -/
def kept : CellFormat → ℚ → ℚ
  | .int, q => (max (-2 ^ 63) (min (XRat.roundAway q) (2 ^ 63 - 1)) : ℤ)
  | .fixed p, q => XRat.roundEven (q * 10 ^ p.toNat) / 10 ^ p.toNat

end CellFormat

theorem render_eq (format : CellFormat) (q : ℚ) :
    ∃ negative n k, format.render (XRat.fin q) = signed negative n k ∧
      (if negative then -((n : ℚ) / 10 ^ k) else n / 10 ^ k) = format.kept q := by
  cases format with
  | int =>
    have htext : CellFormat.int.render (XRat.fin q) =
        (toString (max (-2 ^ 63) (min (XRat.roundAway q) (2 ^ 63 - 1)))).toList := by
      rw [← toInt_toI64]
      rfl
    refine ⟨_, _, 0, htext.trans (toList_toString _), ?_⟩
    rw [signed_value 0 (fun h => (of_decide_eq_true h).le) fun h => not_lt.mp (of_decide_eq_false h),
      pow_zero, div_one]
    rfl
  | fixed p =>
    refine ⟨decide (q < 0), _, p.toNat, ?_, signed_value _ (fun h => ?_) fun h => ?_⟩
    · rw [signed]
      simp only [decide_eq_true_eq]
      rfl
    · exact roundEven_nonpos (mul_nonpos_of_nonpos_of_nonneg (of_decide_eq_true h).le (by positivity))
    · exact roundEven_nonneg (mul_nonneg (not_lt.mp (of_decide_eq_false h)) (by positivity))

theorem parseCell_render (format : CellFormat) (q : ℚ) :
    parseCell (format.render (XRat.fin q)) = some (XRat.fin (format.kept q)) := by
  obtain ⟨negative, n, k, hrender, hkept⟩ := render_eq format q
  rw [parseCell, hrender, trim_eq_self fun c hc => isNumeral_signed hc, ← hkept]
  exact parse_signed negative n k

theorem isNumeral_cellText {v : Option ℚ} {col : Column} {c : Char}
    (h : c ∈ cellText (v.map .fin, col)) : isNumeral c = true := by
  cases v with
  | none => exact nomatch h
  | some q =>
    obtain ⟨negative, n, k, hrender, -⟩ := render_eq col.format q
    have h : c ∈ col.format.render (XRat.fin q) := h
    rw [hrender] at h
    exact isNumeral_signed h

theorem parseCell_cellText (v : Option ℚ) (col : Column) :
    parseCell (cellText (v.map .fin, col)) = v.map fun q => XRat.fin (col.format.kept q) := by
  cases v with
  | none => rfl
  | some q => exact parseCell_render col.format q

/-! ## Reading back -/

/-- The text of a log that is recorded. -/
def recorded (title : String) (columns : List Column) (rows : List (List (Option ℚ))) : List Char :=
  ((rows.map (·.map (Option.map XRat.fin))).foldl MslWriter.writeRow
    (MslWriter.create title columns)).file

/-- A header without tabs and line ends, and rows of a value or none for each column. -/
structure Recordable (title : String) (columns : List Column) (rows : List (List (Option ℚ))) :
    Prop where
  title : '\n' ∉ title.toList ∧ '\r' ∉ title.toList
  two : 2 ≤ columns.length
  header : ∀ col ∈ columns, Plain col.label.toList ∧ Plain col.units.toList
  rows : ∀ row ∈ rows, row.length = columns.length

section Rows

variable {columns : List Column} {row : List (Option ℚ)}

/-- The cells of a row as text. -/
def rowCells (columns : List Column) (row : List (Option ℚ)) : List (List Char) :=
  ((row.map (Option.map XRat.fin)).zip columns).map cellText

theorem rowCells_eq (columns : List Column) (row : List (Option ℚ)) :
    rowCells columns row = (row.zip columns).map fun e => cellText (e.1.map XRat.fin, e.2) := by
  rw [rowCells, List.zip_map_left, List.map_map]
  rfl

theorem isNumeral_rowCells {cell : List Char} (h : cell ∈ rowCells columns row) :
    ∀ c ∈ cell, isNumeral c = true := by
  rw [rowCells_eq] at h
  obtain ⟨e, -, rfl⟩ := List.mem_map.mp h
  exact fun c hc => isNumeral_cellText hc

theorem notMem_rowCells {a : Char} (ha : isNumeral a = false) :
    ∀ cell ∈ rowCells columns row, a ∉ cell :=
  fun _ hcell hmem => absurd (isNumeral_rowCells hcell a hmem) (by rw [ha]; exact Bool.false_ne_true)

theorem length_rowCells (h : row.length = columns.length) :
    (rowCells columns row).length = columns.length := by
  rw [rowCells_eq, List.length_map, List.length_zip, h, Nat.min_self]

theorem joinTabs_splitOn {cells : List (List Char)} (hne : cells ≠ [])
    (h : ∀ cell ∈ cells, '\t' ∉ cell) : (joinTabs cells).splitOn '\t' = cells :=
  List.splitOn_intercalate '\t' h hne

theorem isRow_joinTabs {cells : List (List Char)} (h2 : 2 ≤ cells.length)
    (h : ∀ cell ∈ cells, 'M' ∉ cell) : isRow (joinTabs cells) = true := by
  match cells with
  | first :: second :: rest =>
    rw [joinTabs, List.intercalate_cons_cons]
    cases first with
    | nil => rfl
    | cons c first =>
      have hc : ('M' == c) = false :=
        beq_eq_false_iff_ne.mpr fun heq => h _ List.mem_cons_self (heq ▸ List.mem_cons_self)
      change (!(false || ('M' == c && _))) = true
      rw [hc]
      rfl

/-- **A row reads back.** -/
theorem cellOf_row (h : row.length = columns.length) (h2 : 2 ≤ columns.length) (c : ℕ) :
    (cellOf (joinTabs (rowCells columns row)) c : Option XRat) =
      ((row.zip columns)[c]?).bind fun e => e.1.map fun q => XRat.fin (e.2.format.kept q) := by
  have hne : rowCells columns row ≠ [] := by
    intro hnil
    have hlen := length_rowCells h
    rw [hnil, List.length_nil] at hlen
    omega
  rw [cellOf, joinTabs_splitOn hne (notMem_rowCells rfl), rowCells_eq, List.getElem?_map]
  cases (row.zip columns)[c]? with
  | none => rfl
  | some e => exact parseCell_cellText e.1 e.2

end Rows

section Recorded

variable {title : String} {columns : List Column} {rows : List (List (Option ℚ))}

theorem recorded_eq (title : String) (columns : List Column) (rows : List (List (Option ℚ))) :
    recorded title columns rows =
      (title.toList :: joinTabs (columns.map (·.label.toList)) ::
        joinTabs (columns.map (·.units.toList)) ::
        rows.map fun row => joinTabs (rowCells columns row)).flatMap (· ++ ['\r', '\n']) := by
  rw [recorded, foldl_writeRow, List.map_map]
  simp only [MslWriter.create, List.flatMap_cons, List.append_assoc, List.cons_append,
    List.nil_append]
  rfl

theorem header_line {a : Char} (ha : a ≠ '\t') {text : Column → String}
    (h : ∀ col ∈ columns, a ∉ (text col).toList) :
    a ∉ joinTabs (columns.map fun col => (text col).toList) := by
  refine notMem_joinTabs ha fun cell hcell => ?_
  obtain ⟨col, hcol, rfl⟩ := List.mem_map.mp hcell
  exact h col hcol

theorem header_splitOn (hne : columns ≠ []) {text : Column → String}
    (h : ∀ col ∈ columns, '\t' ∉ (text col).toList) :
    (joinTabs (columns.map fun col => (text col).toList)).splitOn '\t' =
      columns.map fun col => (text col).toList := by
  refine joinTabs_splitOn (by simpa using hne) fun cell hcell => ?_
  obtain ⟨col, hcol, rfl⟩ := List.mem_map.mp hcell
  exact h col hcol

theorem notMem_lines (h : Recordable title columns rows) {a : Char} (ha : a = '\n' ∨ a = '\r') :
    ∀ line ∈ title.toList :: joinTabs (columns.map (·.label.toList)) ::
      joinTabs (columns.map (·.units.toList)) ::
      rows.map fun row => joinTabs (rowCells columns row), a ∉ line := by
  have htab : a ≠ '\t' := by rcases ha with rfl | rfl <;> decide
  have hplain : ∀ s, Plain s → a ∉ s := by
    rintro s ⟨-, hn, hr⟩
    rcases ha with rfl | rfl
    exacts [hn, hr]
  intro line hline
  simp only [List.mem_cons, List.mem_map] at hline
  rcases hline with rfl | rfl | rfl | ⟨row, -, rfl⟩
  · rcases ha with rfl | rfl
    exacts [h.title.1, h.title.2]
  · exact header_line htab fun col hcol => hplain _ (h.header col hcol).1
  · exact header_line htab fun col hcol => hplain _ (h.header col hcol).2
  · exact notMem_joinTabs htab (notMem_rowCells (by rcases ha with rfl | rfl <;> rfl))

/-- **What is read of a log that was recorded.** -/
theorem readMsl_recorded (h : Recordable title columns rows) :
    readMsl (recorded title columns rows) = .ok {
      title
      labels := columns.map (·.label)
      units := columns.map (·.units)
      rows := rows.length
      columns := (List.range columns.length).map fun c => rows.map fun row =>
        ((row.zip columns)[c]?).bind fun e => e.1.map fun q => XRat.fin (e.2.format.kept q) } := by
  have hne : columns ≠ [] := by
    rintro rfl
    exact absurd h.two (by decide)
  have hlabels := header_splitOn hne fun col hcol => (h.header col hcol).1.1
  have hunits := header_splitOn hne fun col hcol => (h.header col hcol).2.1
  have hrows : ((rows.map fun row => joinTabs (rowCells columns row)) ++ [[]]).filter isRow =
      rows.map fun row => joinTabs (rowCells columns row) := by
    have hall : ∀ line ∈ rows.map fun row => joinTabs (rowCells columns row), isRow line = true := by
      intro line hline
      obtain ⟨row, hrow, rfl⟩ := List.mem_map.mp hline
      exact isRow_joinTabs (by rw [length_rowCells (h.rows row hrow)]; exact h.two)
        (notMem_rowCells rfl)
    rw [List.filter_append, List.filter_eq_self.mpr hall]
    exact List.append_nil _
  have hpieces : ((recorded title columns rows).splitOn '\n').map (Text.trimEndWhere (· == '\r')) =
      title.toList :: joinTabs (columns.map (·.label.toList)) ::
        joinTabs (columns.map (·.units.toList)) ::
        ((rows.map fun row => joinTabs (rowCells columns row)) ++ [[]]) := by
    rw [recorded_eq, flatMap_crlf_splitOn (notMem_lines h (.inl rfl)), List.map_append,
      map_trim_crlf (notMem_lines h (.inr rfl))]
    rfl
  refine readMsl_eq_ok.mpr ⟨_, _, _, _, hpieces, ?_, ?_⟩
  · rw [hlabels, List.length_map]
    exact h.two
  · rw [hlabels, hunits, hrows, List.length_map, List.length_map, columnsOf]
    simp only [List.map_map, String.ofList_toList, Function.comp_def]
    refine congrArg (MslData.mk _ _ _ _) ?_
    refine List.map_congr_left fun c _ => List.map_congr_left fun row hrow => ?_
    exact (cellOf_row (h.rows row hrow) h.two c).symm

/-- The log reads back as it was recorded. -/
structure ReadsBack (title : String) (columns : List Column) (rows : List (List (Option ℚ)))
    (data : MslData XRat) : Prop where
  title : data.title = title
  labels : data.labels = columns.map (·.label)
  units : data.units = columns.map (·.units)
  cells : ∀ (i : ℕ) (row) (j : ℕ) (v col), rows[i]? = some row → row[j]? = some v → columns[j]? = some col →
    ∃ column, data.columns[j]? = some column ∧
      column[i]? = some (v.map fun q => .fin (col.format.rounded q))
  rows : data.rows = rows.length

theorem recorded_cell {i j : ℕ} {row : List (Option ℚ)} {v : Option ℚ} {col : Column}
    (hi : rows[i]? = some row) (hj : row[j]? = some v) (hcol : columns[j]? = some col) :
    ∃ column, ((List.range columns.length).map fun c => rows.map fun row =>
        ((row.zip columns)[c]?).bind fun e => e.1.map fun q => XRat.fin (e.2.format.kept q))[j]? =
          some column ∧
      column[i]? = some (v.map fun q => .fin (col.format.kept q)) := by
  have hlt := (List.getElem?_eq_some_iff.mp hcol).1
  refine ⟨_, by rw [List.getElem?_map, List.getElem?_range hlt]; rfl, ?_⟩
  have hzip : (row.zip columns)[j]? = some (v, col) :=
    List.getElem?_zip_eq_some.mpr ⟨hj, hcol⟩
  rw [List.getElem?_map, hi, Option.map_some, hzip]
  rfl

/-- A number is kept unless it is a whole number out of range. -/
theorem kept_eq_rounded_iff (format : CellFormat) (q : ℚ) : format.kept q = format.rounded q ↔
    (format = .int → -2 ^ 63 ≤ XRat.roundAway q ∧ XRat.roundAway q < 2 ^ 63) := by
  cases format with
  | int =>
    refine Int.cast_inj.trans ⟨fun h _ => by omega, fun h => ?_⟩
    have := h rfl
    omega
  | fixed p => exact iff_of_true rfl fun h => nomatch h

/-- **A log reads back as it was recorded just where the numbers of its `%d` columns are in the range
of 64 bits.** -/
theorem recorded_readsBack_iff (h : Recordable title columns rows) :
    (∃ data, readMsl (recorded title columns rows) = .ok data ∧ ReadsBack title columns rows data) ↔
      ∀ row ∈ rows, ∀ (j : ℕ) (q col), row[j]? = some (some q) → columns[j]? = some col →
        col.format = .int → -2 ^ 63 ≤ XRat.roundAway q ∧ XRat.roundAway q < 2 ^ 63 := by
  constructor
  · rintro ⟨data, hread, hback⟩ row hrow j q col hj hcol
    obtain rfl := Except.ok.inj ((readMsl_recorded h).symm.trans hread)
    obtain ⟨i, hi⟩ := List.getElem?_of_mem hrow
    obtain ⟨column, hcolumn, hcell⟩ := recorded_cell hi hj hcol
    obtain ⟨column', hcolumn', hcell'⟩ := hback.cells i row j _ col hi hj hcol
    obtain rfl := Option.some.inj (hcolumn.symm.trans hcolumn')
    have hq := XRat.fin.inj (Option.some.inj (Option.some.inj (hcell.symm.trans hcell')))
    exact (kept_eq_rounded_iff _ _).mp hq
  · intro hrange
    refine ⟨_, readMsl_recorded h, rfl, rfl, rfl, ?_, rfl⟩
    intro i row j v col hi hj hcol
    obtain ⟨column, hcolumn, hcell⟩ := recorded_cell hi hj hcol
    refine ⟨column, hcolumn, hcell.trans ?_⟩
    cases v with
    | none => rfl
    | some q =>
      have hkept := (kept_eq_rounded_iff _ _).mpr
        (hrange row (List.mem_of_getElem? hi) j q col hj hcol)
      rw [Option.map_some, Option.map_some, hkept]

end Recorded

/-! ## A number that is lost -/

/-- A time and a whole number. -/
def wideColumns : List Column :=
  [⟨"time", "Time", "sec", .fixed 3⟩, ⟨"ticks", "Ticks", "", .int⟩]

theorem recordable_wide (v : Option ℚ) : Recordable "log" wideColumns [[some 0, v]] where
  title := by decide
  two := by decide
  header := by decide
  rows := by simp [wideColumns]

/-- One row of a time and a small number. -/
theorem recorded_readsBack_small :
    ∃ data, readMsl (recorded "log" wideColumns [[some 0, some (-5 / 2)]]) = .ok data ∧
      ReadsBack "log" wideColumns [[some 0, some (-5 / 2)]] data := by
  refine (recorded_readsBack_iff (recordable_wide _)).mpr ?_
  intro row hrow j q col hj hcol hint
  obtain rfl := List.mem_singleton.mp hrow
  match j with
  | 0 =>
    obtain rfl := Option.some.inj hcol
    exact nomatch hint
  | 1 =>
    obtain rfl := Option.some.inj (Option.some.inj hj)
    decide +kernel
  | j + 2 => exact nomatch hj

/-- **A number that is too wide is lost.** -/
theorem wide_lost : ¬ ∀ (title : String) (columns : List Column) (rows : List (List (Option ℚ))),
    Recordable title columns rows →
      ∃ data, readMsl (recorded title columns rows) = .ok data ∧
        ReadsBack title columns rows data := by
  intro hall
  obtain ⟨data, hread, hback⟩ := hall _ _ _ (recordable_wide (some (10 ^ 19 : ℤ)))
  obtain rfl := Except.ok.inj ((readMsl_recorded (recordable_wide _)).symm.trans hread)
  obtain ⟨column, hcolumn, hcell⟩ := @recorded_cell wideColumns
    [[some 0, some ((10 ^ 19 : ℤ) : ℚ)]] 0 1 _ _ _ rfl rfl rfl
  obtain ⟨column', hcolumn', hcell'⟩ := hback.cells 0 _ 1 _ _ rfl rfl rfl
  obtain rfl := Option.some.inj (hcolumn.symm.trans hcolumn')
  have hq := XRat.fin.inj (Option.some.inj (Option.some.inj (hcell.symm.trans hcell')))
  have hrange := (kept_eq_rounded_iff _ _).mp hq rfl
  rw [roundAway_intCast] at hrange
  omega

end RustyTune.Datalog
