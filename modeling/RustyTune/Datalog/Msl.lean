import RustyTune.Lib.Lines
import RustyTune.Lib.XRat

/-!
# MegaLogViewer logs

A log has three header lines, its title, its labels and its units, and then a row to a line; lines end
in CRLF, cells are separated by tabs.

* `CellFormat`, `Column`, `MslWriter`: a log as it is recorded.
* `MslData`, `readMsl`: a log as it is read; **`readMsl_eq_ok`**: what is read of the lines.
-/

namespace RustyTune.Datalog

/-! ## Writing -/

/-- How a cell is rendered. -/
inductive CellFormat
  /-- `"%d"`: rounded. -/
  | int
  /-- `"%.3f"`: with decimals. -/
  | fixed (decimals : UInt8)
  deriving DecidableEq

/-- `{:.*}`: a number with so many decimals. -/
class DisplayFixed (F : Type) where
  displayFixed : ℕ → F → List Char

/-- Halves go to the even digit; a negative number keeps its sign when it is rounded to zero. -/
instance : DisplayFixed XRat where
  displayFixed
    | p, .fin q =>
      let digits := decimal (XRat.roundEven (q * 10 ^ p)).natAbs p
      if q < 0 then '-' :: digits else digits
    | _, .inf s => if s then "-inf".toList else "inf".toList
    | _, .nan => "NaN".toList

namespace CellFormat

/-- The format of a text; any that is not known is three decimals. -/
def parse (s : List Char) : CellFormat :=
  let s := Text.trim s
  if s.getLast? = some 'd' then .int
  else
    match s with
    | '%' :: '.' :: frac =>
      match (Text.stripSuffix 'f' frac).bind (Text.parseUnsigned 256) with
      | some n => .fixed (UInt8.ofNat n)
      | none => .fixed 3
    | _ => .fixed 3

variable {F : Type} [F64 F] [DisplayFixed F]

def render (format : CellFormat) (v : F) : List Char :=
  match format with
  | .int => (toString (F64.toI64 (F64.round v)).toInt).toList
  | .fixed p => DisplayFixed.displayFixed p.toNat v

end CellFormat

structure Column where
  channel : String
  label : String
  units : String
  format : CellFormat

/-- The log so far, and how many rows it has. -/
structure MslWriter where
  file : List Char
  columns : List Column
  rows : ℕ

/-- `join("\t")`. -/
def joinTabs (cells : List (List Char)) : List Char := ['\t'].intercalate cells

namespace MslWriter

def create (title : String) (columns : List Column) : MslWriter where
  file :=
    title.toList ++ '\r' :: '\n' ::
    joinTabs (columns.map (·.label.toList)) ++ '\r' :: '\n' ::
    joinTabs (columns.map (·.units.toList)) ++ ['\r', '\n']
  columns
  rows := 0

variable {F : Type} [F64 F] [DisplayFixed F]

/-- With the `i`-th cell of a row; no value leaves it empty. -/
def pushCell (line : List Char) (cell : (Option F × Column) × ℕ) : List Char :=
  let ((v, col), i) := cell
  let line := if 0 < i then line ++ ['\t'] else line
  match v with
  | some v => line ++ col.format.render v
  | none => line

def writeRow (w : MslWriter) (values : List (Option F)) : MslWriter :=
  let line := (values.zip w.columns).zipIdx.foldl pushCell []
  { w with file := w.file ++ (line ++ ['\r', '\n']), rows := w.rows + 1 }

end MslWriter

/-! ## Reading -/

/-- A log by its columns; a cell that is no number is `none`. -/
structure MslData (F : Type) where
  title : String
  labels : List String
  units : List String
  rows : ℕ
  columns : List (List (Option F))

variable {F : Type} [F64 F]

def parseCell (cell : List Char) : Option F := F64.parse (String.ofList (Text.trim cell))

/-- A cell for each column, or none where the row is short. -/
def pushCells : List (List (Option F)) → List (List Char) → List (List (Option F))
  | [], _ => []
  | col :: columns, cells =>
    (col ++ [cells.head?.bind parseCell]) :: pushCells columns (cells.drop 1)

/-- The next line: empty ones and annotations are no rows. -/
def readRow (s : List (List (Option F)) × ℕ) (line : List Char) : List (List (Option F)) × ℕ :=
  if line.isEmpty || "MARK".toList.isPrefixOf line then s
  else (pushCells s.1 (line.splitOn '\t'), s.2 + 1)

def readMsl (text : List Char) : Except String (MslData F) :=
  match (text.splitOn '\n').map (Text.trimEndWhere (· == '\r')) with
  | [] => .error "empty file"
  | [_] => .error "missing label line"
  | title :: labelLine :: lines =>
    let labels := (labelLine.splitOn '\t').map String.ofList
    if labels.length < 2 then .error "not an MSL file (no tab-separated labels)"
    else
      match lines with
      | [] => .error "missing units line"
      | unitsLine :: lines =>
        let (columns, rows) := lines.foldl readRow (List.replicate labels.length [], 0)
        .ok {
          title := String.ofList title
          labels
          units := (unitsLine.splitOn '\t').map String.ofList
          rows
          columns }

/-! ## What is read -/

/-- A line that is a row. -/
def isRow (line : List Char) : Bool := !(line.isEmpty || "MARK".toList.isPrefixOf line)

/-- The cell of a row in a column. -/
def cellOf (row : List Char) (c : ℕ) : Option F := (row.splitOn '\t')[c]?.bind parseCell

def columnsOf (n : ℕ) (rows : List (List Char)) : List (List (Option F)) :=
  (List.range n).map fun c => rows.map fun row => cellOf row c

theorem pushCells_eq (columns : List (List (Option F))) (cells : List (List Char)) :
    pushCells columns cells = columns.mapIdx fun c col => col ++ [cells[c]?.bind parseCell] := by
  induction columns generalizing cells with
  | nil => rfl
  | cons col columns ih =>
    rw [pushCells, ih, List.mapIdx_cons, List.head?_eq_getElem?]
    simp only [List.getElem?_drop, Nat.add_comm 1]

theorem pushCells_columnsOf (n : ℕ) (rows : List (List Char)) (row : List Char) :
    pushCells (columnsOf n rows) (row.splitOn '\t') =
      (columnsOf n (rows ++ [row]) : List (List (Option F))) := by
  rw [pushCells_eq, columnsOf, columnsOf]
  refine List.ext_getElem (by simp) fun c h _ => ?_
  simp [cellOf]

theorem foldl_readRow (n : ℕ) (rows lines : List (List Char)) :
    lines.foldl readRow ((columnsOf n rows : List (List (Option F))), rows.length) =
      (columnsOf n (rows ++ lines.filter isRow), (rows ++ lines.filter isRow).length) := by
  induction lines generalizing rows with
  | nil => simp
  | cons line lines ih =>
    rw [List.foldl_cons, readRow]
    cases hrow : isRow line with
    | false =>
      have hskip := (Bool.not_eq_false' _).mp hrow
      rw [if_pos hskip, List.filter_cons_of_neg (Bool.eq_false_iff.mp hrow)]
      exact ih rows
    | true =>
      have hskip := Bool.eq_false_iff.mp ((Bool.not_eq_true' _).mp hrow)
      have hnext := ih (rows ++ [line])
      rw [List.append_assoc, List.length_append] at hnext
      rw [if_neg hskip, List.filter_cons_of_pos hrow, pushCells_columnsOf]
      exact hnext

/-- **What is read**: the three header lines, and the cells of the lines that are rows. -/
theorem readMsl_eq_ok {text : List Char} {data : MslData F} : readMsl text = .ok data ↔
    ∃ title labelLine unitsLine lines,
      (text.splitOn '\n').map (Text.trimEndWhere (· == '\r')) =
        title :: labelLine :: unitsLine :: lines ∧
      2 ≤ (labelLine.splitOn '\t').length ∧
      data = {
        title := String.ofList title
        labels := (labelLine.splitOn '\t').map String.ofList
        units := (unitsLine.splitOn '\t').map String.ofList
        rows := (lines.filter isRow).length
        columns := columnsOf (labelLine.splitOn '\t').length (lines.filter isRow) } := by
  rw [readMsl]
  generalize (text.splitOn '\n').map (Text.trimEndWhere (· == '\r')) = pieces
  match pieces with
  | [] => simp
  | [_] => simp
  | title :: labelLine :: lines =>
    dsimp only
    rw [List.length_map]
    split_ifs with hlabels
    · refine iff_of_false (fun h => nomatch h) ?_
      rintro ⟨_, _, _, _, hpieces, hle, -⟩
      obtain ⟨-, hpieces⟩ := List.cons.inj hpieces
      rw [← (List.cons.inj hpieces).1] at hle
      omega
    · match lines with
      | [] => simp
      | unitsLine :: lines =>
        have hstart : List.replicate (labelLine.splitOn '\t').length ([] : List (Option F)) =
            columnsOf (labelLine.splitOn '\t').length [] := by
          simp [columnsOf, List.map_const']
        have hfold := foldl_readRow (F := F) (labelLine.splitOn '\t').length [] lines
        rw [List.length_nil, List.nil_append] at hfold
        dsimp only
        rw [hstart, hfold]
        constructor
        · intro h
          exact ⟨title, labelLine, unitsLine, lines, rfl, by omega, (Except.ok.inj h).symm⟩
        · rintro ⟨_, _, _, _, hpieces, -, rfl⟩
          simp only [List.cons.injEq] at hpieces
          obtain ⟨rfl, rfl, rfl, rfl⟩ := hpieces
          rfl

end RustyTune.Datalog
