import Mathlib.Data.List.ReduceOption
import Mathlib.Data.List.Sort
import RustyTune.Lib.F64
import RustyTune.Lib.Reader
import RustyTune.Lib.Text
import RustyTune.Lib.Utf8

/-!
# Views of a log

A view of a log file shows its rows, or where there are many a sample of them. The first scan of a
file samples by the place of the rows in it; later queries read the rows again and sample by their
count. What was scanned and shown is kept in memory, and beside the log on the disk.

* `Bucket`: rows of which only the first, the last, the extrema and the first gap of each column are
  kept.
* `Scan`, `Index.scan`, `Index.build`: the first scan. `Index.rowsView`: rows read again.
* `Index.persist`, `Index.restore`: the cache on the disk.
* `load`: the view of a query; `Caches`: what it finds and leaves.
-/

namespace RustyTune.Server.LogView

variable {F : Type}

def fullDetailRows : ℕ := 5000

def cacheVersion : ℕ := 1

structure Query (F : Type) where
  start : Option F
  stop : Option F
  channels : Option String
  points : Option ℕ

structure View (F : Type) where
  name : String
  title : String
  labels : List String
  units : List String
  rows : ℕ
  visibleRows : ℕ
  sampled : Bool
  range : Option (F × F)
  columnLabels : List String
  columns : List (List (Option F))

/-- What is known of a log file; `entries`: where its rows are, and their times. -/
structure Index (F : Type) where
  path : String
  size : ℕ
  modified : Option ℕ
  title : String
  labels : List String
  units : List String
  rows : ℕ
  entries : List (ℕ × F)
  views : List (Query F × View F)

/-- A log file, with the time it was modified if that can be told. -/
structure File where
  bytes : List UInt8
  modified : Option ℕ

/-! ## Buckets -/

structure Sample (F : Type) where
  row : ℕ
  values : List (Option F)

structure Bucket (F : Type) where
  first : Sample F
  last : Sample F
  low : List (Option (Sample F))
  high : List (Option (Sample F))
  gaps : List (Option (Sample F))

/-- A row at the ends of the columns. -/
def pushRow {α : Type} : List (List α) → List α → List (List α)
  | column :: columns, v :: values => (column ++ [v]) :: pushRow columns values
  | columns, [] => columns
  | [], _ => []

/-- Of runs of samples of one row only the first is kept. -/
def dedupByRow : List (Sample F) → List (Sample F)
  | [] => []
  | s :: samples =>
    match dedupByRow samples with
    | [] => [s]
    | s' :: rest => if s.row = s'.row then s :: rest else s :: s' :: rest

namespace Bucket

variable [F64 F]

/-- `v` comes before what is kept of the column. -/
def improves (lt : F → F → Bool) (c : ℕ) (v : F) : Option (Sample F) → Bool
  | none => true
  | some kept => ((kept.values[c]?).join).any (lt v)

/-- With the sample where `better` says so; the times are no column. -/
def updated (kept : List (Option (Sample F))) (sample : Sample F)
    (better : ℕ → Option F → Option (Sample F) → Bool) : List (Option (Sample F)) :=
  kept.mapIdx fun c old =>
    if 1 ≤ c && ((sample.values[c]?).any fun v => better c v old) then some sample else old

def add (b : Bucket F) (sample : Sample F) : Bucket F where
  first := b.first
  last := sample
  low := updated b.low sample fun c v old => v.any fun v => improves F64.lt c v old
  high := updated b.high sample fun c v old =>
    v.any fun v => improves (fun v u => F64.lt u v) c v old
  gaps := updated b.gaps sample fun _ v old => v.isNone && old.isNone

def new (sample : Sample F) : Bucket F :=
  let none' := sample.values.map fun _ => none
  add ⟨sample, sample, none', none', none'⟩ sample

/-- With one more sample, or the first. -/
def grow (b : Option (Bucket F)) (sample : Sample F) : Bucket F :=
  match b with
  | some b => b.add sample
  | none => new sample

def samples (b : Bucket F) : List (Sample F) :=
  b.first :: b.last :: (b.low.reduceOption ++ b.high.reduceOption ++ b.gaps.reduceOption)

/-- The samples that are kept, by their rows. -/
def keep (b : Bucket F) : List (Sample F) :=
  dedupByRow (b.samples.insertionSort fun s s' => s.row ≤ s'.row)

def finish (b : Bucket F) (columns : List (List (Option F))) : List (List (Option F)) :=
  b.keep.foldl (fun columns s => pushRow columns s.values) columns

end Bucket

/-- The columns with what is kept of the bucket, if there is one. -/
def finishBucket (b : Option (Bucket F)) (columns : List (List (Option F))) :
    List (List (Option F)) :=
  match b with
  | some b => b.finish columns
  | none => columns

/-! ## Lines and cells -/

/-- The text of a line, if it is one. -/
def decodeLine (line : List UInt8) : Except String (List Char) :=
  let text := Text.utf8Lossy line
  if Text.utf8Encode text = line then .ok text else .error "stream did not contain valid UTF-8"

def trimLineEnd (text : List Char) : List Char :=
  Text.trimEndWhere (fun c => c == '\r' || c == '\n') text

/-- What stands between the rows: empty lines and marks. -/
def isSkipped (row : List Char) : Bool := row.isEmpty || "MARK".toList.isPrefixOf row

variable [F64 F]

def cellValue (cell : List Char) : Option F :=
  (F64.parse (String.ofList (Text.trim cell))).filter F64.isFinite

def rowTime (row : List Char) : Option F := (row.splitOn '\t').head?.bind cellValue

/-- The time, and the columns that are selected. -/
def selectedColumns (labels : List String) (query : Query F) : List ℕ :=
  let channels := query.channels.getD "RPM,MAP,AFR,TPS,CLT"
  let requested := (channels.toList.splitOn ',').map String.ofList
  0 :: ((labels.zipIdx.drop 1).filter fun (label, _) => requested.contains label).map (·.2)

/-- The cells selected from the rest of a row, the cell before it being `previous`. -/
def parseCells : List (List Char) → ℕ → List ℕ → List (Option F)
  | _, _, [] => []
  | cells, previous, c :: selected =>
    let cells := cells.drop (c - previous - 1)
    cells.head?.bind cellValue :: parseCells (cells.drop 1) c selected

def parseColumns (row : List Char) (selected : List ℕ) (time : F) : List (Option F) :=
  some time :: parseCells ((row.splitOn '\t').drop 1) 0 (selected.drop 1)

/-! ## The first scan -/

def divCeil (a b : ℕ) : ℕ := (a + b - 1) / b

/-- The points a query asks for, within bounds. -/
def budget (query : Query F) : ℕ := min (max (query.points.getD 1500) 100) 5000

def bucketCount (query : Query F) (selected : List ℕ) : ℕ :=
  max (budget query / (2 + 3 * (selected.length - 1))) 1

/-- What a scan finds, whatever it samples. -/
structure Rows (F : Type) where
  position : ℕ
  entries : List (ℕ × F)
  rows : ℕ

/-- What has been scanned. -/
structure Scan (F : Type) extends Rows F where
  bucket : Option (Bucket F)
  bucketId : ℕ
  overview : List (List (Option F))
  full : List (List (Option F))

namespace Scan

def start (position columns : ℕ) : Scan F where
  position
  entries := []
  rows := 0
  bucket := none
  bucketId := 0
  overview := List.replicate columns []
  full := List.replicate columns []

/-- The bucket that is filled ends where the one with the number `id` begins. -/
def enter (s : Scan F) (id : ℕ) : Scan F :=
  if id = s.bucketId then s
  else { s with bucket := none, bucketId := id, overview := finishBucket s.bucket s.overview }

/-- A row that has a time. -/
def add (selected : List ℕ) (dataStart bucketBytes : ℕ) (s : Scan F) (offset : ℕ) (t : F)
    (row : List Char) : Scan F :=
  let values := parseColumns row selected t
  let entries := s.entries ++ [(offset, t)]
  let full :=
    if entries.length ≤ fullDetailRows then pushRow s.full values
    else if entries.length = fullDetailRows + 1 then []
    else s.full
  let s := enter { s with entries, full } ((offset - dataStart) / bucketBytes)
  { s with bucket := some (Bucket.grow s.bucket ⟨entries.length - 1, values⟩) }

def line (selected : List ℕ) (dataStart bucketBytes : ℕ) (s : Scan F) (line : List UInt8) :
    Except String (Scan F) := do
  let text ← decodeLine line
  let offset := s.position
  let s := { s with position := offset + line.length }
  let row := trimLineEnd text
  if isSkipped row then return s
  let s := { s with rows := s.rows + 1 }
  match rowTime row with
  | none => return s
  | some t => return s.add selected dataStart bucketBytes offset t row

end Scan

namespace Index

/-- It is of this file, as the file is now. -/
def isOf (i : Index F) (path : String) (f : File) : Bool :=
  i.path == path && i.size == f.bytes.length && i.modified.isSome && i.modified == f.modified

def view (i : Index F) (name : String) (selected : List ℕ) (visibleRows : ℕ)
    (columns : List (List (Option F))) : View F where
  name
  title := i.title
  labels := i.labels
  units := i.units
  rows := i.rows
  visibleRows
  sampled := visibleRows > fullDetailRows
  range := i.entries.foldl (fun acc (_, t) =>
    some (acc.elim (t, t) fun (a, b) => (F64.min a t, F64.max b t))) none
  columnLabels := selected.map fun c => i.labels.getD c ""
  columns

end Index

/-- A header line: its text, its length, the lines after it. -/
def readHeader : List (List UInt8) → Except String (List Char × ℕ × List (List UInt8))
  | [] => .error "missing MSL header"
  | line :: lines => do
    let text ← decodeLine line
    return (trimLineEnd text, line.length, lines)

/-- The header, and the lines after it. -/
structure Header where
  title : String
  labels : List String
  units : List String
  dataStart : ℕ
  lines : List (List UInt8)

def readHeaders (bytes : List UInt8) : Except String Header := do
  let (title, n₁, lines) ← readHeader (Reader.readLines bytes)
  let (labels, n₂, lines) ← readHeader lines
  let (units, n₃, lines) ← readHeader lines
  let labels := (labels.splitOn '\t').map String.ofList
  if labels.length < 2 then throw "not an MSL file"
  return {
    title := String.ofList title
    labels
    units := (units.splitOn '\t').map String.ofList
    dataStart := n₁ + n₂ + n₃
    lines }

/-- The query without its range. -/
def Query.whole (query : Query F) : Query F := { query with start := none, stop := none }

/-- The one pass: the index without views, and the columns. -/
def Index.scan (path : String) (f : File) (query : Query F) :
    Except String (Index F × List (List (Option F))) := do
  let h ← readHeaders f.bytes
  let selected := selectedColumns h.labels query
  let bucketBytes :=
    max (divCeil (f.bytes.length - h.dataStart) (bucketCount query selected)) 1
  let s ← h.lines.foldlM (Scan.line selected h.dataStart bucketBytes)
    (Scan.start h.dataStart selected.length)
  let overview := finishBucket s.bucket s.overview
  let index : Index F :=
    { path
      size := f.bytes.length
      modified := f.modified
      title := h.title
      labels := h.labels
      units := h.units
      rows := s.rows
      entries := s.entries
      views := [] }
  return (index, if s.entries.length ≤ fullDetailRows then s.full else overview)

def Index.build (path : String) (f : File) (name : String) (query : Query F) :
    Except String (Index F) := do
  let (index, columns) ← Index.scan path f query
  let view := index.view name (selectedColumns index.labels query) index.entries.length columns
  return { index with views := [(query.whole, view)] }

/-! ## Rows read again -/

/-- `chunks(size)`, with the one that is being filled. -/
def chunksFrom {α : Type} (size : ℕ) : List α → List α → List (List α)
  | [], [] => []
  | [], chunk => [chunk]
  | x :: xs, chunk =>
    if chunk.length + 1 = size then (chunk ++ [x]) :: chunksFrom size xs []
    else chunksFrom size xs (chunk ++ [x])

def chunks {α : Type} (size : ℕ) (xs : List α) : List (List α) := chunksFrom size xs []

def rowAt (f : File) (offset : ℕ) : Except String (List Char) := do
  let text ← decodeLine (Reader.readLine (f.bytes.drop offset)).1
  return trimLineEnd text

/-- The bucket of some entries, whose rows are read again. -/
def rereadBucket (f : File) (selected : List ℕ) (entries : List ((ℕ × F) × ℕ)) :
    Except String (Option (Bucket F)) :=
  entries.foldlM (fun bucket ((offset, time), k) => do
    let row ← rowAt f offset
    return some (Bucket.grow bucket ⟨k, parseColumns row selected time⟩)) none

def Query.covers (query : Query F) (t : F) : Bool :=
  (query.start.all fun s => F64.le s t) && query.stop.all fun e => F64.le t e

/-- The view of a query that is not remembered. -/
def Index.rowsView (i : Index F) (f : File) (name : String) (query : Query F) :
    Except String (View F) := do
  let selected := selectedColumns i.labels query
  let entries := i.entries.zipIdx.filter fun ((_, t), _) => query.covers t
  let bucketSize :=
    if entries.length > fullDetailRows then
      divCeil entries.length (bucketCount query selected)
    else 1
  let columns ← (chunks bucketSize entries).foldlM (fun columns chunk => do
    let bucket ← rereadBucket f selected chunk
    return finishBucket bucket columns) (List.replicate selected.length [])
  return i.view name selected entries.length columns

/-! ## The caches -/

/-- How an index is written, with a version, and read back: `serde_json`, whose texts are of type
`J`. -/
structure Codec (F J : Type) where
  toJson : ℕ → Index F → Option J
  fromJson : J → Option (ℕ × Index F)

variable {J : Type}

/-- The index in memory, and the cache files of the logs. -/
structure Caches (F J : Type) where
  cache : Option (Index F)
  disk : String → Option J

def Caches.empty : Caches F J := ⟨none, fun _ => none⟩

namespace Index

/-- What a restored index is checked for. -/
def consistent (i : Index F) : Bool :=
  2 ≤ i.labels.length && i.entries.length ≤ i.rows &&
    i.entries.all (fun (offset, t) => offset < i.size && F64.isFinite t) &&
    ((i.entries.zip i.entries.tail).all fun (e, e') => e.1 < e'.1) &&
    i.views.length ≤ 4 &&
    i.views.all fun (q, v) =>
      q.start.isNone && q.stop.isNone && v.labels = i.labels && v.units = i.units &&
        v.rows = i.rows && v.visibleRows = i.entries.length &&
        v.columns.length = v.columnLabels.length && !v.columns.isEmpty &&
        (v.columns.all fun c => c.length = (v.columns.headD []).length) &&
        v.columns.all fun c => c.all fun x => x.all F64.isFinite

def restore (codec : Codec F J) (disk : String → Option J) (path : String) (f : File) :
    Option (Index F) := do
  let json ← disk path
  let (version, i) ← codec.fromJson json
  guard (version = cacheVersion && i.isOf path f && i.consistent)
  return i

/-- Writes the cache file unless the log has changed, and deletes those of logs that are gone. -/
def persist (fs : String → Except String File) (codec : Codec F J) (writable : Bool)
    (disk : String → Option J) (i : Index F) : String → Option J :=
  match fs i.path with
  | .error _ => disk
  | .ok f =>
    if !i.isOf i.path f then disk
    else
      let views := i.views.filter fun (q, _) => q.start.isNone && q.stop.isNone
      match codec.toJson cacheVersion { i with views } with
      | none => disk
      | some json =>
        if writable then
          fun path =>
            if path = i.path then some json
            else if path.endsWith ".msl" && !(fs path).isOk then none
            else disk path
        else disk

end Index

/-- `==` of the fields. -/
def Query.same (q q' : Query F) : Bool :=
  sameOption q.start q'.start && sameOption q.stop q'.stop && q.channels == q'.channels &&
    q.points == q'.points
where
  sameOption : Option F → Option F → Bool
    | some a, some b => F64.eq a b
    | none, none => true
    | _, _ => false

/-- With its defaults, and its points within bounds. -/
def Query.normal (query : Query F) : Query F :=
  { query with
    points := some (budget query)
    channels := some (query.channels.getD "RPM,MAP,AFR,TPS,CLT") }

/-- With one more view. Four are kept: one with a range makes room, or else the oldest. -/
def Index.remember (i : Index F) (query : Query F) (view : View F) : Index F :=
  let views :=
    if i.views.length = 4 then
      let evict := (i.views.findIdx? fun (q, _) => q.start.isSome || q.stop.isSome).getD 0
      i.views.eraseIdx evict
    else i.views
  { i with views := views ++ [(query, view)] }

/-- The index of the file: in memory, on the disk, or scanned. -/
def Caches.index (fs : String → Except String File) (codec : Codec F J) (writable : Bool)
    (s : Caches F J) (path : String) (f : File) (name : String) (query : Query F) :
    Except String (Index F × Caches F J) :=
  match s.cache.filter (·.isOf path f) with
  | some i => .ok (i, s)
  | none =>
    match Index.restore codec s.disk path f with
    | some i => .ok (i, { s with cache := some i })
    | none => do
      let i ← Index.build path f name query
      return (i, ⟨some i, i.persist fs codec writable s.disk⟩)

def load (fs : String → Except String File) (codec : Codec F J) (writable : Bool) (s : Caches F J)
    (path name : String) (query : Query F) : Except String (View F) × Caches F J :=
  let query := query.normal
  match fs path with
  | .error e => (.error e, s)
  | .ok f =>
    match s.index fs codec writable path f name query with
    | .error e => (.error e, s)
    | .ok (i, s) =>
      match i.views.find? fun (q, _) => q.same query with
      | some (_, view) => (.ok { view with name }, s)
      | none =>
        match i.rowsView f name query with
        | .error e => (.error e, s)
        | .ok view =>
          let i := i.remember query view
          let disk :=
            if query.start.isNone && query.stop.isNone then i.persist fs codec writable s.disk
            else s.disk
          (.ok view, ⟨some i, disk⟩)

/-! ## Histories -/

/-- A query, a restart of the server, or the loss of a cache file. -/
inductive Step (F : Type)
  | load (fs : String → Except String File) (writable : Bool) (path name : String)
    (query : Query F)
  | restart
  | lose (path : String)

def Caches.step (codec : Codec F J) (s : Caches F J) : Step F → Caches F J
  | .load fs writable path name query => (load fs codec writable s path name query).2
  | .restart => { s with cache := none }
  | .lose path => { s with disk := fun p => if p = path then none else s.disk p }

end RustyTune.Server.LogView
