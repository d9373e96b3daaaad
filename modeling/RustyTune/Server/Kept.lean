import RustyTune.Server.Readers

/-!
# What an overview keeps of a text

* `logLines`, `logLabels`, `timedRowsOf`: the lines of a log, its labels, and its rows whose first cell
  is a finite number; `rows_text`: the rows that a scan samples are these.
* **`overview_keeps`**: the overview of a log of many rows.
* `exists_build`: texts that are accepted.
-/

namespace RustyTune.Server.LogView

open Datalog (MslData isRow)

variable {F : Type} [F64 F] {path : String} {f : File}

/-! ## Texts -/

def logLines (text : List Char) : List (List Char) :=
  (text.splitOn '\n').map (Text.trimEndWhere (· == '\r'))

/-- What stands in the second line. -/
def logLabels (text : List Char) : List String :=
  (((logLines text).getD 1 []).splitOn '\t').map String.ofList

variable (F) in
/-- The rows whose first cell is a finite number. -/
def timedRowsOf (text : List Char) : List (List Char) :=
  (((logLines text).drop 3).filter isRow).filter (hasTime F)

theorem rowOf_text {selected : List ℕ} (h : (0 :: selected).Pairwise (· < ·)) (l : List Char) :
    rowOf (F := F) (0 :: selected) (Text.utf8Encode l) =
      if isRow (trimLineEnd l) && hasTime F (trimLineEnd l) then
        some ((0 :: selected).map (shownCell (trimLineEnd l)))
      else none := by
  have hskip : isSkipped (trimLineEnd l) = !isRow (trimLineEnd l) := (Bool.not_not _).symm
  rw [rowOf, decodeLine_utf8Encode]
  dsimp only
  rw [hskip, hasTime_eq]
  cases isRow (trimLineEnd l) with
  | false => rfl
  | true =>
    cases ht : (rowTime (trimLineEnd l) : Option F) with
    | none => rfl
    | some t =>
      rw [Option.map_some, parseColumns_eq ht h]
      rfl

theorem rows_text {text : List Char} (hbytes : f.bytes = Text.utf8Encode text) {t l u : List Char}
    {rest : List (List Char)} (h : Text.withEnds (text.splitOn '\n') = t :: l :: u :: rest)
    {selected : List ℕ} (hsorted : (0 :: selected).Pairwise (· < ·)) :
    f.rows (0 :: selected) =
      (timedRowsOf F text).map fun row => (0 :: selected).map (shownCell (F := F) row) := by
  obtain ⟨lines, hpieces, hrows⟩ := pieces_of_lines h
  have hdrop : (logLines text).drop 3 = lines := by rw [logLines, hpieces]; rfl
  rw [timedRowsOf, hdrop, hrows, File.rows, hbytes, Text.readLines_utf8Encode, h]
  change (rest.map Text.utf8Encode).filterMap (rowOf (0 :: selected)) = _
  clear h hrows
  induction rest with
  | nil => rfl
  | cons l rest ih =>
    rw [List.map_cons, List.filterMap_cons, rowOf_text hsorted, ih, rowsOf_cons, List.filter_append]
    cases isRow (trimLineEnd l) with
    | false => rfl
    | true => cases ht : hasTime F (trimLineEnd l) <;> simp [ht]

/-- **The overview of a log of many rows keeps what matters, within the points asked for.** -/
theorem overview_keeps [LawfulF64 F] {text : List Char} (hbytes : f.bytes = Text.utf8Encode text)
    {name : String} {query : Query F} {i : Index F} (h : Index.build path f name query = .ok i)
    (hmany : fullDetailRows < (timedRowsOf F text).length) :
    ∃ view kept, i.views = [(query.whole, view)] ∧
      KeepsRows ((timedRowsOf F text).map fun row => (query.wanted (logLabels text)).map (shownCell row))
        (query.wanted (logLabels text)).length kept view.columns ∧
      kept.length ≤ max (min (max (query.points.getD 1500) 100) 5000)
        (2 + 3 * ((query.wanted (logLabels text)).length - 1)) := by
  obtain ⟨header, s, hh, -, hi⟩ := contents_eq_ok (of_build h).contents
  have hlines : Reader.readLines f.bytes = (Text.withEnds (text.splitOn '\n')).map Text.utf8Encode := by
    rw [hbytes, Text.readLines_utf8Encode]
  obtain ⟨t, l, u, rest, htexts, -, hlabels, -, -⟩ := readHeaders_texts hlines hh
  have hselected : selectedColumns i.labels query = query.wanted (logLabels text) := by
    obtain ⟨lines, hpieces, -⟩ := pieces_of_lines htexts
    have hheader : i.labels = header.labels := congrArg (fun i => i.labels) hi
    rw [selectedColumns_eq, hheader, hlabels, logLabels, logLines, hpieces]
    rfl
  have hrows : f.rows (query.wanted (logLabels text)) =
      (timedRowsOf F text).map fun row => (query.wanted (logLabels text)).map (shownCell (F := F) row) :=
    rows_text hbytes htexts (query.pairwise_wanted _)
  have htimed : fullDetailRows < f.timedRows F := by
    rwa [← length_rows f (query.wanted (logLabels text)), hrows, List.length_map]
  have hkeeps := build_keeps h htimed
  rw [hselected, hrows] at hkeeps
  exact hkeeps

/-! ## A log of many rows -/

theorem exists_run (lines : List (List Char)) (s : Rows F) :
    ∃ s', (lines.map Text.utf8Encode).foldlM Rows.line s = .ok s' := by
  induction lines generalizing s with
  | nil => exact ⟨s, rfl⟩
  | cons l lines ih =>
    have hline : ∃ s₁, s.line (Text.utf8Encode l) = .ok s₁ := by
      rw [Rows.line, decodeLine_utf8Encode, except_ok_bind]
      dsimp only
      split_ifs
      · exact ⟨_, rfl⟩
      · cases (rowTime (trimLineEnd l) : Option F) <;> exact ⟨_, rfl⟩
    obtain ⟨s₁, hs₁⟩ := hline
    obtain ⟨s', hs'⟩ := ih s₁
    refine ⟨s', ?_⟩
    rw [List.map_cons, List.foldlM_cons, hs₁]
    exact hs'

/-- Texts of a title, two labels and more, and units are accepted. -/
theorem exists_build {text : List Char} (hbytes : f.bytes = Text.utf8Encode text) {t l u : List Char}
    {rest : List (List Char)} (h : Text.withEnds (text.splitOn '\n') = t :: l :: u :: rest)
    (htwo : 2 ≤ ((trimLineEnd l).splitOn '\t').length) (name : String) (query : Query F) :
    ∃ i, Index.build path f name query = .ok i := by
  obtain ⟨header, hh, hlines⟩ : ∃ header, readHeaders f.bytes = .ok header ∧
      header.lines = rest.map Text.utf8Encode := by
    have hlabels : ¬ (((trimLineEnd l).splitOn '\t').map String.ofList).length < 2 := by
      rw [List.length_map]
      omega
    rw [readHeaders, hbytes, Text.readLines_utf8Encode, h]
    simp only [List.map_cons, readHeader, decodeLine_utf8Encode, except_ok_bind, pure, Except.pure]
    rw [if_neg hlabels]
    exact ⟨_, rfl, rfl⟩
  obtain ⟨s, hs⟩ := exists_run rest (⟨header.dataStart, [], 0⟩ : Rows F)
  have hcontents : contents path f = .ok (header.index path f s) := by
    rw [contents, hh, except_ok_bind, hlines, hs]
    rfl
  obtain ⟨columns, -, hbuild⟩ := build_of_ok hcontents name query
  exact ⟨_, hbuild⟩

/-- Three rows, with cells that are missing. -/
def mixedRows : List (List Char) := ["0.1\t900\t40", "0.2\t\t55.5", "0.3\t1200"].map String.toList

/-- A log of these rows, `n` times. -/
def mixedPieces (n : ℕ) : List (List Char) :=
  ["t", "Time\tRPM\tMAP", "s\trpm\tkPa"].map String.toList ++ (List.replicate n mixedRows).flatten

def mixedText (n : ℕ) : List Char := ['\n'].intercalate (mixedPieces n)

theorem splitOn_mixedText (n : ℕ) : (mixedText n).splitOn '\n' = mixedPieces n := by
  have hheader : ∀ piece ∈ ["t", "Time\tRPM\tMAP", "s\trpm\tkPa"].map String.toList, '\n' ∉ piece := by
    decide
  have hrows : ∀ piece ∈ mixedRows, '\n' ∉ piece := by decide
  refine List.splitOn_intercalate _ (fun piece hp => ?_) (List.cons_ne_nil _ _)
  rcases List.mem_append.mp hp with hp | hp
  · exact hheader piece hp
  · obtain ⟨rows, hr, hp⟩ := List.mem_flatten.mp hp
    rw [List.eq_of_mem_replicate hr] at hp
    exact hrows piece hp

theorem timedRowsOf_mixedText (n : ℕ) :
    timedRowsOf XRat (mixedText n) = (List.replicate n mixedRows).flatten := by
  have hrows : ((mixedRows.map (Text.trimEndWhere (· == '\r'))).filter isRow).filter (hasTime XRat) =
      mixedRows := by decide +kernel
  have hdrop : (logLines (mixedText n)).drop 3 =
      (List.replicate n (mixedRows.map (Text.trimEndWhere (· == '\r')))).flatten := by
    rw [logLines, splitOn_mixedText, ← List.map_drop, ← List.map_replicate, ← List.map_flatten]
    rfl
  rw [timedRowsOf, hdrop, List.filter_flatten, List.filter_flatten, List.map_replicate,
    List.map_replicate, hrows]

def mixedQuery : Query XRat := ⟨none, none, some "RPM,MAP", some 100⟩

def mixedCells (n : ℕ) : List (List (Option XRat)) :=
  (timedRowsOf XRat (mixedText n)).map fun row =>
    (mixedQuery.wanted (logLabels (mixedText n))).map (shownCell row)

/-- 5100 rows, of which a missing cell is kept. -/
theorem overview_keeps_mixed : ∃ (i : Index XRat) (view : View XRat) (kept : List ℕ),
    Index.build "mixed.msl" ⟨Text.utf8Encode (mixedText 1700), some 0⟩ "mixed.msl" mixedQuery = .ok i ∧
      i.views = [(mixedQuery.whole, view)] ∧ KeepsRows (mixedCells 1700) 3 kept view.columns ∧
      kept.length ≤ 100 ∧ ∃ k ∈ kept, cellAt (mixedCells 1700) k 1 = none := by
  have hends : Text.withEnds ((mixedText 1700).splitOn '\n') =
      "t\n".toList :: "Time\tRPM\tMAP\n".toList :: "s\trpm\tkPa\n".toList ::
        Text.withEnds (List.replicate 1700 mixedRows).flatten := by
    rw [splitOn_mixedText, mixedPieces, List.replicate_succ]
    rfl
  have hmany : fullDetailRows < (timedRowsOf XRat (mixedText 1700)).length := by
    rw [timedRowsOf_mixedText, List.length_flatten, List.map_replicate, List.sum_replicate_nat]
    decide
  obtain ⟨i, hbuild⟩ : ∃ i, Index.build "mixed.msl" ⟨Text.utf8Encode (mixedText 1700), some 0⟩
      "mixed.msl" mixedQuery = .ok i := exists_build rfl hends (by decide) _ _
  obtain ⟨view, kept, hviews, hkeeps, hcount⟩ := overview_keeps rfl hbuild hmany
  have hwanted : mixedQuery.wanted (logLabels (mixedText 1700)) = [0, 1, 2] := by
    rw [logLabels, logLines, splitOn_mixedText]
    decide +kernel
  rw [hwanted] at hkeeps hcount
  have hcells : mixedCells 1700 = (timedRowsOf XRat (mixedText 1700)).map fun row =>
      ([0, 1, 2] : List ℕ).map (shownCell row) := by rw [mixedCells, hwanted]
  rw [← hcells] at hkeeps
  -- the second row has no RPM
  have hgap : cellAt (mixedCells 1700) 1 1 = none := by
    rw [hcells, timedRowsOf_mixedText, List.replicate_succ, List.flatten_cons]
    decide +kernel
  have hrows : 1 < (mixedCells 1700).length := by
    rw [mixedCells, List.length_map]
    exact Nat.lt_trans (by decide) hmany
  exact ⟨i, view, kept, hbuild, hviews, hkeeps, hcount,
    hkeeps.missing 1 le_rfl (by decide) ⟨1, hrows, hgap⟩⟩

end RustyTune.Server.LogView
