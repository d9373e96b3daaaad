import RustyTune.Lib.Checked
import RustyTune.Lib.XRat
import RustyTune.Server.LogView

/-!
# One pass, or the rows again

* `Bucket.finish_new`: a bucket of one row keeps that row.
* `File.Has`: what is sampled is in the file.
* `Scan.Reads`: a first scan knows where its rows are; `scan_fst`: it finds the same whatever it
  samples; `length_entries`: the rows it finds are those that have a time.
* `Index.rowsView_eq`: rows can be read again; **`Index.rowsColumns_full`**: at full detail they are
  those of the first scan.
-/

namespace RustyTune.Server.LogView

variable {F J : Type} [F64 F]

/-! ## Samples and columns -/

omit [F64 F] in
theorem mem_dedupByRow {l : List (Sample F)} {x : Sample F} (h : x ∈ dedupByRow l) : x ∈ l := by
  induction l with
  | nil => exact h
  | cons s l ih =>
    rw [dedupByRow] at h
    cases hl : dedupByRow l with
    | nil =>
      rw [hl] at h
      exact List.mem_cons.mpr (.inl (List.mem_singleton.mp h))
    | cons s' rest =>
      simp only [hl] at h ih
      split_ifs at h
      · rcases List.mem_cons.mp h with rfl | h
        · exact List.mem_cons_self
        · exact List.mem_cons_of_mem _ (ih (List.mem_cons_of_mem _ h))
      · rcases List.mem_cons.mp h with rfl | h
        · exact List.mem_cons_self
        · exact List.mem_cons_of_mem _ (ih h)

omit [F64 F] in
theorem dedupByRow_ne_nil {l : List (Sample F)} (h : l ≠ []) : dedupByRow l ≠ [] := by
  cases l with
  | nil => exact absurd rfl h
  | cons s l =>
    rw [dedupByRow]
    split
    · exact List.cons_ne_nil _ _
    · split_ifs <;> exact List.cons_ne_nil _ _

omit [F64 F] in
theorem dedupByRow_replicate (s : Sample F) (n : ℕ) :
    dedupByRow (List.replicate (n + 1) s) = [s] := by
  induction n with
  | zero => rfl
  | succ n ih =>
    rw [List.replicate_succ, dedupByRow, ih]
    exact if_pos rfl

namespace Bucket

omit [F64 F] in
theorem mem_updated {kept : List (Option (Sample F))} {s x : Sample F}
    {better : ℕ → Option F → Option (Sample F) → Bool} (h : some x ∈ updated kept s better) :
    x = s ∨ some x ∈ kept := by
  obtain ⟨c, hc, hx⟩ := List.mem_mapIdx.mp h
  split_ifs at hx
  · exact .inl (Option.some.inj hx).symm
  · exact .inr (hx ▸ List.getElem_mem hc)

omit [F64 F] in
theorem mem_samples {b : Bucket F} {x : Sample F} : x ∈ b.samples ↔
    x = b.first ∨ x = b.last ∨ some x ∈ b.low ∨ some x ∈ b.high ∨ some x ∈ b.gaps := by
  simp only [samples, List.mem_cons, List.mem_append, List.reduceOption_mem_iff, or_assoc]

theorem mem_samples_add {b : Bucket F} {s x : Sample F} (h : x ∈ (b.add s).samples) :
    x = s ∨ x ∈ b.samples := by
  rw [mem_samples] at h ⊢
  rcases h with h | h | h | h | h
  · exact .inr (.inl h)
  · exact .inl h
  · exact (mem_updated h).imp id fun h => .inr (.inr (.inl h))
  · exact (mem_updated h).imp id fun h => .inr (.inr (.inr (.inl h)))
  · exact (mem_updated h).imp id fun h => .inr (.inr (.inr (.inr h)))

theorem mem_samples_new {s x : Sample F} (h : x ∈ (new s).samples) : x = s := by
  rcases mem_samples_add h with h | h
  · exact h
  · have hnone : some x ∉ s.values.map fun _ => (none : Option (Sample F)) := by simp
    rcases mem_samples.mp h with h | h | h | h | h
    · exact h
    · exact h
    all_goals exact absurd h hnone

omit [F64 F] in
theorem mem_keep {b : Bucket F} {x : Sample F} (h : x ∈ b.keep) : x ∈ b.samples :=
  (List.mem_insertionSort _).mp (mem_dedupByRow h)

omit [F64 F] in
theorem keep_ne_nil (b : Bucket F) : b.keep ≠ [] := by
  apply dedupByRow_ne_nil
  intro h
  have hlength := congrArg List.length h
  rw [List.length_insertionSort] at hlength
  exact absurd hlength (Nat.succ_ne_zero _)

theorem keep_new (s : Sample F) : (new s).keep = [s] := by
  have hall : ∀ x ∈ (new s).samples.insertionSort fun s s' => s.row ≤ s'.row, x = s :=
    fun x hx => mem_samples_new ((List.mem_insertionSort _).mp hx)
  rw [keep, List.eq_replicate_of_mem hall, List.length_insertionSort]
  exact dedupByRow_replicate s _

theorem finish_new (s : Sample F) (columns : List (List (Option F))) :
    (new s).finish columns = pushRow columns s.values := by
  rw [finish, keep_new]
  rfl

end Bucket

theorem mem_pushRow {α : Type} {columns : List (List α)} {values column : List α} {v : α}
    (hc : column ∈ pushRow columns values) (hv : v ∈ column) :
    v ∈ values ∨ ∃ column ∈ columns, v ∈ column := by
  induction columns generalizing values with
  | nil => cases values <;> exact nomatch hc
  | cons first columns ih =>
    cases values with
    | nil => exact .inr ⟨column, hc, hv⟩
    | cons u values =>
      rcases List.mem_cons.mp hc with rfl | hc
      · rcases List.mem_append.mp hv with hv | hv
        · exact .inr ⟨first, List.mem_cons_self, hv⟩
        · exact .inl (List.mem_cons.mpr (.inl (List.mem_singleton.mp hv)))
      · rcases ih hc with h | ⟨c, hc, hv⟩
        · exact .inl (List.mem_cons_of_mem _ h)
        · exact .inr ⟨c, List.mem_cons_of_mem _ hc, hv⟩

/-! ## The numbers of a file -/

/-- The lines of a file that are text, without their ends. -/
def File.rowTexts (f : File) : List (List Char) :=
  (Reader.readLines f.bytes).filterMap fun line => (decodeLine line).toOption.map trimLineEnd

/-- The finite numbers in the cells of a row. -/
def cellValues (row : List Char) : List F := (row.splitOn '\t').filterMap cellValue

/-- The finite numbers in the cells of a file. -/
def File.numbers (f : File) : List F := f.rowTexts.flatMap cellValues

/-- A value is missing or a number of the file. -/
def File.Has (f : File) (v : Option F) : Prop := ∀ x, v = some x → x ∈ f.numbers

theorem mem_parseCells {cells : List (List Char)} {previous : ℕ} {selected : List ℕ} {x : F}
    (h : some x ∈ parseCells cells previous selected) : ∃ cell ∈ cells, cellValue cell = some x := by
  induction selected generalizing cells previous with
  | nil => exact nomatch h
  | cons c selected ih =>
    rcases List.mem_cons.mp h with h | h
    · obtain ⟨cell, hcell, hx⟩ := Option.bind_eq_some_iff.mp h.symm
      exact ⟨cell, List.mem_of_mem_drop (List.mem_of_mem_head? hcell), hx⟩
    · obtain ⟨cell, hcell, hx⟩ := ih h
      exact ⟨cell, List.mem_of_mem_drop (List.mem_of_mem_drop hcell), hx⟩

theorem rowTime_mem {row : List Char} {t : F} (h : rowTime row = some t) : t ∈ cellValues row := by
  obtain ⟨cell, hcell, ht⟩ := Option.bind_eq_some_iff.mp h
  exact List.mem_filterMap.mpr ⟨cell, List.mem_of_mem_head? hcell, ht⟩

theorem mem_parseColumns {row : List Char} {selected : List ℕ} {t x : F}
    (ht : rowTime row = some t) (h : some x ∈ parseColumns row selected t) :
    x ∈ cellValues row := by
  rcases List.mem_cons.mp h with h | h
  · exact Option.some.inj h ▸ rowTime_mem ht
  · obtain ⟨cell, hcell, hx⟩ := mem_parseCells h
    exact List.mem_filterMap.mpr ⟨cell, List.mem_of_mem_drop hcell, hx⟩

theorem File.has_parseColumns {f : File} {row : List Char} {selected : List ℕ} {t : F}
    (hrow : row ∈ f.rowTexts) (ht : rowTime row = some t) :
    ∀ v ∈ parseColumns row selected t, f.Has v := by
  rintro v hv x rfl
  exact List.mem_flatMap.mpr ⟨row, hrow, mem_parseColumns ht hv⟩

/-- All that is sampled is in the file. -/
def File.HasBucket (f : File) (b : Bucket F) : Prop := ∀ s ∈ b.samples, ∀ v ∈ s.values, f.Has v

def File.HasColumns (f : File) (columns : List (List (Option F))) : Prop :=
  ∀ column ∈ columns, ∀ v ∈ column, f.Has v

theorem File.hasColumns_replicate (f : File) (n : ℕ) :
    f.HasColumns (List.replicate n ([] : List (Option F))) := by
  intro column hc v hv
  rw [List.eq_of_mem_replicate hc] at hv
  exact nomatch hv

theorem File.HasColumns.pushRow {f : File} {columns : List (List (Option F))}
    (h : f.HasColumns columns) {values : List (Option F)} (hv : ∀ v ∈ values, f.Has v) :
    f.HasColumns (pushRow columns values) := by
  intro column hc v hmem
  rcases mem_pushRow hc hmem with hmem | ⟨column, hc, hmem⟩
  · exact hv v hmem
  · exact h column hc v hmem

theorem File.hasBucket_grow {f : File} {b : Option (Bucket F)} (h : ∀ b' ∈ b, f.HasBucket b')
    {s : Sample F} (hs : ∀ v ∈ s.values, f.Has v) : f.HasBucket (Bucket.grow b s) := by
  intro x hx
  cases b with
  | none => exact Bucket.mem_samples_new hx ▸ hs
  | some b =>
    rcases Bucket.mem_samples_add hx with rfl | hx
    · exact hs
    · exact h b rfl x hx

theorem File.HasColumns.finish {f : File} {columns : List (List (Option F))}
    (h : f.HasColumns columns) {b : Option (Bucket F)} (hb : ∀ b' ∈ b, f.HasBucket b') :
    f.HasColumns (finishBucket b columns) := by
  cases b with
  | none => exact h
  | some b =>
    have hkeep : ∀ s ∈ b.keep, ∀ v ∈ s.values, f.Has v :=
      fun s hs => hb b rfl s (Bucket.mem_keep hs)
    rw [finishBucket, Bucket.finish]
    generalize b.keep = keep at hkeep
    induction keep generalizing columns with
    | nil => exact h
    | cons s keep ih =>
      exact ih (h.pushRow (hkeep s List.mem_cons_self))
        fun s' hs' => hkeep s' (List.mem_cons_of_mem _ hs')

/-! ## The first scan -/

/-- What a line adds whatever is sampled. -/
def Rows.line (s : Rows F) (line : List UInt8) : Except String (Rows F) := do
  let text ← decodeLine line
  let position := s.position + line.length
  let row := trimLineEnd text
  if isSkipped row then return { s with position }
  match rowTime row with
  | none => return { s with position, rows := s.rows + 1 }
  | some t => return { position, rows := s.rows + 1, entries := s.entries ++ [(s.position, t)] }

namespace Scan

variable {selected : List ℕ} {dataStart bucketBytes : ℕ} {s s' : Scan F} {line : List UInt8}

omit [F64 F] in
theorem toRows_enter (s : Scan F) (id : ℕ) : (s.enter id).toRows = s.toRows := by
  rw [enter]
  split_ifs <;> rfl

theorem line_toRows (selected : List ℕ) (dataStart bucketBytes : ℕ) (s : Scan F)
    (line : List UInt8) :
    (Scan.line selected dataStart bucketBytes s line).map Scan.toRows = s.toRows.line line := by
  rw [Scan.line, Rows.line]
  cases decodeLine line with
  | error e => rfl
  | ok text =>
    simp only [bind, Except.bind]
    split_ifs
    · rfl
    · cases rowTime (F := F) (trimLineEnd text) with
      | none => rfl
      | some t => exact congrArg Except.ok (toRows_enter _ _)

/-- A line is passed over, has no time, or adds a row. -/
theorem line_cases (h : Scan.line selected dataStart bucketBytes s line = .ok s') :
    ∃ text, decodeLine line = .ok text ∧
      (isSkipped (trimLineEnd text) = true ∧
          s' = { s with position := s.position + line.length } ∨
        ¬ isSkipped (trimLineEnd text) = true ∧ rowTime (F := F) (trimLineEnd text) = none ∧
          s' = { s with position := s.position + line.length, rows := s.rows + 1 } ∨
        ¬ isSkipped (trimLineEnd text) = true ∧ ∃ t, rowTime (trimLineEnd text) = some t ∧
          s' = add selected dataStart bucketBytes
            { s with position := s.position + line.length, rows := s.rows + 1 } s.position t
            (trimLineEnd text)) := by
  rw [Scan.line] at h
  cases htext : decodeLine line with
  | error e =>
    rw [htext] at h
    exact nomatch h
  | ok text =>
    refine ⟨text, rfl, ?_⟩
    simp only [htext, bind, Except.bind] at h
    split_ifs at h with hskip
    · exact .inl ⟨hskip, (Except.ok.inj h).symm⟩
    · cases ht : rowTime (F := F) (trimLineEnd text) with
      | none =>
        rw [ht] at h
        exact .inr (.inl ⟨hskip, rfl, (Except.ok.inj h).symm⟩)
      | some t =>
        rw [ht] at h
        exact .inr (.inr ⟨hskip, t, rfl, (Except.ok.inj h).symm⟩)

end Scan

/-- The cells of an entry's row. -/
def valuesAt (f : File) (selected : List ℕ) (e : ℕ × F) : List (Option F) :=
  match rowAt f e.1 with
  | .ok row => parseColumns row selected e.2
  | .error _ => []

/-- An entry whose row can be read. -/
def File.Holds (f : File) (e : ℕ × F) : Prop :=
  ∃ row ∈ f.rowTexts, rowAt f e.1 = .ok row ∧ rowTime row = some e.2

theorem File.Holds.has {f : File} {e : ℕ × F} (h : f.Holds e) (selected : List ℕ) :
    ∀ v ∈ valuesAt f selected e, f.Has v := by
  obtain ⟨row, hrow, hread, ht⟩ := h
  rw [valuesAt, hread]
  exact File.has_parseColumns hrow ht

/-- A scan of the file with `rest` ahead. -/
structure Scan.Reads (f : File) (selected : List ℕ) (s : Scan F) (rest : List UInt8) : Prop where
  position : f.bytes.drop s.position = rest
  lines : ∀ line ∈ Reader.readLines rest, line ∈ Reader.readLines f.bytes
  entries : ∀ e ∈ s.entries, f.Holds e
  full : s.entries.length ≤ fullDetailRows →
    s.full = s.entries.foldl (fun columns e => pushRow columns (valuesAt f selected e))
      (List.replicate selected.length [])
  bucket : ∀ b ∈ s.bucket, f.HasBucket b
  overview : f.HasColumns s.overview

namespace Scan.Reads

variable {f : File} {selected : List ℕ} {dataStart bucketBytes : ℕ} {s s' : Scan F}
  {line rest : List UInt8}

theorem enter (h : s.Reads f selected rest) (id : ℕ) : (s.enter id).Reads f selected rest := by
  rw [Scan.enter]
  split_ifs
  · exact h
  · exact
      { position := h.position
        lines := h.lines
        entries := h.entries
        full := h.full
        bucket := fun b hb => nomatch hb
        overview := h.overview.finish h.bucket }

/-- A row joins the entries, the full columns and the bucket. -/
theorem add (h : s.Reads f selected rest) {offset : ℕ} {t : F} {row : List Char}
    (hrow : row ∈ f.rowTexts) (hread : rowAt f offset = .ok row) (ht : rowTime row = some t) :
    (s.add selected dataStart bucketBytes offset t row).Reads f selected rest := by
  have hvalues : valuesAt f selected (offset, t) = parseColumns row selected t := by
    rw [valuesAt, hread]
  have hin : ∀ v ∈ parseColumns row selected t, f.Has v := File.has_parseColumns hrow ht
  have hpushed : ({ s with
      entries := s.entries ++ [(offset, t)]
      full :=
        if (s.entries ++ [(offset, t)]).length ≤ fullDetailRows then
          pushRow s.full (parseColumns row selected t)
        else if (s.entries ++ [(offset, t)]).length = fullDetailRows + 1 then []
        else s.full } : Scan F).Reads f selected rest :=
    { position := h.position
      lines := h.lines
      entries := by
        intro e he
        rcases List.mem_append.mp he with he | he
        · exact h.entries e he
        · exact List.mem_singleton.mp he ▸ ⟨row, hrow, hread, ht⟩
      full := by
        intro hle
        have hlt : s.entries.length ≤ fullDetailRows := by
          rw [List.length_append] at hle
          omega
        rw [if_pos hle, h.full hlt, List.foldl_append, List.foldl_cons, List.foldl_nil, hvalues]
      bucket := h.bucket
      overview := h.overview }
  have hentered := hpushed.enter ((offset - dataStart) / bucketBytes)
  exact
    { position := hentered.position
      lines := hentered.lines
      entries := hentered.entries
      full := hentered.full
      bucket := by
        intro b hb
        rw [← Option.some.inj hb]
        exact File.hasBucket_grow hentered.bucket hin
      overview := hentered.overview }

theorem next (h : s.Reads f selected (line ++ rest))
    (hline : Reader.readLine (line ++ rest) = (line, rest))
    (hmem : line ∈ Reader.readLines f.bytes)
    (hrest : ∀ line ∈ Reader.readLines rest, line ∈ Reader.readLines f.bytes)
    (hs : Scan.line selected dataStart bucketBytes s line = .ok s') :
    s'.Reads f selected rest := by
  obtain ⟨text, htext, hs⟩ := Scan.line_cases hs
  have hnext : f.bytes.drop (s.position + line.length) = rest := by
    rw [← List.drop_drop, h.position, List.drop_left]
  have hread : rowAt f s.position = .ok (trimLineEnd text) := by
    rw [rowAt, h.position, hline, htext]
    rfl
  have hrow : trimLineEnd text ∈ f.rowTexts :=
    List.mem_filterMap.mpr ⟨line, hmem, by rw [htext]; rfl⟩
  have hskip : ∀ rows, ({ s with position := s.position + line.length, rows } : Scan F).Reads
      f selected rest := fun rows =>
    { position := hnext
      lines := hrest
      entries := h.entries
      full := h.full
      bucket := h.bucket
      overview := h.overview }
  rcases hs with ⟨-, rfl⟩ | ⟨-, -, rfl⟩ | ⟨-, t, ht, rfl⟩
  · exact hskip s.rows
  · exact hskip (s.rows + 1)
  · exact (hskip (s.rows + 1)).add hrow hread ht

theorem run {lines : List (List UInt8)} (h : s.Reads f selected rest)
    (hlines : Reader.readLines rest = lines)
    (hs : lines.foldlM (Scan.line selected dataStart bucketBytes) s = .ok s') :
    s'.Reads f selected [] := by
  induction lines generalizing s rest with
  | nil =>
    obtain rfl := Reader.readLines_eq_nil.mp hlines
    exact Except.ok.inj hs ▸ h
  | cons line lines ih =>
    obtain ⟨rest', hline, rfl, hrest⟩ := Reader.readLines_eq_cons hlines
    obtain ⟨s₁, hs₁, hs⟩ := except_bind_eq_ok.mp hs
    have hmem : ∀ l ∈ line :: lines, l ∈ Reader.readLines f.bytes := hlines ▸ h.lines
    have hnext := h.next hline (hmem line List.mem_cons_self)
      (fun l hl => hmem l (List.mem_cons_of_mem _ (hrest ▸ hl))) hs₁
    exact ih hnext hrest hs

end Scan.Reads

/-! ## What a scan finds -/

theorem readHeader_eq_ok {bytes : List UInt8} {text : List Char} {n : ℕ}
    {lines : List (List UInt8)}
    (h : readHeader (Reader.readLines bytes) = .ok (text, n, lines)) :
    Reader.readLines bytes = (Reader.readLine bytes).1 :: lines ∧
      Reader.readLines (bytes.drop n) = lines := by
  cases hlines : Reader.readLines bytes with
  | nil =>
    rw [hlines] at h
    exact nomatch h
  | cons line rest =>
    rw [hlines] at h
    obtain ⟨text', -, h⟩ := except_bind_eq_ok.mp h
    obtain ⟨rest', hline, hbytes, hrest⟩ := Reader.readLines_eq_cons hlines
    obtain ⟨-, hn, hl⟩ : trimLineEnd text' = text ∧ line.length = n ∧ rest = lines := by
      simpa using Except.ok.inj h
    rw [hline, ← hl, ← hn, hbytes, List.drop_left]
    exact ⟨rfl, hrest⟩

/-- What stands after the header, and that it is lines of the file. -/
theorem readHeaders_lines {bytes : List UInt8} {h : Header} (hh : readHeaders bytes = .ok h) :
    Reader.readLines (bytes.drop h.dataStart) = h.lines ∧
      h.lines = (Reader.readLines bytes).drop 3 := by
  obtain ⟨⟨title, n₁, lines₁⟩, h₁, hh⟩ := except_bind_eq_ok.mp hh
  obtain ⟨⟨labels, n₂, lines₂⟩, h₂, hh⟩ := except_bind_eq_ok.mp hh
  obtain ⟨⟨units, n₃, lines₃⟩, h₃, hh⟩ := except_bind_eq_ok.mp hh
  obtain ⟨hl₁, hr₁⟩ := readHeader_eq_ok h₁
  obtain ⟨hl₂, hr₂⟩ := readHeader_eq_ok (hr₁.symm ▸ h₂)
  obtain ⟨hl₃, hr₃⟩ := readHeader_eq_ok (hr₂.symm ▸ h₃)
  rw [hr₁] at hl₂
  rw [hr₂] at hl₃
  dsimp only at hh
  split_ifs at hh
  · exact nomatch hh
  obtain rfl := Except.ok.inj hh
  rw [List.drop_drop, List.drop_drop, ← Nat.add_assoc] at hr₃
  rw [hl₁, hl₂, hl₃]
  exact ⟨hr₃, rfl⟩

theorem Scan.run_toRows (selected : List ℕ) (dataStart bucketBytes : ℕ)
    (lines : List (List UInt8)) (s : Scan F) :
    Scan.toRows <$> lines.foldlM (Scan.line selected dataStart bucketBytes) s =
      lines.foldlM Rows.line s.toRows :=
  foldlM_hom (fun s line => Scan.line_toRows selected dataStart bucketBytes s line) lines s

/-- The index without views, once the header is read and the lines are scanned. -/
def Header.index (h : Header) (path : String) (f : File) (s : Rows F) : Index F where
  path
  size := f.bytes.length
  modified := f.modified
  title := h.title
  labels := h.labels
  units := h.units
  rows := s.rows
  entries := s.entries
  views := []

/-- What the log file is, apart from any query. -/
def contents (path : String) (f : File) : Except String (Index F) := do
  let h ← readHeaders f.bytes
  let s ← h.lines.foldlM Rows.line ⟨h.dataStart, [], 0⟩
  return h.index path f s

theorem scan_fst (path : String) (f : File) (query : Query F) :
    Prod.fst <$> Index.scan path f query = contents path f := by
  rw [Index.scan, contents]
  cases readHeaders f.bytes with
  | error e => rfl
  | ok h =>
    have hrun : ∀ bucketBytes, h.lines.foldlM Rows.line (⟨h.dataStart, [], 0⟩ : Rows F) =
        Scan.toRows <$> h.lines.foldlM
          (Scan.line (selectedColumns h.labels query) h.dataStart bucketBytes)
          (Scan.start h.dataStart (selectedColumns h.labels query).length) :=
      fun bucketBytes => (Scan.run_toRows (selectedColumns h.labels query) h.dataStart bucketBytes
        h.lines (Scan.start h.dataStart (selectedColumns h.labels query).length)).symm
    simp only [except_ok_bind]
    rw [map_bind, hrun, bind_map_left]
    rfl

variable (F) in
/-- A line that is a row with a time. -/
def isTimed (line : List UInt8) : Bool :=
  match decodeLine line with
  | .ok text => !isSkipped (trimLineEnd text) && (rowTime (F := F) (trimLineEnd text)).isSome
  | .error _ => false

variable (F) in
/-- How many rows of a file have a time. -/
def File.timedRows (f : File) : ℕ := ((Reader.readLines f.bytes).drop 3).countP (isTimed F)

theorem Rows.length_line {s s' : Rows F} {line : List UInt8} (h : s.line line = .ok s') :
    s'.entries.length = s.entries.length + if isTimed F line then 1 else 0 := by
  rw [Rows.line] at h
  cases htext : decodeLine line with
  | error e =>
    rw [htext] at h
    exact nomatch h
  | ok text =>
    simp only [htext, bind, Except.bind] at h
    by_cases hskip : isSkipped (trimLineEnd text) = true
    · rw [if_pos hskip] at h
      rw [← Except.ok.inj h]
      simp [isTimed, htext, hskip]
    · rw [if_neg hskip] at h
      cases ht : rowTime (F := F) (trimLineEnd text) with
      | none =>
        rw [ht] at h
        rw [← Except.ok.inj h]
        simp [isTimed, htext, ht]
      | some t =>
        rw [ht] at h
        rw [← Except.ok.inj h]
        simp [isTimed, htext, hskip, ht]

theorem Rows.length_run {lines : List (List UInt8)} {s s' : Rows F}
    (h : lines.foldlM Rows.line s = .ok s') :
    s'.entries.length = s.entries.length + lines.countP (isTimed F) := by
  induction lines generalizing s with
  | nil => exact congrArg (fun s => s.entries.length) (Except.ok.inj h).symm
  | cons line lines ih =>
    obtain ⟨s₁, h₁, h⟩ := except_bind_eq_ok.mp h
    have hstep := Rows.length_line h₁
    have hrest := ih h
    rw [List.countP_cons]
    omega

theorem contents_eq_ok {path : String} {f : File} {i : Index F} (h : contents path f = .ok i) :
    ∃ header s, readHeaders f.bytes = .ok header ∧
      header.lines.foldlM Rows.line ⟨header.dataStart, [], 0⟩ = .ok s ∧
      i = header.index path f s := by
  obtain ⟨header, hh, h⟩ := except_bind_eq_ok.mp h
  obtain ⟨s, hs, h⟩ := except_bind_eq_ok.mp h
  exact ⟨header, s, hh, hs, (Except.ok.inj h).symm⟩

theorem length_entries {path : String} {f : File} {i : Index F} (h : contents path f = .ok i) :
    i.entries.length = f.timedRows F := by
  obtain ⟨header, s, hh, hs, rfl⟩ := contents_eq_ok h
  have hlength := Rows.length_run hs
  rw [(readHeaders_lines hh).2] at hlength
  simpa [Header.index, File.timedRows] using hlength

/-- One by one, the rows of entries in full. -/
def fullColumns (f : File) (selected : List ℕ) (entries : List (ℕ × F)) : List (List (Option F)) :=
  entries.foldl (fun columns e => pushRow columns (valuesAt f selected e))
    (List.replicate selected.length [])

/-- What holds of the first scan. -/
structure Scanned (path : String) (f : File) (query : Query F) (i : Index F)
    (columns : List (List (Option F))) : Prop where
  contents : contents path f = .ok i
  entries : ∀ e ∈ i.entries, f.Holds e
  full : i.entries.length ≤ fullDetailRows →
    columns = fullColumns f (selectedColumns i.labels query) i.entries
  columns : f.HasColumns columns

theorem hasColumns_fullColumns {f : File} (selected : List ℕ) {entries : List (ℕ × F)}
    (h : ∀ e ∈ entries, f.Holds e) : f.HasColumns (fullColumns f selected entries) := by
  have hstart := f.hasColumns_replicate (F := F) selected.length
  rw [fullColumns]
  generalize List.replicate selected.length ([] : List (Option F)) = columns at hstart
  induction entries generalizing columns with
  | nil => exact hstart
  | cons e entries ih =>
    exact ih (fun e' he' => h e' (List.mem_cons_of_mem _ he')) _
      (hstart.pushRow ((h e List.mem_cons_self).has selected))

theorem scanned {path : String} {f : File} {query : Query F} {i : Index F}
    {columns : List (List (Option F))} (h : Index.scan path f query = .ok (i, columns)) :
    Scanned path f query i columns := by
  have hcontents : contents path f = .ok i := by
    rw [← scan_fst path f query, h]
    rfl
  obtain ⟨header, hh, h⟩ := except_bind_eq_ok.mp h
  obtain ⟨s, hs, h⟩ := except_bind_eq_ok.mp h
  obtain ⟨rfl, rfl⟩ := Prod.mk.inj (Except.ok.inj h)
  obtain ⟨hlines, hdrop⟩ := readHeaders_lines hh
  have hstart : (Scan.start (F := F) header.dataStart
      (selectedColumns header.labels query).length).Reads f (selectedColumns header.labels query)
      (f.bytes.drop header.dataStart) :=
    { position := rfl
      lines := fun line hl => List.mem_of_mem_drop (hdrop ▸ hlines ▸ hl)
      entries := fun e he => nomatch he
      full := fun _ => rfl
      bucket := fun b hb => nomatch hb
      overview := f.hasColumns_replicate _ }
  have hend := hstart.run hlines hs
  refine ⟨hcontents, hend.entries, fun hle => ?_, ?_⟩
  · exact (if_pos hle).trans (hend.full hle)
  · by_cases hle : s.entries.length ≤ fullDetailRows
    · rw [if_pos hle, hend.full hle]
      exact hasColumns_fullColumns _ hend.entries
    · rw [if_neg hle]
      exact hend.overview.finish hend.bucket

section Build

variable {path : String} {f : File}

theorem exists_scan {c : Index F} (h : contents path f = .ok c) (query : Query F) :
    ∃ columns, Index.scan path f query = .ok (c, columns) := by
  rw [← scan_fst path f query] at h
  cases hs : Index.scan path f query with
  | error e =>
    rw [hs] at h
    exact nomatch h
  | ok r =>
    rw [hs] at h
    exact ⟨r.2, by rw [← Except.ok.inj h]⟩

theorem holds_of_contents {c : Index F} (h : contents path f = .ok c) :
    ∀ e ∈ c.entries, f.Holds e := by
  obtain ⟨columns, hs⟩ := exists_scan h ⟨none, none, none, none⟩
  exact (scanned hs).entries

theorem build_of_error {e : String} (h : contents (F := F) path f = .error e) (name : String)
    (query : Query F) : Index.build path f name query = .error e := by
  rw [← scan_fst path f query] at h
  rw [Index.build]
  cases hs : Index.scan path f query with
  | error e' =>
    rw [hs] at h
    exact h
  | ok r =>
    rw [hs] at h
    exact nomatch h

theorem build_of_ok {c : Index F} (h : contents path f = .ok c) (name : String) (query : Query F) :
    ∃ columns, Index.scan path f query = .ok (c, columns) ∧
      Index.build path f name query = .ok { c with
        views := [(query.whole, c.view name (selectedColumns c.labels query) c.entries.length
          columns)] } := by
  obtain ⟨columns, hs⟩ := exists_scan h query
  refine ⟨columns, hs, ?_⟩
  rw [Index.build, hs]
  rfl

end Build

/-! ## Rows read again -/

theorem chunksFrom_flatten {α : Type} (size : ℕ) (xs chunk : List α) :
    (chunksFrom size xs chunk).flatten = chunk ++ xs := by
  induction xs generalizing chunk with
  | nil => cases chunk <;> simp [chunksFrom]
  | cons x xs ih =>
    rw [chunksFrom.eq_def]
    dsimp only
    split_ifs
    · rw [List.flatten_cons, ih, List.nil_append, List.append_assoc, List.singleton_append]
    · rw [ih, List.append_assoc, List.singleton_append]

theorem chunks_flatten {α : Type} (size : ℕ) (xs : List α) : (chunks size xs).flatten = xs :=
  chunksFrom_flatten size xs []

theorem mem_of_mem_chunks {α : Type} {size : ℕ} {xs chunk : List α} (h : chunk ∈ chunks size xs)
    {x : α} (hx : x ∈ chunk) : x ∈ xs :=
  chunks_flatten size xs ▸ List.mem_flatten.mpr ⟨chunk, h, hx⟩

theorem chunks_one {α : Type} (xs : List α) : chunks 1 xs = xs.map fun x => [x] := by
  induction xs with
  | nil => rfl
  | cons x xs ih =>
    rw [chunks, chunksFrom, List.map_cons, ← ih]
    rfl

def bucketOf (f : File) (selected : List ℕ) (entries : List ((ℕ × F) × ℕ)) : Option (Bucket F) :=
  entries.foldl (fun bucket e => some (Bucket.grow bucket ⟨e.2, valuesAt f selected e.1⟩)) none

theorem rereadBucket_eq {f : File} (selected : List ℕ) {entries : List ((ℕ × F) × ℕ)}
    (h : ∀ e ∈ entries, f.Holds e.1) :
    rereadBucket f selected entries = .ok (bucketOf f selected entries) := by
  rw [rereadBucket, bucketOf]
  generalize (none : Option (Bucket F)) = bucket
  induction entries generalizing bucket with
  | nil => rfl
  | cons e entries ih =>
    obtain ⟨⟨offset, time⟩, k⟩ := e
    obtain ⟨row, -, hread, -⟩ := h _ List.mem_cons_self
    have hread : rowAt f offset = .ok row := hread
    rw [List.foldlM_cons, List.foldl_cons, valuesAt]
    dsimp only
    rw [hread]
    exact ih (fun e he => h e (List.mem_cons_of_mem _ he)) _

theorem hasBucket_bucketOf {f : File} (selected : List ℕ) {entries : List ((ℕ × F) × ℕ)}
    (h : ∀ e ∈ entries, f.Holds e.1) : ∀ b ∈ bucketOf f selected entries, f.HasBucket b := by
  have hstart : ∀ b ∈ (none : Option (Bucket F)), f.HasBucket b := fun b hb => nomatch hb
  rw [bucketOf]
  generalize (none : Option (Bucket F)) = bucket at hstart
  induction entries generalizing bucket with
  | nil => exact hstart
  | cons e entries ih =>
    refine ih (fun e' he' => h e' (List.mem_cons_of_mem _ he')) _ fun b hb => ?_
    rw [← Option.some.inj hb]
    exact File.hasBucket_grow hstart ((h e List.mem_cons_self).has selected)

/-- The entries a query is about, with their numbers. -/
def Index.covered (i : Index F) (query : Query F) : List ((ℕ × F) × ℕ) :=
  i.entries.zipIdx.filter fun e => query.covers e.1.2

/-- How many rows there are to a bucket. -/
def Index.bucketSize (i : Index F) (query : Query F) : ℕ :=
  if (i.covered query).length > fullDetailRows then
    divCeil (i.covered query).length (bucketCount query (selectedColumns i.labels query))
  else 1

/-- The columns of the rows that are read again. -/
def Index.rowsColumns (i : Index F) (f : File) (query : Query F) : List (List (Option F)) :=
  (chunks (i.bucketSize query) (i.covered query)).foldl
    (fun columns chunk => finishBucket (bucketOf f (selectedColumns i.labels query) chunk) columns)
    (List.replicate (selectedColumns i.labels query).length [])

theorem Index.holds_covered {i : Index F} {f : File} (h : ∀ e ∈ i.entries, f.Holds e)
    (query : Query F) : ∀ e ∈ i.covered query, f.Holds e.1 :=
  fun _ he => h _ (List.fst_mem_of_mem_zipIdx (List.mem_of_mem_filter he))

theorem Index.rowsView_eq {i : Index F} {f : File} (h : ∀ e ∈ i.entries, f.Holds e) (name : String)
    (query : Query F) :
    i.rowsView f name query = .ok (i.view name (selectedColumns i.labels query)
      (i.covered query).length (i.rowsColumns f query)) := by
  have hfold : ∀ (l : List (List ((ℕ × F) × ℕ))) (columns : List (List (Option F))),
      (∀ chunk ∈ l, ∀ e ∈ chunk, f.Holds e.1) →
      l.foldlM (fun columns chunk => do
        let bucket ← rereadBucket f (selectedColumns i.labels query) chunk
        return finishBucket bucket columns) columns =
      (.ok (l.foldl (fun columns chunk =>
        finishBucket (bucketOf f (selectedColumns i.labels query) chunk) columns) columns) :
          Except String (List (List (Option F)))) := by
    intro l
    induction l with
    | nil => exact fun _ _ => rfl
    | cons chunk l ih =>
      intro columns hl
      rw [List.foldlM_cons, rereadBucket_eq _ (hl chunk List.mem_cons_self)]
      exact ih _ fun c hc => hl c (List.mem_cons_of_mem _ hc)
  have hchunks := hfold (chunks (i.bucketSize query) (i.covered query))
    (List.replicate (selectedColumns i.labels query).length [])
    fun chunk hc e he => i.holds_covered h query e (mem_of_mem_chunks hc he)
  exact congrArg (· >>= fun columns => (.ok (i.view name (selectedColumns i.labels query)
    (i.covered query).length columns) : Except String (View F))) hchunks

theorem Index.hasColumns_rowsColumns {i : Index F} {f : File} (h : ∀ e ∈ i.entries, f.Holds e)
    (query : Query F) : f.HasColumns (i.rowsColumns f query) := by
  have hchunks : ∀ chunk ∈ chunks (i.bucketSize query) (i.covered query), ∀ e ∈ chunk,
      f.Holds e.1 := fun chunk hc e he => i.holds_covered h query e (mem_of_mem_chunks hc he)
  have hstart := f.hasColumns_replicate (F := F) (selectedColumns i.labels query).length
  rw [Index.rowsColumns]
  generalize List.replicate (selectedColumns i.labels query).length ([] : List (Option F)) =
    columns at hstart
  generalize chunks (i.bucketSize query) (i.covered query) = l at hchunks
  induction l generalizing columns with
  | nil => exact hstart
  | cons chunk l ih =>
    exact ih _ (hstart.finish (hasBucket_bucketOf _ (hchunks chunk List.mem_cons_self)))
      fun c hc => hchunks c (List.mem_cons_of_mem _ hc)

theorem Index.covered_whole (i : Index F) (query : Query F) :
    i.covered query.whole = i.entries.zipIdx :=
  List.filter_eq_self.mpr fun _ _ => rfl

/-- Few rows are shown one by one. -/
theorem Index.rowsColumns_few {i : Index F} (h : i.entries.length ≤ fullDetailRows) (f : File)
    (query : Query F) :
    i.rowsColumns f query =
      ((i.covered query).map fun e => valuesAt f (selectedColumns i.labels query) e.1).foldl pushRow
        (List.replicate (selectedColumns i.labels query).length []) := by
  have hle : (i.covered query).length ≤ fullDetailRows :=
    ((List.length_filter_le _ _).trans_eq List.length_zipIdx).trans h
  have hsize : i.bucketSize query = 1 := by rw [Index.bucketSize, if_neg (by omega)]
  rw [Index.rowsColumns, hsize, chunks_one, List.foldl_map, List.foldl_map]
  congr 1
  funext columns e
  exact Bucket.finish_new _ columns

/-- **At full detail the rows read again are the rows of the first scan.** -/
theorem Index.rowsColumns_full {i : Index F} (h : i.entries.length ≤ fullDetailRows) (f : File)
    (query : Query F) :
    i.rowsColumns f query.whole = fullColumns f (selectedColumns i.labels query) i.entries := by
  have hvalues : (i.entries.zipIdx.map fun e => valuesAt f (selectedColumns i.labels query) e.1) =
      i.entries.map (valuesAt f (selectedColumns i.labels query)) := by
    conv_rhs => rw [← List.zipIdx_map_fst 0 i.entries, List.map_map]
    rfl
  rw [i.rowsColumns_few h, i.covered_whole, fullColumns]
  exact (congrArg (List.foldl pushRow _) hvalues).trans List.foldl_map

end RustyTune.Server.LogView
