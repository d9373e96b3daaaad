import Mathlib.Algebra.Order.Ring.Nat
import Mathlib.Data.List.Sort
import RustyTune.Lib.Run

/-!
# Recording

The comms thread writes the rows of a log to a file whose name is the second it was begun in.

* `Recorder`: the log directory and the thread's part in it, with what was ever reported as written.
* `startLog`, `finishLog`, `pruneLogs`, `writeRow`: what the thread does; `Recorder.step`: what happens.
* `Recorder.Fresh`: a log is begun under no name of a file that has rows.
* **`rows_kept`**: where every log is begun so, all rows that were reported are in the directory or were
  in a file that the retention pass deleted. **`rows_lost`**: elsewhere rows are lost.
-/

namespace RustyTune.Server

/-- A local time, by the second. -/
structure LocalTime where
  year : ℕ
  month : ℕ
  day : ℕ
  hour : ℕ
  minute : ℕ
  second : ℕ
  deriving DecidableEq, Repr

def padded (width n : ℕ) : String := String.ofList ((Nat.toDigits 10 n).leftpad width '0')

/-- `rustytune_%Y%m%d_%H%M%S.msl` -/
def logName (t : LocalTime) : String :=
  "rustytune_" ++ padded 4 t.year ++ padded 2 t.month ++ padded 2 t.day ++ "_" ++
    padded 2 t.hour ++ padded 2 t.minute ++ padded 2 t.second ++ ".msl"

/-- A row, with its number among the rows that were reported. -/
structure Row where
  number : ℕ
  line : String
  deriving DecidableEq, Repr

structure LogFile where
  name : String
  rows : List Row
  deriving DecidableEq, Repr

/-- With the row at its end, if it is the file of this name. -/
def LogFile.appended (f : LogFile) (name : String) (row : Row) : LogFile :=
  if f.name = name then { f with rows := f.rows ++ [row] } else f

/-- When a file was modified and its size, where the file system says so, and whether it lets it be
deleted. -/
structure Disk where
  metadata : String → Option (ℕ × ℕ)
  removes : String → Bool

/-- What `start_log` comes to: no file; a file without its header; a writer. -/
inductive Started
  | failed
  | headless
  | open_
  deriving DecidableEq, Repr

structure Recorder where
  /-- The log directory. -/
  files : List LogFile
  /-- The name of the file that is written to. -/
  writer : Option String
  running : Bool
  autoLog : Bool
  autoLogEnabled : Bool
  retentionBytes : ℕ
  /-- The rows that `write_row` reported as written. -/
  reported : List Row
  /-- The rows of the files that the retention pass deleted. -/
  pruned : List Row
  deriving DecidableEq, Repr

namespace Recorder

/-- Before the first connection. -/
def start (files : List LogFile) (autoLog : Bool) (retentionBytes : ℕ) : Recorder where
  files
  writer := none
  running := false
  autoLog
  autoLogEnabled := false
  retentionBytes
  reported := []
  pruned := []

/-- A file that exists is truncated. -/
def create (r : Recorder) (name : String) : Recorder :=
  { r with
    files :=
      if r.files.any (·.name = name) then
        r.files.map fun f => if f.name = name then { f with rows := [] } else f
      else r.files ++ [⟨name, []⟩] }

/-- The writer there was stays if there is no new one. -/
def startLog (r : Recorder) (name : String) : Started → Recorder
  | .failed => r
  | .headless => r.create name
  | .open_ => { r.create name with writer := some name }

/-- Whether the extension of a bare file name is `msl`. -/
def hasMslExtension (name : String) : Bool := name.endsWith ".msl" && name != ".msl"

/-- The files that are deleted, from the first on, until the rest is within the limit. -/
def pruneLoop (disk : Disk) (limit : ℕ) : ℕ → List (ℕ × ℕ × String) → List String
  | _, [] => []
  | total, (_, size, name) :: files =>
    if total ≤ limit then []
    else if disk.removes name then name :: pruneLoop disk limit (total - size) files
    else pruneLoop disk limit total files

def pruneLogs (r : Recorder) (disk : Disk) : Recorder :=
  if r.retentionBytes = 0 then r
  else
    let files := r.files.filterMap fun f =>
      if hasMslExtension f.name && some f.name != r.writer then
        (disk.metadata f.name).map fun (modified, len) => (modified, len, f.name)
      else none
    -- the oldest first
    let files := files.mergeSort fun a b => a.1 ≤ b.1
    let total := (files.map (·.2.1)).sum
    let removed := pruneLoop disk r.retentionBytes total files
    { r with
      files := r.files.filter (·.name ∉ removed)
      pruned := r.pruned ++ (r.files.filter (·.name ∈ removed)).flatMap (·.rows) }

def finishLog (r : Recorder) (disk : Disk) : Recorder :=
  match r.writer with
  | none => r
  | some _ => { r with writer := none }.pruneLogs disk

/-- `written`: the row was reported as written; else the log is finished. -/
def writeRow (r : Recorder) (line : String) (written : Bool) (disk : Disk) : Recorder :=
  match r.writer with
  | none => r
  | some name =>
    if written then
      let row : Row := ⟨r.reported.length, line⟩
      { r with
        files := r.files.map (·.appended name row)
        reported := r.reported ++ [row] }
    else r.finishLog disk

end Recorder

/-- What happens to the thread. -/
inductive RecorderStep
  | connect
  | shutdown (disk : Disk)
  | startLog (t : LocalTime) (started : Started)
  | stopLog (disk : Disk)
  /-- An answer to a poll; the engine may have stopped. -/
  | frame (t : LocalTime) (started : Started) (line : String) (written engineStopped : Bool)
    (disk : Disk)
  | disconnected (disk : Disk)

namespace Recorder

/-- Automatic logging begins a log with this answer. -/
def autoStarts (r : Recorder) : Bool := r.autoLogEnabled && r.writer.isNone

def step (r : Recorder) : RecorderStep → Recorder
  | .connect =>
    if r.running then r
    else { r with running := true, writer := none, autoLogEnabled := r.autoLog }
  | .shutdown disk => if r.running then { r.finishLog disk with running := false } else r
  | .startLog t started => if r.running then r.startLog (logName t) started else r
  | .stopLog disk =>
    if r.running then { r with autoLogEnabled := false }.finishLog disk else r
  | .frame t started line written engineStopped disk =>
    if r.running then
      let r := if r.autoStarts then r.startLog (logName t) started else r
      let r := r.writeRow line written disk
      if engineStopped then { r.finishLog disk with running := false } else r
    else r
  | .disconnected disk =>
    if r.running then { (r.finishLog disk).pruneLogs disk with running := false } else r

/-- No file of that name has rows. -/
def Unused (r : Recorder) (name : String) : Prop := ∀ f ∈ r.files, f.name = name → f.rows = []

/-- A log that is begun is begun under an unused name. -/
def Fresh (r : Recorder) : RecorderStep → Prop
  | .startLog t started => r.running = true → started ≠ .failed → r.Unused (logName t)
  | .frame t started _ _ _ _ =>
    r.running = true → r.autoStarts = true → started ≠ .failed → r.Unused (logName t)
  | _ => True

instance (r : Recorder) (name : String) : Decidable (r.Unused name) :=
  inferInstanceAs (Decidable (∀ f ∈ r.files, f.name = name → f.rows = []))

instance : ∀ (r : Recorder) (s : RecorderStep), Decidable (r.Fresh s)
  | r, .startLog t started =>
    inferInstanceAs (Decidable (r.running = true → started ≠ .failed → r.Unused (logName t)))
  | r, .frame t started _ _ _ _ =>
    inferInstanceAs (Decidable
      (r.running = true → r.autoStarts = true → started ≠ .failed → r.Unused (logName t)))
  | _, .connect | _, .shutdown _ | _, .stopLog _ | _, .disconnected _ => isTrue trivial

end Recorder

open Recorder

variable {r : Recorder} {name : String} {disk : Disk}

/-- What holds along a run whose logs are begun under unused names. -/
structure RowsKept (r : Recorder) : Prop where
  kept : ∀ row ∈ r.reported, row ∈ r.pruned ∨
    ∃ f ∈ r.files, row ∈ f.rows ∧ ∃ t, f.name = logName t
  writer : ∀ name, r.writer = some name → (∃ f ∈ r.files, f.name = name) ∧ ∃ t, name = logName t

theorem rowsKept_start (files : List LogFile) (autoLog : Bool) (retentionBytes : ℕ) :
    RowsKept (start files autoLog retentionBytes) where
  kept _ h := absurd h List.not_mem_nil
  writer _ h := nomatch h

/-- Under an unused name nothing is truncated. -/
theorem mem_create (hu : r.Unused name) {f : LogFile} (hf : f ∈ r.files) :
    f ∈ (r.create name).files := by
  rw [Recorder.create]
  split_ifs
  · refine List.mem_map.mpr ⟨f, hf, ?_⟩
    split_ifs with hname
    · rw [← hu f hf hname]
    · rfl
  · exact List.mem_append_left _ hf

theorem exists_create (r : Recorder) (name : String) : ∃ f ∈ (r.create name).files, f.name = name := by
  rw [Recorder.create]
  split_ifs with h
  · obtain ⟨f, hf, hname⟩ := List.any_eq_true.mp h
    have hname : f.name = name := of_decide_eq_true hname
    exact ⟨{ f with rows := [] }, List.mem_map.mpr ⟨f, hf, if_pos hname⟩, hname⟩
  · exact ⟨⟨name, []⟩, by simp, rfl⟩

theorem RowsKept.create (hk : RowsKept r) (hu : r.Unused name) : RowsKept (r.create name) where
  kept row hrow := (hk.kept row hrow).imp_right fun ⟨f, hf, h⟩ => ⟨f, mem_create hu hf, h⟩
  writer w hw := by
    obtain ⟨⟨f, hf, hname⟩, ht⟩ := hk.writer w hw
    exact ⟨⟨f, mem_create hu hf, hname⟩, ht⟩

theorem RowsKept.startLog (hk : RowsKept r) {t : LocalTime} {started : Started}
    (hu : started ≠ .failed → r.Unused (logName t)) : RowsKept (r.startLog (logName t) started) := by
  cases started with
  | failed => exact hk
  | headless => exact hk.create (hu nofun)
  | open_ =>
    refine ⟨(hk.create (hu nofun)).kept, fun w hw => ?_⟩
    obtain rfl := Option.some.inj hw
    exact ⟨exists_create r (logName t), t, rfl⟩

/-- The retention pass deletes no file that is written to. -/
theorem mem_pruneLoop {limit : ℕ} : ∀ {total : ℕ} {files : List (ℕ × ℕ × String)},
    name ∈ pruneLoop disk limit total files → ∃ f ∈ files, f.2.2 = name
  | _, [], h => absurd h List.not_mem_nil
  | total, (m, size, n) :: files, h => by
    rw [pruneLoop] at h
    split_ifs at h
    · exact absurd h List.not_mem_nil
    · rcases List.mem_cons.mp h with rfl | h
      · exact ⟨_, List.mem_cons_self, rfl⟩
      · obtain ⟨f, hf, hname⟩ := mem_pruneLoop h
        exact ⟨f, List.mem_cons_of_mem _ hf, hname⟩
    · obtain ⟨f, hf, hname⟩ := mem_pruneLoop h
      exact ⟨f, List.mem_cons_of_mem _ hf, hname⟩

theorem pruneLogs_cases (r : Recorder) (disk : Disk) :
    ∃ removed : List String, (∀ name, r.writer = some name → name ∉ removed) ∧
      r.pruneLogs disk =
        { r with
          files := r.files.filter (·.name ∉ removed)
          pruned := r.pruned ++ (r.files.filter (·.name ∈ removed)).flatMap (·.rows) } := by
  rw [Recorder.pruneLogs]
  split_ifs
  · exact ⟨[], fun _ _ => List.not_mem_nil, by simp⟩
  · refine ⟨_, fun name hw hmem => ?_, rfl⟩
    obtain ⟨g, hg, hname⟩ := mem_pruneLoop hmem
    rw [List.mem_mergeSort, List.mem_filterMap] at hg
    obtain ⟨f, -, hf⟩ := hg
    split_ifs at hf with hcond
    obtain ⟨m, -, rfl⟩ := Option.map_eq_some_iff.mp hf
    have hne : some f.name ≠ r.writer := by
      rw [Bool.and_eq_true] at hcond
      simpa using hcond.2
    exact hne (hw ▸ congrArg some hname)

theorem RowsKept.pruneLogs (hk : RowsKept r) (disk : Disk) : RowsKept (r.pruneLogs disk) := by
  obtain ⟨removed, hwriter, heq⟩ := pruneLogs_cases r disk
  rw [heq]
  constructor
  · intro row hrow
    rcases hk.kept row hrow with hp | ⟨f, hf, hmem, ht⟩
    · exact .inl (List.mem_append_left _ hp)
    · by_cases hname : f.name ∈ removed
      · refine .inl (List.mem_append_right _ (List.mem_flatMap.mpr ⟨f, ?_, hmem⟩))
        exact List.mem_filter.mpr ⟨hf, decide_eq_true hname⟩
      · exact .inr ⟨f, List.mem_filter.mpr ⟨hf, decide_eq_true hname⟩, hmem, ht⟩
  · intro w hw
    obtain ⟨⟨f, hf, hname⟩, ht⟩ := hk.writer w hw
    have hnot : f.name ∉ removed := hname ▸ hwriter w hw
    exact ⟨⟨f, List.mem_filter.mpr ⟨hf, decide_eq_true hnot⟩, hname⟩, ht⟩

theorem RowsKept.noWriter (hk : RowsKept r) : RowsKept { r with writer := none } where
  kept := hk.kept
  writer _ h := nomatch h

theorem RowsKept.finishLog (hk : RowsKept r) (disk : Disk) : RowsKept (r.finishLog disk) := by
  rw [Recorder.finishLog]
  cases r.writer with
  | none => exact hk
  | some name => exact hk.noWriter.pruneLogs disk

theorem LogFile.appended_name (f : LogFile) (row : Row) : (f.appended name row).name = f.name := by
  rw [appended]
  split_ifs <;> rfl

theorem LogFile.mem_appended {f : LogFile} {row new : Row} (h : row ∈ f.rows) :
    row ∈ (f.appended name new).rows := by
  rw [appended]
  split_ifs
  · exact List.mem_append_left _ h
  · exact h

theorem RowsKept.append (hk : RowsKept r) (hfile : ∃ f ∈ r.files, f.name = name)
    (ht : ∃ t, name = logName t) (row : Row) :
    RowsKept { r with
      files := r.files.map (·.appended name row), reported := r.reported ++ [row] } where
  kept old hold := by
    rcases List.mem_append.mp hold with hold | hold
    · refine (hk.kept old hold).imp_right ?_
      rintro ⟨f, hf, hmem, t, hname⟩
      exact ⟨_, List.mem_map_of_mem hf, LogFile.mem_appended hmem, t, by rw [f.appended_name, hname]⟩
    · obtain rfl := List.mem_singleton.mp hold
      obtain ⟨f, hf, rfl⟩ := hfile
      obtain ⟨t, ht⟩ := ht
      refine .inr ⟨_, List.mem_map_of_mem hf, ?_, t, by rw [f.appended_name, ht]⟩
      rw [LogFile.appended, if_pos rfl]
      exact List.mem_append_right _ (List.mem_singleton.mpr rfl)
  writer w hw := by
    obtain ⟨⟨f, hf, hname⟩, ht⟩ := hk.writer w hw
    exact ⟨⟨_, List.mem_map_of_mem hf, by rw [f.appended_name, hname]⟩, ht⟩

theorem RowsKept.writeRow (hk : RowsKept r) (line : String) (written : Bool) (disk : Disk) :
    RowsKept (r.writeRow line written disk) := by
  rw [Recorder.writeRow]
  split
  · exact hk
  next name hw =>
    split_ifs
    · obtain ⟨hfile, ht⟩ := hk.writer name hw
      exact hk.append hfile ht ⟨r.reported.length, line⟩
    · exact hk.finishLog disk

theorem RowsKept.stopped (hk : RowsKept r) : RowsKept { r with running := false } :=
  ⟨hk.kept, hk.writer⟩

/-- **One step.** -/
theorem RowsKept.step (hk : RowsKept r) (s : RecorderStep) (hs : r.Fresh s) :
    RowsKept (r.step s) := by
  by_cases hr : r.running = true
  · cases s with
    | connect =>
      rw [Recorder.step, if_pos hr]
      exact hk
    | shutdown disk =>
      rw [Recorder.step, if_pos hr]
      exact (hk.finishLog disk).stopped
    | startLog t started =>
      rw [Recorder.step, if_pos hr]
      exact hk.startLog (hs hr)
    | stopLog disk =>
      rw [Recorder.step, if_pos hr]
      have h : RowsKept { r with autoLogEnabled := false } := ⟨hk.kept, hk.writer⟩
      exact h.finishLog disk
    | frame t started line written engineStopped disk =>
      rw [Recorder.step, if_pos hr]
      have hstart : RowsKept (if r.autoStarts then r.startLog (logName t) started else r) := by
        split_ifs with hauto
        · exact hk.startLog (hs hr hauto)
        · exact hk
      have hrow := hstart.writeRow line written disk
      cases engineStopped with
      | true => exact (hrow.finishLog disk).stopped
      | false => exact hrow
    | disconnected disk =>
      rw [Recorder.step, if_pos hr]
      exact ((hk.finishLog disk).pruneLogs disk).stopped
  · cases s with
    | connect =>
      rw [Recorder.step, if_neg hr]
      exact ⟨hk.kept, nofun⟩
    | _ =>
      rw [Recorder.step, if_neg hr]
      exact hk

/-- **Rows are kept.** In a run that begins each log under an unused name, every row that was reported
as written is in a log of the directory, or was in a file that the retention pass deleted. -/
theorem rows_kept (files : List LogFile) (autoLog : Bool) (retentionBytes : ℕ)
    (steps : List RecorderStep)
    (hr : Along Recorder.step Recorder.Fresh (start files autoLog retentionBytes) steps) :
    let r := steps.foldl Recorder.step (start files autoLog retentionBytes)
    ∀ row ∈ r.reported, row ∈ r.pruned ∨
      ∃ f ∈ r.files, row ∈ f.rows ∧ ∃ t, f.name = logName t :=
  (hr.invariant (fun _ s hk hs => hk.step s hs) (rowsKept_start files autoLog retentionBytes)).kept

def noon (second : ℕ) : LocalTime := ⟨2026, 5, 1, 12, 0, second⟩

def sampleDisk : Disk := ⟨fun _ => none, fun _ => true⟩

/-- A log with a row, and another log. -/
def twoLogs (second : ℕ) : List RecorderStep :=
  [.connect, .startLog (noon 0) .open_, .frame (noon 0) .open_ "850\t14.7\r\n" true false sampleDisk,
    .stopLog sampleDisk, .startLog (noon second) .open_]

theorem rows_kept_twoLogs :
    let r := (twoLogs 1).foldl Recorder.step (start [] false 0)
    (⟨0, "850\t14.7\r\n"⟩ : Row) ∈ r.pruned ∨
      ∃ f ∈ r.files, ⟨0, "850\t14.7\r\n"⟩ ∈ f.rows ∧ ∃ t, f.name = logName t :=
  rows_kept [] false 0 (twoLogs 1) (by decide +kernel) ⟨0, "850\t14.7\r\n"⟩ (by decide +kernel)

/-- **Rows are lost.** A log that is begun in the second in which the one before was begun truncates
its file. -/
theorem rows_lost : ¬ ∀ (files : List LogFile) (autoLog : Bool) (retentionBytes : ℕ)
    (steps : List RecorderStep),
    ∀ row ∈ (steps.foldl Recorder.step (start files autoLog retentionBytes)).reported,
      row ∈ (steps.foldl Recorder.step (start files autoLog retentionBytes)).pruned ∨
      ∃ f ∈ (steps.foldl Recorder.step (start files autoLog retentionBytes)).files,
        row ∈ f.rows ∧ ∃ t, f.name = logName t := by
  intro h
  have hfiles : ((twoLogs 0).foldl Recorder.step (start [] false 0)).files =
      [⟨logName (noon 0), []⟩] := by decide +kernel
  rcases h [] false 0 (twoLogs 0) ⟨0, "850\t14.7\r\n"⟩ (by decide +kernel) with hp | ⟨f, hf, hmem, -⟩
  · revert hp
    decide +kernel
  · rw [hfiles] at hf
    obtain rfl := List.mem_singleton.mp hf
    exact absurd hmem List.not_mem_nil

end RustyTune.Server
