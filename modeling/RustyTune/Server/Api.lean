import RustyTune.Server.Geometry
import RustyTune.TuneModel.Edits

/-!
# The requests of the clients

What the handlers share: the status, the tune, the tuning lock and the uploaded file. Each handler is
a sequence of sections, one for every mutex it takes.

* `Status`, `AppState`, `ApiError`; `Report`: what the comms thread writes into the status.
* `acquireWriter`, `lockRelease`: the tuning lock.
* `TuneEdit`, `performEdit`: the edits of a tune that is loaded. **`performEdit_rewrites`**: they change
  bytes of the local data and variables at most, and nothing of a tune that is not loaded.
* `freshTune`, `openOffline`: the tunes that connecting and opening a file put in its place.
-/

namespace RustyTune.Server

open TsIni TuneModel EcuProto

variable {F : Type}

/-! ## State -/

inductive StatusCode
  | badRequest
  | notFound
  | conflict
  | locked
  | internalServerError
  deriving DecidableEq, Repr

/-- The body of an error answer, with its status code. -/
structure ApiError where
  code : StatusCode
  message : String
  deriving DecidableEq, Repr

/-- The log that is being written. -/
structure LogStatus where
  path : String
  rows : UInt64
  deriving DecidableEq, Repr

/-- Connection status, as every client sees it. -/
@[ext]
structure Status where
  connected : Bool := false
  port : Option String := none
  mode : Option String := none
  baud : Option UInt32 := none
  frames : UInt64 := 0
  crcErrors : UInt64 := 0
  timeouts : UInt64 := 0
  /-- What the ECU answered to the INI's `queryCommand`, in primary mode only. -/
  ecuSignature : Option String := none
  /-- All tune pages downloaded and verified. -/
  tuneLoaded : Bool := false
  /-- Editing an opened file with no ECU. -/
  offline : Bool := false
  lastError : Option String := none
  log : Option LogStatus := none
  deriving DecidableEq, Repr

/-- What the handlers and the comms thread share. -/
structure AppState (F : Type) where
  df : IniDef F
  status : Status
  tune : Tune F
  /-- Client id holding the tuning write lock. -/
  writer : Option String
  /-- Uploaded file: its name, and what it holds. -/
  msq : Option (String × Msq.MsqFile F)

/-! ## Reports of the comms thread -/

/-- What goes wrong in the thread's loop without ending it. -/
inductive Failure
  | download (e : ProtoError)
  | automaticLogging (e : String)
  | datalogWrite (e : String)
  | pageWrite (pageIdx : ℕ) (e : ProtoError)
  | verification (pageIdx : ℕ)
  | retention (path e : String)

def Failure.display : Failure → String
  | download e => s!"tune download failed: {e.display}"
  | automaticLogging e => s!"automatic logging: {e}"
  | datalogWrite e => s!"datalog write failed: {e}"
  | pageWrite pageIdx e => s!"write to page {pageIdx + 1} failed: {e.display}"
  | verification pageIdx =>
    s!"page {pageIdx + 1} write verification failed; resynced from ECU"
  | retention path e => s!"log retention {path}: {e}"

/-- What the comms thread writes into the status while it is in its loop. -/
inductive Report
  /-- The answer to the signature query. -/
  | signature (text : String)
  | tuneLoaded
  | failed (failure : Failure)
  | logStarted (path : String)
  | logFinished
  /-- A realtime block; `rows`: of the log, if one is written; `recovered`: the ECU had gone silent. -/
  | frame (rows : Option UInt64) (recovered : Bool)
  | crcMismatch
  /-- No answer; `silent`: for the third time in a row. -/
  | timeout (silent : Bool)

def Report.run (df : IniDef F) (s : Status) : Report → Status
  | signature text =>
    { s with
      ecuSignature := some text
      lastError :=
        if text = df.signature then s.lastError
        else some s!"signature mismatch: ECU says `{text}`, INI is `{df.signature}`" }
  | tuneLoaded => { s with tuneLoaded := true }
  | failed failure => { s with lastError := some failure.display }
  | logStarted path => { s with log := some ⟨path, 0⟩ }
  | logFinished => { s with log := none }
  | frame rows recovered =>
    { s with
      frames := s.frames + 1
      log :=
        match s.log, rows with
        | some log, some rows => some { log with rows }
        | log, _ => log
      lastError := if recovered then none else s.lastError }
  | crcMismatch => { s with crcErrors := s.crcErrors + 1 }
  | timeout silent =>
    { s with
      timeouts := s.timeouts + 1
      lastError := if silent then some "ECU not responding" else s.lastError }

/-- The status a thread leaves behind that is told to shut down, or ends over `error`; its log is
finished. -/
def Status.ended (s : Status) (error : Option ProtoError) : Status :=
  { s with
    connected := false, tuneLoaded := false, log := none
    lastError := error.elim s.lastError fun e => some e.display }

/-- The status when the engine has stopped; `written`: what writing the request for power-off gives. -/
def Status.engineStopped (s : Status) : Except String Unit → Status
  | .ok () => { s with log := none }
  | .error e =>
    { s with log := none, lastError := some s!"automatic shutdown request failed: {e}" }

theorem Report.connected_run (df : IniDef F) (s : Status) (r : Report) :
    (r.run df s).connected = s.connected ∧ (r.run df s).offline = s.offline := by
  cases r <;> exact ⟨rfl, rfl⟩

/-! ## The tuning lock -/

/-- First writer takes the lock; everyone else is read-only until release. -/
def acquireWriter (writer : Option String) (id : String) : Except ApiError (Option String) :=
  match writer with
  | none => .ok (some id)
  | some current =>
    if current = id then .ok (some current)
    else .error ⟨.locked, "another client holds the tuning lock"⟩

/-- Only the holder frees the lock. -/
def lockRelease (writer : Option String) (id : String) : Option String :=
  if writer = some id then none else writer

/-! ## Edits -/

structure CellEdit (F : Type) where
  row : ℕ
  col : ℕ
  value : F

structure PointEdit (F : Type) where
  axis : String
  index : ℕ
  value : F

/-- A request that edits the tune. -/
inductive TuneEdit (F : Type)
  | tableAxis (id axis : String) (index : ℕ) (value : F)
  | tableCells (id : String) (cells : List (CellEdit F))
  | curvePoints (id : String) (points : List (PointEdit F))
  | setConstant (name : String) (value : F)
  | msqApply (names : Option (List String))

variable [F64 F] (m : Machine)

/-- The outcome of an attempt: an error leaves the tune as it was. -/
def editOutcome (t : Tune F) (x : Attempt (Tune F)) : Exec (Except ApiError Unit × Tune F) := do
  match ← x.run with
  | .ok t' => return (.ok (), t')
  | .error e => return (.error ⟨.badRequest, e.display⟩, t)

/-- The cells one after the other; those before the first error stay written. -/
def setCells (id : String) : List (CellEdit F) → Tune F → Exec (Except ApiError Unit × Tune F)
  | [], t => return (.ok (), t)
  | cell :: cells, t => do
    match ← editOutcome t (t.setTableCell m id cell.row cell.col cell.value) with
    | (.ok (), t') => setCells id cells t'
    | (.error e, t') => return (.error e, t')

/-- The points of a curve one after the other. -/
def setPoints (xBin yBin : String) :
    List (PointEdit F) → Tune F → Exec (Except ApiError Unit × Tune F)
  | [], t => return (.ok (), t)
  | p :: points, t =>
    if p.axis ≠ "x" ∧ p.axis ≠ "y" then
      return (.error ⟨.badRequest, s!"axis must be x or y, got `{p.axis}`"⟩, t)
    else do
      let bin := if p.axis = "x" then xBin else yBin
      match ← editOutcome t (t.setArrayElement m bin p.index p.value) with
      | (.ok (), t') => setPoints xBin yBin points t'
      | (.error e, t') => return (.error e, t')

/-- A section that needs a loaded tune. -/
def whenLoaded (t : Tune F) (body : Exec (Except ApiError Unit × Tune F)) :
    Exec (Except ApiError Unit × Tune F) :=
  if t.loaded then body else return (.error ⟨.conflict, "tune not loaded"⟩, t)

/-- What an edit request does to the tune once its client has the lock. -/
def performEdit (df : IniDef F) (msq : Option (String × Msq.MsqFile F)) (t : Tune F) :
    TuneEdit F → Exec (Except ApiError Unit × Tune F)
  | .tableAxis id axis index value =>
    whenLoaded t (editOutcome t (t.setTableAxis m id axis index value))
  | .tableCells id cells => whenLoaded t (setCells m id cells t)
  | .curvePoints id points =>
    match df.curves.get? id with
    | none => return (.error ⟨.notFound, s!"unknown curve `{id}`"⟩, t)
    | some curve =>
      match curve.yBins with
      | [] => return (.error ⟨.conflict, s!"curve `{id}` has no yBins"⟩, t)
      | yBin :: _ => whenLoaded t (setPoints m curve.xBins.1 yBin points t)
  | .setConstant name value =>
    whenLoaded t (editOutcome t
      (if !df.constants.containsKey name && df.pcVariables.containsKey name then
        t.setPcValue m name value
      else
        t.setConstant m name value))
  | .msqApply names =>
    match msq with
    | none => return (.error ⟨.conflict, "no .msq uploaded"⟩, t)
    | some (_, file) =>
      whenLoaded t do
        let (_, t') ← Msq.apply m file t names
        return (.ok (), t')

/-! ## The tune of a session -/

/-- Pages anew; the variables carry over. -/
def freshTune (df : IniDef F) (previous : Tune F) : Tune F :=
  { Tune.new df with pcValues := previous.pcValues }

/-- The tune of an opened file: its values, with nothing to be sent. -/
def openOffline (df : IniDef F) (file : Msq.MsqFile F) (previous : Tune F) :
    Exec (Msq.ApplyReport × Tune F) := do
  let (report, t) ← Msq.apply m file (freshTune df previous) none
  return (report, t.syncShadows.setLoaded true)

/-! ## What edits leave alone -/

open Exec

variable {m} {df : IniDef F} {msq : Option (String × Msq.MsqFile F)} {t t' : Tune F}
  {r : Except ApiError Unit}

omit [F64 F] in
theorem editOutcome_rewrites {x : Attempt (Tune F)} (hx : Yields x (Rewrites t))
    (h : editOutcome t x = .ok (r, t')) : Rewrites t t' := by
  rw [editOutcome, bind_eq_ok] at h
  obtain ⟨y, hy, h⟩ := h
  cases y with
  | error e =>
    rw [← (Prod.mk.inj (Except.ok.inj h)).2]
    exact .refl t
  | ok t₁ =>
    rw [← (Prod.mk.inj (Except.ok.inj h)).2]
    exact hx t₁ hy

theorem setCells_rewrites {id : String} : ∀ {cells : List (CellEdit F)} {t : Tune F},
    setCells m id cells t = .ok (r, t') → Rewrites t t'
  | [], t, h => by
    rw [← (Prod.mk.inj (Except.ok.inj h)).2]
    exact .refl t
  | cell :: cells, t, h => by
    rw [setCells, bind_eq_ok] at h
    obtain ⟨⟨r₁, t₁⟩, h₁, h⟩ := h
    have hr := editOutcome_rewrites
      (fun u hu => (setTableCell_sameFrame m t id _ _ _ u hu).toRewrites) h₁
    cases r₁ with
    | error e =>
      rw [← (Prod.mk.inj (Except.ok.inj h)).2]
      exact hr
    | ok u => exact hr.trans (setCells_rewrites h)

theorem setPoints_rewrites {xBin yBin : String} : ∀ {points : List (PointEdit F)} {t : Tune F},
    setPoints m xBin yBin points t = .ok (r, t') → Rewrites t t'
  | [], t, h => by
    rw [← (Prod.mk.inj (Except.ok.inj h)).2]
    exact .refl t
  | p :: points, t, h => by
    rw [setPoints] at h
    split_ifs at h
    · rw [← (Prod.mk.inj (Except.ok.inj h)).2]
      exact .refl t
    all_goals
      rw [bind_eq_ok] at h
      obtain ⟨⟨r₁, t₁⟩, h₁, h⟩ := h
      have hr := editOutcome_rewrites
        (fun u hu => (setArrayElementImpl_sameFrame m t _ _ _ _ u hu).toRewrites) h₁
      cases r₁ with
      | error e =>
        rw [← (Prod.mk.inj (Except.ok.inj h)).2]
        exact hr
      | ok u => exact hr.trans (setPoints_rewrites h)

omit [F64 F] in
theorem whenLoaded_rewrites {body : Exec (Except ApiError Unit × Tune F)}
    (hb : body = .ok (r, t') → Rewrites t t') (h : whenLoaded t body = .ok (r, t')) :
    Rewrites t t' ∧ (t.loaded = false → t' = t) := by
  unfold whenLoaded at h
  split_ifs at h with hl
  · exact ⟨hb h, fun hl' => nomatch hl.symm.trans hl'⟩
  · rw [← (Prod.mk.inj (Except.ok.inj h)).2]
    exact ⟨.refl t, fun _ => rfl⟩

/-- **An edit changes bytes of the local data and variables at most, and nothing of a tune that is not
loaded.** -/
theorem performEdit_rewrites {e : TuneEdit F} (h : performEdit m df msq t e = .ok (r, t')) :
    Rewrites t t' ∧ (t.loaded = false → t' = t) := by
  have hself (ht : t' = t) : Rewrites t t' ∧ (t.loaded = false → t' = t) :=
    ⟨ht ▸ .refl t', fun _ => ht⟩
  cases e with
  | tableAxis id axis index value =>
    exact whenLoaded_rewrites (editOutcome_rewrites fun u hu =>
      (setTableAxis_sameFrame m t id axis index value u hu).toRewrites) h
  | tableCells id cells => exact whenLoaded_rewrites setCells_rewrites h
  | curvePoints id points =>
    rw [performEdit] at h
    split at h
    · exact hself (Prod.mk.inj (Except.ok.inj h)).2.symm
    · split at h
      · exact hself (Prod.mk.inj (Except.ok.inj h)).2.symm
      · exact whenLoaded_rewrites setPoints_rewrites h
  | setConstant name value =>
    refine whenLoaded_rewrites (editOutcome_rewrites ?_) h
    split_ifs
    · exact setPcValue_rewrites m t name value
    · exact fun u hu => (setConstantImpl_sameFrame m t name value true u hu).toRewrites
  | msqApply names =>
    simp only [performEdit] at h
    split at h
    · exact hself (Prod.mk.inj (Except.ok.inj h)).2.symm
    · refine whenLoaded_rewrites (fun h => ?_) h
      rw [bind_eq_ok] at h
      obtain ⟨⟨report, t₁⟩, happ, h⟩ := h
      rw [← (Prod.mk.inj (Except.ok.inj h)).2]
      exact Msq.apply_rewrites happ

end RustyTune.Server
