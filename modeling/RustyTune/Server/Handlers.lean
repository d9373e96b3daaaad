import RustyTune.Server.Api

/-!
# Requests one at a time

The handlers of the server as functions of its state, each run to its end before the next, with the
comms thread as the handlers see it: a handle that is kept until the thread is joined.

* `App`: the shared state and the handle. `stopThread`, `shutdownComms`.
* `doConnect`, `disconnect`, `reconnect`, `offlineOpen`, `offlineClose`: the handlers that begin and
  end a session.
* `edit`, `burn`, `calibrationWrite`, `msqUpload`: requests within a session.
* `Event`, `App.step`: everything that happens, the comms thread included. A handler that aborts keeps
  the tune's mutex from everyone after it.
-/

namespace RustyTune.Server

open TsIni TuneModel EcuProto

variable {F : Type}

/-- The comms thread of a handle. -/
structure Comms where
  /-- It has the page commands, over the primary serial. -/
  paged : Bool
  /-- It is still in its loop. -/
  running : Bool
  deriving DecidableEq, Repr

structure App (F : Type) extends AppState F where
  comms : Option Comms

/-- The body of a connect request. -/
structure ConnectReq where
  port : String
  baud : UInt32
  mode : String
  deriving DecidableEq, Repr

def modeOf : String → Option Mode
  | "primary" => some .primary
  | "secondary" => some .secondary
  | _ => none

/-- What a handler answers, unless it aborts. -/
abbrev Reply := Exec (Except ApiError Unit)

def refuse (code : StatusCode) (message : String) : Reply := .ok (.error ⟨code, message⟩)

/-- The answer of a handler that is done. -/
def done : Reply := .ok (.ok ())

namespace App

/-- A comms thread is in its loop. -/
def running (a : App F) : Bool := a.comms.any (·.running)

/-- What the thread does when it ends over an error, or is told to shut down. -/
def stopThread (a : App F) (error : Option ProtoError) : App F :=
  { a with tune := a.tune.setLoaded false, status := a.status.ended error }

/-- Tell the thread of the handle to shut down, and join it. -/
def shutdownComms (a : App F) : App F :=
  { (if a.running then a.stopThread none else a) with comms := none }

/-! ## Sessions -/

section Sessions

variable [F64 F] (m : Machine)

/-- The status, the tune and the lock of a new connection. -/
def newSession (a : App F) (req : ConnectReq) : App F :=
  { a with
    status :=
      { connected := true, port := some req.port, mode := some req.mode, baud := some req.baud }
    tune := freshTune a.df a.tune
    writer := none }

/-- The request passes the checks that come before the old thread is reaped. -/
def mayConnect (a : App F) : Reply :=
  if a.status.offline && a.tune.anyDirty then
    refuse .conflict "offline tune has unsaved changes — save it as .msq or close the offline session first"
  else if a.comms.isSome && a.status.connected then refuse .conflict "already connected"
  else done

/-- Connect over the port; `opened`: what opening it gives. -/
def doConnect (a : App F) (req : ConnectReq) (opened : Except String Unit) : Reply × App F :=
  match modeOf req.mode with
  | none => (refuse .badRequest s!"unknown mode `{req.mode}` (want primary|secondary)", a)
  | some mode =>
    match a.mayConnect with
    | .ok (.ok ()) =>
      -- a thread that exited on its own is reaped
      let a := a.shutdownComms
      match opened with
      | .error e => (refuse .badRequest s!"open {req.port}: {e}", a)
      | .ok () =>
        match Template.parse a.df.ochGetCommand with
        | .error e => (refuse .internalServerError e.display, a)
        | .ok _ =>
          let a := a.newSession req
          match mode with
          | .secondary => (done, { a with comms := some ⟨false, true⟩ })
          | .primary =>
            match pageCommands a.df.header with
            | .error e => (refuse .internalServerError e.display, a)
            | .ok _ => (done, { a with comms := some ⟨true, true⟩ })
    | refused => (refused, a)

def disconnect (a : App F) : Reply × App F :=
  match a.comms with
  | none => (refuse .conflict "not connected", a)
  | some _ => (done, a.shutdownComms)

/-- The management socket's way to make the supervisor connect anew. -/
def reconnect (a : App F) : Reply × App F := (done, a.shutdownComms)

/-- What the supervisor does when it looks at the status. -/
def autoConnect (a : App F) (req : ConnectReq) (opened : Except String Unit) : Reply × App F :=
  if a.status.connected then (done, a) else a.doConnect req opened

/-- Open the uploaded file with no ECU. -/
def offlineOpen (a : App F) : Reply × App F :=
  if a.status.connected then (refuse .conflict "connected to an ECU — disconnect first", a)
  else
    match a.msq with
    | none => (refuse .conflict "no .msq uploaded", a)
    | some (_, file) =>
      match Server.openOffline m a.df file a.tune with
      | .error e => (.error e, a)
      | .ok (_, t) =>
        (done, { a with tune := t, writer := none, status := { offline := true, tuneLoaded := true } })

/-- End the offline session and discard its tune. -/
def offlineClose (a : App F) : Reply × App F :=
  if !a.status.offline then (refuse .conflict "not in offline mode", a)
  else (done, { a with tune := freshTune a.df a.tune, writer := none, status := {} })

end Sessions

/-! ## Requests within a session -/

section Requests

variable [F64 F] (m : Machine)

/-- A request that needs the tuning lock. -/
def locked (a : App F) (client : String) (body : App F → Reply × App F) : Reply × App F :=
  match acquireWriter a.writer client with
  | .error e => (.ok (.error e), a)
  | .ok writer => body { a with writer }

def edit (a : App F) (client : String) (e : TuneEdit F) : Reply × App F :=
  a.locked client fun a =>
    match performEdit m a.df a.msq a.tune e with
    | .error e => (.error e, a)
    | .ok (r, t) => (.ok r, { a with tune := t })

omit [F64 F] in
/-- A command for the comms thread; what it then does is its own step. -/
def command (a : App F) : Reply × App F :=
  match a.comms with
  | none => (refuse .conflict "not connected", a)
  | some c => if c.running then (done, a) else (refuse .conflict "comms thread gone", a)

omit [F64 F] in
def burn (a : App F) (client : String) : Reply × App F := a.locked client command

omit [F64 F] in
/-- The table is built before the lock is asked for. -/
def calibrationWrite (a : App F) (client : String) (table : Except String (List UInt8)) :
    Reply × App F :=
  match table with
  | .error e => (refuse .badRequest e, a)
  | .ok _ => a.locked client command

omit [F64 F] in
def msqUpload (a : App F) (filename : String) (file : Except String (Msq.MsqFile F)) :
    Reply × App F :=
  match file with
  | .error e => (refuse .badRequest e, a)
  | .ok file =>
    if file.constants.entries.isEmpty then
      (refuse .badRequest "no constants found — not a .msq tune?", a)
    else (done, { a with msq := some (filename, file) })

omit [F64 F] in
def lockRelease (a : App F) (client : String) : Reply × App F :=
  (done, { a with writer := Server.lockRelease a.writer client })

end Requests

end App

/-! ## Events -/

/-- A section of the comms thread under the tune's mutex. -/
inductive Section
  | loadPage (pageIdx : ℕ) (bytes : List UInt8)
  /-- The download is verified. -/
  | loaded
  | markSent (pageIdx offset len : ℕ)
  | resyncEcu (pageIdx : ℕ) (bytes : List UInt8)
  | markBurned (pageIdx : ℕ)

def Section.run (t : Tune F) : Section → Tune F
  | loadPage k bytes => t.loadPage k bytes
  | loaded => t.setLoaded true
  | markSent k offset len => t.markSent k offset len
  | resyncEcu k bytes => t.resyncEcu k bytes
  | markBurned k => t.markBurned k

inductive Event (F : Type)
  | connect (client : String) (req : ConnectReq) (opened : Except String Unit)
  | disconnect (client : String)
  | offlineOpen (client : String)
  | offlineClose (client : String)
  | edit (client : String) (e : TuneEdit F)
  | burn (client : String)
  | calibrationWrite (client : String) (table : Except String (List UInt8))
  | msqUpload (client : String) (filename : String) (file : Except String (Msq.MsqFile F))
  | lockRelease (client : String)
  /-- A request that reads, or that is about logs. -/
  | read (client : String)
  /-- The supervisor looks at the status. -/
  | autoConnect (req : ConnectReq) (opened : Except String Unit)
  /-- The management socket asks for a reconnect. -/
  | reconnect
  | threadSection (s : Section)
  | threadReport (r : Report)
  /-- The thread ends over an I/O error or an error of the ECU. -/
  | threadError (e : ProtoError)
  /-- The thread ends with the engine stopped; `written`: what writing the request for power-off gives. -/
  | engineShutdown (written : Except String Unit)

/-- The client whose request it is. -/
def Event.client : Event F → Option String
  | connect c _ _ | disconnect c | offlineOpen c | offlineClose c | edit c _ | burn c
  | calibrationWrite c _ | msqUpload c _ _ | lockRelease c | read c => some c
  | autoConnect _ _ | reconnect | threadSection _ | threadReport _ | threadError _
  | engineShutdown _ => none

namespace App

/-- The thread leaves its loop by itself; its handle stays. -/
def leave (a : App F) : App F :=
  { a with comms := a.comms.map fun c => { c with running := false } }

def threadSection (a : App F) (s : Section) : App F :=
  if a.comms.any fun c => c.running && c.paged then { a with tune := s.run a.tune } else a

def threadReport (a : App F) (r : Report) : App F :=
  if a.running then { a with status := r.run a.df a.status } else a

def threadError (a : App F) (e : ProtoError) : App F :=
  if a.running then (a.stopThread (some e)).leave else a

def engineShutdown (a : App F) (written : Except String Unit) : App F :=
  if a.running then { a with status := a.status.engineStopped written }.leave else a

variable [F64 F] (m : Machine)

def step (a : App F) : Event F → Reply × App F
  | .connect _ req opened => a.doConnect req opened
  | .disconnect _ => a.disconnect
  | .offlineOpen _ => a.offlineOpen m
  | .offlineClose _ => a.offlineClose
  | .edit client e => a.edit m client e
  | .burn client => a.burn client
  | .calibrationWrite client table => a.calibrationWrite client table
  | .msqUpload _ filename file => a.msqUpload filename file
  | .lockRelease client => a.lockRelease client
  | .read _ => (done, a)
  | .autoConnect req opened => a.autoConnect req opened
  | .reconnect => a.reconnect
  | .threadSection s => (done, a.threadSection s)
  | .threadReport r => (done, a.threadReport r)
  | .threadError e => (done, a.threadError e)
  | .engineShutdown written => (done, a.engineShutdown written)

def next (a : App F) (e : Event F) : App F := (a.step m e).2

/-- The server as it starts. -/
def start (df : IniDef F) : App F where
  df := df
  status := {}
  tune := Tune.new df
  writer := none
  msq := none
  comms := none

end App

end RustyTune.Server
