import RustyTune.Lib.Run
import RustyTune.Server.Handlers

/-!
# The connection status tells the truth

* `Truthful`: the status says connected exactly when a comms thread is in its loop.
* `Moves`: what an event can make of connection and thread (`moves_next`).
* `Apart`: a session is live or offline; every event keeps them apart. `Inv`: and every connection has
  its thread.
* `Orderly`: no handler aborts with the tune's mutex in hand, and the thread does not leave with the
  engine stopped.
* **`connected_iff_running`**: every run of orderly events keeps the status truthful, and of the events
  that return it is exactly the engine's stop that does not.
-/

namespace RustyTune.Server

open TsIni TuneModel EcuProto

variable {F : Type}

/-- The status says connected exactly when a comms thread is in its loop. -/
def Truthful (a : App F) : Prop := a.status.connected = true ↔ a.running = true

/-- The thread leaves its loop with the engine stopped. -/
def Event.StopsWithEngine (a : App F) : Event F → Prop
  | engineShutdown _ => a.running = true
  | _ => False

section

variable [F64 F] (m : Machine)

/-- What the handler does to the tune with its mutex in hand does not abort. -/
def Returns (a : App F) : Event F → Bool
  | .edit client e =>
    !(acquireWriter a.writer client).isOk || (performEdit m a.df a.msq a.tune e).isOk
  | .offlineOpen _ =>
    a.status.connected || a.msq.all fun (_, file) => (openOffline m a.df file a.tune).isOk
  | _ => true

/-- The condition under which an event leaves the status truthful. -/
def Orderly (a : App F) (e : Event F) : Prop := Returns m a e = true ∧ ¬ e.StopsWithEngine a

end

/-! ## What an event can do -/

/-- What an event can make of the connection and the thread. -/
inductive Moves (a : App F) (e : Event F) (b : App F) : Prop
  | stays (connected : b.status.connected = a.status.connected)
      (offline : b.status.offline = a.status.offline) (running : b.running = a.running)
  | connects (connected : b.status.connected = true) (offline : b.status.offline = false)
      (running : b.running = true)
  /-- Without page commands no thread is spawned. -/
  | halfConnects (commands : (pageCommands a.df.header).isOk = false)
      (connected : b.status.connected = true) (offline : b.status.offline = false)
      (running : b.running = false)
  /-- The thread sets the status and leaves its loop. -/
  | ends (connected : b.status.connected = false) (offline : b.status.offline = a.status.offline)
      (running : b.running = false)
  /-- A file is opened, or the session with it closed. -/
  | switches (apart : a.status.connected = false ∨ a.status.offline = true)
      (connected : b.status.connected = false) (running : b.running = a.running)
  | stops (engine : e.StopsWithEngine a) (connected : b.status.connected = a.status.connected)
      (offline : b.status.offline = a.status.offline) (running : b.running = false)

namespace App

variable {df : IniDef F} {a b : App F} {e : Event F}

theorem running_leave (a : App F) : a.leave.running = false := by
  rw [running, leave]
  cases a.comms <;> rfl

theorem moves_of_eq (hc : b.status.connected = a.status.connected)
    (ho : b.status.offline = a.status.offline) (hcomms : b.comms = a.comms) : Moves a e b :=
  .stays hc ho (by rw [running, running, hcomms])

theorem moves_self (a : App F) (e : Event F) : Moves a e a := .stays rfl rfl rfl

theorem moves_shutdownComms (a : App F) (e : Event F) : Moves a e a.shutdownComms := by
  unfold shutdownComms
  split_ifs with hr
  · exact .ends rfl rfl rfl
  · exact .stays rfl rfl (Bool.not_eq_true _ ▸ hr).symm

@[simp] theorem df_shutdownComms (a : App F) : a.shutdownComms.df = a.df := by
  unfold shutdownComms
  split_ifs <;> rfl

/-- A request that needs the lock moves what its body moves. -/
theorem moves_locked (a : App F) (e : Event F) (client : String) {body : App F → Reply × App F}
    (hbody : ∀ writer, Moves a e (body { a with writer }).2) : Moves a e (a.locked client body).2 := by
  unfold locked
  split
  · exact moves_self a e
  · exact hbody _

theorem command_eq (a : App F) : a.command.2 = a := by
  unfold command
  split
  · rfl
  · split_ifs <;> rfl

variable [F64 F] {m : Machine}

theorem moves_doConnect (a : App F) (e : Event F) (req : ConnectReq) (opened : Except String Unit) :
    Moves a e (a.doConnect req opened).2 := by
  unfold doConnect
  split
  · exact moves_self a e
  · split
    · have hs := moves_shutdownComms a e
      dsimp only
      split
      · exact hs
      · split
        · exact hs
        · split
          · exact .connects rfl rfl rfl
          · split
            next he =>
              have hdf : (a.shutdownComms.newSession req).df = a.df := df_shutdownComms a
              rw [hdf] at he
              exact .halfConnects (by rw [he]; rfl) rfl rfl rfl
            · exact .connects rfl rfl rfl
    · exact moves_self a e

/-- **What an event can do.** -/
theorem moves_next (a : App F) (e : Event F) : Moves a e (a.next m e) := by
  cases e with
  | connect client req opened => exact moves_doConnect a _ req opened
  | disconnect client =>
    simp only [App.next, step, App.disconnect]
    split
    · exact moves_self a _
    · exact moves_shutdownComms a _
  | offlineOpen client =>
    simp only [App.next, step, App.offlineOpen]
    split_ifs with hc
    · exact moves_self a _
    · split
      · exact moves_self a _
      · split
        · exact moves_self a _
        · exact .switches (.inl (Bool.not_eq_true _ ▸ hc)) rfl rfl
  | offlineClose client =>
    simp only [App.next, step, App.offlineClose]
    split_ifs with hoff
    · exact moves_self a _
    · exact .switches (.inr (by simpa using hoff)) rfl rfl
  | edit client e =>
    refine moves_locked a _ client fun writer => ?_
    split
    · exact moves_of_eq rfl rfl rfl
    · exact moves_of_eq rfl rfl rfl
  | burn client =>
    refine moves_locked a _ client fun writer => ?_
    rw [command_eq]
    exact moves_of_eq rfl rfl rfl
  | calibrationWrite client table =>
    simp only [App.next, step, App.calibrationWrite]
    split
    · exact moves_self a _
    · refine moves_locked a _ client fun writer => ?_
      rw [command_eq]
      exact moves_of_eq rfl rfl rfl
  | msqUpload client filename file =>
    simp only [App.next, step, App.msqUpload]
    split
    · exact moves_self a _
    · split_ifs <;> exact moves_of_eq rfl rfl rfl
  | lockRelease client => exact moves_of_eq rfl rfl rfl
  | read client => exact moves_self a _
  | autoConnect req opened =>
    simp only [App.next, step, App.autoConnect]
    split_ifs
    · exact moves_self a _
    · exact moves_doConnect a _ req opened
  | reconnect => exact moves_shutdownComms a _
  | threadSection s =>
    simp only [App.next, step, App.threadSection]
    split_ifs <;> exact moves_of_eq rfl rfl rfl
  | threadReport r =>
    simp only [App.next, step, App.threadReport]
    split_ifs
    · exact moves_of_eq (r.connected_run a.df a.status).1 (r.connected_run a.df a.status).2 rfl
    · exact moves_self a _
  | threadError e =>
    simp only [App.next, step, App.threadError]
    split_ifs
    · exact .ends rfl rfl (running_leave _)
    · exact moves_self a _
  | engineShutdown written =>
    simp only [App.next, step, App.engineShutdown]
    split_ifs with hr
    · cases written <;> exact .stops hr rfl rfl (running_leave _)
    · exact moves_self a _

theorem df_doConnect (a : App F) (req : ConnectReq) (opened : Except String Unit) :
    (a.doConnect req opened).2.df = a.df := by
  unfold doConnect
  dsimp only
  repeat' split
  all_goals first | rfl | exact df_shutdownComms a

omit [F64 F] in
theorem df_locked (a : App F) (client : String) {body : App F → Reply × App F}
    (hbody : ∀ b : App F, (body b).2.df = b.df) : (a.locked client body).2.df = a.df := by
  unfold locked
  split
  · rfl
  · exact hbody _

/-- The definition is never replaced. -/
theorem df_next (a : App F) (e : Event F) : (a.next m e).df = a.df := by
  cases e with
  | connect client req opened => exact df_doConnect a req opened
  | edit client e =>
    refine df_locked a client fun b => ?_
    split <;> rfl
  | burn client => exact df_locked a client fun b => by rw [command_eq]
  | calibrationWrite client table =>
    simp only [App.next, step, App.calibrationWrite]
    split
    · rfl
    · exact df_locked a client fun b => by rw [command_eq]
  | disconnect client =>
    simp only [App.next, step, App.disconnect]
    split
    · rfl
    · exact df_shutdownComms a
  | reconnect => exact df_shutdownComms a
  | autoConnect req opened =>
    simp only [App.next, step, App.autoConnect]
    split_ifs
    · rfl
    · exact df_doConnect a req opened
  | offlineOpen _ | offlineClose _ | msqUpload _ _ _ | lockRelease _ | read _ | threadSection _
  | threadReport _ | threadError _ | engineShutdown _ =>
    simp only [App.next, step, App.offlineOpen, App.offlineClose, App.msqUpload, App.lockRelease,
      App.threadSection, App.threadReport, App.threadError, App.engineShutdown]
    repeat' split
    all_goals rfl

/-! ## Live or offline -/

/-- A session is live or offline. -/
structure Apart (a : App F) : Prop where
  live : a.running = true → a.status.connected = true
  offline : a.status.offline = true → a.status.connected = false

omit [F64 F] in
theorem Apart.not_running (h : a.Apart) (hoff : a.status.offline = true) : a.running = false := by
  by_contra hr
  have hc := h.live (Bool.not_eq_false _ ▸ hr)
  exact absurd ((h.offline hoff).symm.trans hc) Bool.false_ne_true

theorem apart_start (df : IniDef F) : (start df).Apart where
  live hr := absurd hr Bool.false_ne_true
  offline hoff := absurd hoff Bool.false_ne_true

/-- **Every event keeps live and offline apart.** -/
theorem Apart.next (h : a.Apart) (e : Event F) : (a.next m e).Apart := by
  cases moves_next (m := m) a e with
  | stays hc ho hr =>
    exact ⟨fun h' => hc.trans (h.live (hr.symm.trans h')),
      fun h' => hc.trans (h.offline (ho.symm.trans h'))⟩
  | connects hc ho hr => exact ⟨fun _ => hc, fun h' => nomatch ho.symm.trans h'⟩
  | halfConnects hcmd hc ho hr => exact ⟨fun _ => hc, fun h' => nomatch ho.symm.trans h'⟩
  | ends hc ho hr => exact ⟨fun h' => (nomatch hr.symm.trans h'), fun _ => hc⟩
  | switches hapart hc hr =>
    refine ⟨fun h' => ?_, fun _ => hc⟩
    have hlive := h.live (hr.symm.trans h')
    have hdis := hapart.elim id h.offline
    exact nomatch hdis.symm.trans hlive
  | stops hstop hc ho hr =>
    exact ⟨fun h' => (nomatch hr.symm.trans h'), fun h' => hc.trans (h.offline (ho.symm.trans h'))⟩

/-! ## Connected and running -/

/-- With the definition it started with, and a thread for every connection. -/
structure Inv (df : IniDef F) (a : App F) : Prop extends a.Apart where
  ofDf : a.df = df
  held : a.status.connected = true → a.running = true

omit [F64 F] in
theorem Inv.truthful (h : a.Inv df) : Truthful a := ⟨h.held, h.live⟩

/-- **Every orderly event keeps the invariant.** The page commands of a valid definition are there when the
thread is spawned. -/
theorem Inv.next (h : a.Inv df) (hset : (pageCommands df.header).isOk = true) (e : Event F)
    (he : ¬ e.StopsWithEngine a) : (a.next m e).Inv df := by
  refine ⟨h.toApart.next e, (df_next a e).trans h.ofDf, fun hconn => ?_⟩
  cases moves_next (m := m) a e with
  | stays hc ho hr => exact hr.trans (h.held (hc.symm.trans hconn))
  | connects hc ho hr => exact hr
  | halfConnects hcmd hc ho hr =>
    rw [h.ofDf] at hcmd
    exact nomatch hcmd.symm.trans hset
  | ends hc ho hr => exact nomatch hc.symm.trans hconn
  | switches hapart hc hr => exact nomatch hc.symm.trans hconn
  | stops hstop hc ho hr => exact absurd hstop he

/-- The engine's stop leaves the status connected with no thread. -/
theorem Inv.not_truthful (h : a.Inv df) {e : Event F} (he : e.StopsWithEngine a) :
    ¬ Truthful (a.next m e) := by
  cases e with
  | engineShutdown written =>
    have hr : a.running = true := he
    have hc : a.status.connected = true := h.truthful.mpr hr
    simp only [App.next, step, App.engineShutdown, hr, if_true]
    cases written with
    | ok _ =>
      intro ht
      exact nomatch (running_leave a).symm.trans (ht.mp hc)
    | error e =>
      intro ht
      exact nomatch (running_leave _).symm.trans (ht.mp hc)
  | _ => exact he.elim

end App

/-- **The status is truthful in every state that a run of orderly events reaches**; and there an event
whose handler returns leaves it truthful exactly when it is not the engine's stop. -/
theorem connected_iff_running [F64 F] {m : Machine} (df : IniDef F) (hset : (pageCommands df.header).isOk = true)
    (events : List (Event F)) (hrun : Along (App.next m) (Orderly m) (App.start df) events) :
    let a := events.foldl (App.next m) (App.start df)
    (a.status.connected = true ↔ a.running = true) ∧
      ∀ e, Returns m a e = true → (Truthful (a.next m e) ↔ ¬ e.StopsWithEngine a) := by
  intro a
  have hstart : (App.start df).Inv df := ⟨App.apart_start df, rfl, fun h => absurd h Bool.false_ne_true⟩
  have ha : a.Inv df := hrun.invariant (fun a e h he => h.next hset e he.2) hstart
  refine ⟨ha.truthful, fun e _ => ⟨fun ht he => ha.not_truthful he ht, fun he => ?_⟩⟩
  exact (ha.next hset e he).truthful

/-- Connecting over the primary serial. -/
def primaryReq : ConnectReq := ⟨"ttyACM0", 115200, "primary"⟩

/-- The engine stops, and the request for power-off is written. -/
def stoppedEngine : List (Event XRat) :=
  [.connect "a" primaryReq (.ok ()), .engineShutdown (.ok ()), .disconnect "a"]

theorem connected_iff_running_lost :
    let a := [.connect "a" primaryReq (.ok ()), .threadError .timeout].foldl (App.next ⟨.release, 8⟩)
      (App.start (onePageDef 4 4))
    a.status.connected = true ↔ a.running = true := by
  have hrun : Along (App.next ⟨.release, 8⟩) (Orderly ⟨.release, 8⟩) (App.start (onePageDef 4 4))
      [.connect "a" primaryReq (.ok ()), .threadError .timeout] :=
    ⟨⟨by decide +kernel, id⟩, ⟨by decide +kernel, id⟩, trivial⟩
  exact (connected_iff_running (onePageDef 4 4) (by decide +kernel) _ hrun).1

/-- After the engine's stop the status says connected, with the thread gone, and even disconnecting does
not reset it. -/
theorem stoppedEngine_not_truthful : ¬ ∀ (df : IniDef XRat) (events : List (Event XRat)),
    (pageCommands df.header).isOk = true →
      Truthful (events.foldl (App.next ⟨.release, 8⟩) (App.start df)) := by
  intro h
  have ht := h (onePageDef 4 4) stoppedEngine (by decide +kernel)
  exact absurd (ht.mp (by decide +kernel)) (by decide +kernel)

end RustyTune.Server
