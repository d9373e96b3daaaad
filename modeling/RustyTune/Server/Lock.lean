import RustyTune.Lib.Run
import RustyTune.Server.Handlers
import RustyTune.TuneModel.Msq.Partition

/-!
# The tuning lock

* `Untouched`: page data, shadows, variables and lock are as they were.
* `Replaces`: the event begins or ends a session, and passes the checks of its handler; the handler
  then puts a fresh tune in place and frees the lock (`writer_of_replaces`).
* `untouched_of_locked_out`: while a client has the lock, what another asks for touches nothing else.
* **`lock_excludes`**: from any state in which a client has the lock, as long as no session begins or
  ends, it keeps the lock until it releases it, and the requests of the others touch nothing; and it
  is exactly those that begin or end a session that do.
-/

namespace RustyTune.Server

open TsIni TuneModel EcuProto

variable {F : Type}

/-- Page data, shadows, variables and lock are as they were. -/
structure Untouched (a b : App F) : Prop where
  writer : b.writer = a.writer
  pages : b.tune.pages = a.tune.pages
  pcValues : b.tune.pcValues = a.tune.pcValues

theorem Untouched.refl (a : App F) : Untouched a a := ⟨rfl, rfl, rfl⟩

section

variable [F64 F] (m : Machine)

/-- A connect request that passes its checks, with a port that opens. -/
def Connects (a : App F) (req : ConnectReq) (opened : Except String Unit) : Prop :=
  (modeOf req.mode).isSome = true ∧ (a.status.offline && a.tune.anyDirty) = false ∧
    (a.comms.isSome && a.status.connected) = false ∧ opened.isOk = true ∧
      (Template.parse a.df.ochGetCommand).isOk = true

/-- The event begins or ends a session. -/
def Replaces (a : App F) : Event F → Prop
  | .connect _ req opened => Connects a req opened
  | .autoConnect req opened => a.status.connected = false ∧ Connects a req opened
  | .offlineOpen _ =>
    a.status.connected = false ∧ ∃ file, a.msq.map Prod.snd = some file ∧
      (openOffline m a.df file a.tune).isOk = true
  | .offlineClose _ => a.status.offline = true
  | _ => False

end

/-- The event needs no lock, and is none of the comms thread. -/
def Event.LockFree : Event F → Prop
  | connect _ _ _ | disconnect _ | offlineOpen _ | offlineClose _ | msqUpload _ _ _ | read _
  | autoConnect _ _ | reconnect => True
  | _ => False

namespace App

variable [F64 F] {m : Machine} {a : App F}

/-! ## Sessions -/

omit [F64 F] in
theorem untouched_shutdownComms (a : App F) : Untouched a a.shutdownComms := by
  unfold shutdownComms
  split_ifs <;> exact ⟨rfl, rfl, rfl⟩

omit [F64 F] in
theorem mayConnect_eq_done : a.mayConnect = done ↔
    (a.status.offline && a.tune.anyDirty) = false ∧ (a.comms.isSome && a.status.connected) = false := by
  unfold mayConnect
  split_ifs with hdirty hc
  · exact iff_of_false nofun fun h => absurd hdirty (by rw [h.1]; exact Bool.false_ne_true)
  · exact iff_of_false nofun fun h => absurd hc (by rw [h.2]; exact Bool.false_ne_true)
  · exact iff_of_true rfl ⟨Bool.not_eq_true _ ▸ hdirty, Bool.not_eq_true _ ▸ hc⟩

/-- Connecting frees the lock if it passes its checks, and else touches nothing. -/
theorem doConnect_cases (a : App F) (req : ConnectReq) (opened : Except String Unit) :
    (Connects a req opened ∧ (a.doConnect req opened).2.writer = none) ∨
      (¬ Connects a req opened ∧ Untouched a (a.doConnect req opened).2) := by
  unfold App.doConnect
  split
  next hmode =>
    refine .inr ⟨fun h => ?_, .refl a⟩
    exact absurd h.1 (by rw [hmode]; exact Bool.false_ne_true)
  next mode hmode =>
    split
    next hmay =>
      obtain ⟨hdirty, hconn⟩ := mayConnect_eq_done.mp hmay
      have hshut := untouched_shutdownComms a
      dsimp only
      split
      next e =>
        exact .inr ⟨fun h => absurd h.2.2.2.1 Bool.false_ne_true, hshut⟩
      next =>
        have hdf : a.shutdownComms.df = a.df := by
          unfold App.shutdownComms
          split_ifs <;> rfl
        rw [hdf]
        split
        next e he =>
          refine .inr ⟨fun h => absurd h.2.2.2.2 (by rw [he]; exact Bool.false_ne_true), hshut⟩
        next tpl htpl =>
          have hall : Connects a req (.ok ()) :=
            ⟨by rw [hmode]; rfl, hdirty, hconn, rfl, by rw [htpl]; rfl⟩
          refine .inl ⟨hall, ?_⟩
          split
          · rfl
          · split <;> rfl
    next hmay =>
      refine .inr ⟨fun h => ?_, .refl a⟩
      exact hmay (mayConnect_eq_done.mpr ⟨h.2.1, h.2.2.1⟩)

/-- **An event that begins or ends a session frees the lock.** -/
theorem writer_of_replaces {e : Event F} (h : Replaces m a e) : (a.next m e).writer = none := by
  cases e with
  | connect client req opened =>
    rcases doConnect_cases a req opened with ⟨-, hw⟩ | ⟨hno, -⟩
    · exact hw
    · exact absurd h hno
  | autoConnect req opened =>
    simp only [next, step, autoConnect, h.1]
    rcases doConnect_cases a req opened with ⟨-, hw⟩ | ⟨hno, -⟩
    · exact hw
    · exact absurd h.2 hno
  | offlineOpen client =>
    obtain ⟨hc, file, hfile, hopen⟩ := h
    obtain ⟨⟨name, file⟩, hmsq, rfl⟩ := Option.map_eq_some_iff.mp hfile
    simp only [next, step, App.offlineOpen, hc, hmsq]
    cases ht : Server.openOffline m a.df file a.tune with
    | error e =>
      rw [ht] at hopen
      exact nomatch hopen
    | ok r => rfl
  | offlineClose client =>
    have hoff : a.status.offline = true := h
    simp only [next, step, App.offlineClose, hoff]
    rfl
  | _ => exact h.elim

/-! ## With the lock held -/

variable {holder client : String}

omit [F64 F] in
/-- While another client has the lock, a request that needs it touches nothing. -/
theorem locked_of_ne (hw : a.writer = some holder) (hne : client ≠ holder)
    (body : App F → Reply × App F) : (a.locked client body).2 = a := by
  unfold App.locked acquireWriter
  rw [hw]
  simp only [hne.symm, if_false]

omit [F64 F] in
/-- A request of the holder goes on with the lock it has. -/
theorem locked_self (hw : a.writer = some holder) (body : App F → Reply × App F) :
    a.locked holder body = body a := by
  unfold App.locked acquireWriter
  rw [hw]
  simp only [if_true]
  rw [← hw]

omit [F64 F] in
/-- The lock stays with its holder where the body of the request leaves it. -/
theorem writer_locked (hw : a.writer = some holder) {body : App F → Reply × App F}
    (hbody : (body a).2.writer = a.writer) : (a.locked client body).2.writer = a.writer := by
  by_cases hne : client = holder
  · rw [hne, locked_self hw, hbody]
  · rw [locked_of_ne hw hne]

omit [F64 F] in
theorem untouched_command (a : App F) : Untouched a a.command.2 := by
  unfold App.command
  split
  · exact .refl a
  · split_ifs <;> exact .refl a

/-- What needs no lock and neither begins nor ends a session touches nothing. -/
theorem untouched_of_lockFree {e : Event F} (hfree : e.LockFree) (he : ¬ Replaces m a e) :
    Untouched a (a.next m e) := by
  cases e with
  | connect client req opened =>
    rcases doConnect_cases a req opened with ⟨hyes, -⟩ | ⟨-, hu⟩
    · exact absurd hyes he
    · exact hu
  | autoConnect req opened =>
    simp only [next, step, App.autoConnect]
    split_ifs with hc
    · exact .refl a
    · rcases doConnect_cases a req opened with ⟨hyes, -⟩ | ⟨-, hu⟩
      · exact absurd ⟨Bool.not_eq_true _ ▸ hc, hyes⟩ he
      · exact hu
  | disconnect client =>
    simp only [next, step, App.disconnect]
    split
    · exact .refl a
    · exact untouched_shutdownComms a
  | reconnect => exact untouched_shutdownComms a
  | offlineOpen client =>
    simp only [next, step, App.offlineOpen]
    split_ifs with hc
    · exact .refl a
    · split
      · exact .refl a
      next name file hmsq =>
        split
        · exact .refl a
        next r hopen =>
          refine absurd ⟨Bool.not_eq_true _ ▸ hc, file, ?_, ?_⟩ he
          · rw [hmsq]; rfl
          · rw [hopen]; rfl
  | offlineClose client =>
    have hoff : a.status.offline = false := Bool.not_eq_true _ ▸ he
    simp only [next, step, App.offlineClose, hoff]
    exact .refl a
  | msqUpload client filename file =>
    simp only [next, step, App.msqUpload]
    split
    · exact .refl a
    · split_ifs
      · exact .refl a
      · exact ⟨rfl, rfl, rfl⟩
  | read client => exact .refl a
  | _ => exact hfree.elim

/-- **What another client asks for touches nothing**, unless it begins or ends a session. -/
theorem untouched_of_locked_out {e : Event F} (hw : a.writer = some holder)
    (hclient : e.client = some client) (hne : client ≠ holder) (he : ¬ Replaces m a e) :
    Untouched a (a.next m e) := by
  cases e with
  | edit client e | burn client =>
    obtain rfl := Option.some.inj hclient
    simp only [next, step, App.edit, App.burn, locked_of_ne hw hne]
    exact .refl a
  | calibrationWrite client table =>
    obtain rfl := Option.some.inj hclient
    cases table with
    | error e => exact .refl a
    | ok table =>
      simp only [next, step, App.calibrationWrite, locked_of_ne hw hne]
      exact .refl a
  | lockRelease client =>
    obtain rfl := Option.some.inj hclient
    refine ⟨?_, rfl, rfl⟩
    simp only [next, step, App.lockRelease, Server.lockRelease, hw, Option.some.injEq, hne.symm,
      if_false]
  | threadSection | threadReport | threadError | engineShutdown => exact nomatch hclient
  | _ => exact untouched_of_lockFree trivial he

/-- **The holder keeps the lock** until a session begins or ends, or it releases it. -/
theorem writer_next {e : Event F} (hw : a.writer = some holder) (he : ¬ Replaces m a e)
    (hrelease : e ≠ .lockRelease holder) : (a.next m e).writer = some holder := by
  cases e with
  | edit client e =>
    refine (writer_locked hw ?_).trans hw
    split <;> rfl
  | burn client => exact (writer_locked hw (untouched_command a).writer).trans hw
  | calibrationWrite client table =>
    cases table with
    | error e => exact hw
    | ok table => exact (writer_locked hw (untouched_command a).writer).trans hw
  | lockRelease client =>
    have hne : client ≠ holder := fun h => hrelease (h ▸ rfl)
    exact (untouched_of_locked_out hw rfl hne he).writer.trans hw
  | threadSection s =>
    simp only [next, step, App.threadSection]
    split_ifs <;> exact hw
  | threadReport r =>
    simp only [next, step, App.threadReport]
    split_ifs <;> exact hw
  | threadError e =>
    simp only [next, step, App.threadError]
    split_ifs <;> exact hw
  | engineShutdown written =>
    simp only [next, step, App.engineShutdown]
    split_ifs
    · cases written <;> exact hw
    · exact hw
  | connect client req opened | disconnect client | offlineOpen client | offlineClose client
  | msqUpload client filename file | read client | autoConnect req opened | reconnect =>
    refine (untouched_of_lockFree ?_ he).writer.trans hw
    exact trivial

end App

/-- No session begins or ends, and the holder does not release the lock. -/
def Undisputed [F64 F] (m : Machine) (holder : String) (a : App F) (e : Event F) : Prop :=
  ¬ Replaces m a e ∧ e ≠ .lockRelease holder

/-- **The lock excludes the other clients.** From a state in which `holder` has the lock, in a run in which
no session begins or ends and `holder` does not release it, `holder` keeps the lock, and of what the
others ask for exactly the requests that begin or end a session touch tune or lock. -/
theorem lock_excludes [F64 F] (m : Machine) (a : App F) (holder : String) (hw : a.writer = some holder)
    (events : List (Event F)) (hrun : Along (App.next m) (Undisputed m holder) a events) :
    let b := events.foldl (App.next m) a
    b.writer = some holder ∧ ∀ e client, e.client = some client → client ≠ holder →
      (Untouched b (b.next m e) ↔ ¬ Replaces m b e) := by
  intro b
  have hb : b.writer = some holder := by
    refine hrun.invariant (I := fun a => a.writer = some holder) ?_ hw
    exact fun a e hw he => App.writer_next hw he.1 he.2
  refine ⟨hb, fun e client hclient hne => ⟨fun hu he => ?_, fun he => ?_⟩⟩
  · have hfreed := App.writer_of_replaces he
    rw [hu.writer, hb] at hfreed
    exact nomatch hfreed
  · exact App.untouched_of_locked_out hb hclient hne he

def reqFuel : ConstantDef XRat := Msq.plainConstant "reqFuel" .scalar .u08 0 none (.num 1)

def oneConstantDef : IniDef XRat :=
  { onePageDef 4 4 with constants := IndexMap.ofList [("reqFuel", reqFuel)] }

/-- A client opens a file and edits it. -/
def editedOffline : App XRat :=
  [.msqUpload "a" "tune.msq" (.ok (Msq.oneEntry "reqFuel" (.num 5))), .offlineOpen "a",
    .edit "a" (.setConstant "reqFuel" 7)].foldl (App.next ⟨.release, 8⟩) (App.start oneConstantDef)

theorem lock_excludes_edit :
    editedOffline.writer = some "a" ∧
      Untouched editedOffline
        (editedOffline.next ⟨.release, 8⟩ (.edit "b" (.setConstant "reqFuel" 9))) := by
  have hw : editedOffline.writer = some "a" := by decide +kernel
  exact ⟨hw, ((lock_excludes ⟨.release, 8⟩ editedOffline "a" hw [] trivial).2
    (.edit "b" (.setConstant "reqFuel" 9)) "b" rfl (by decide)).mpr id⟩

/-- Another client closes the offline session: the edits are gone, and the lock is free. -/
theorem offlineClose_takes_lock : ¬ ∀ (a : App XRat) (holder client : String) (e : Event XRat),
    a.writer = some holder → e.client = some client → client ≠ holder →
      Untouched a (a.next ⟨.release, 8⟩ e) := by
  intro h
  have hu := h editedOffline "a" "b" (.offlineClose "b") (by decide +kernel) rfl (by decide)
  exact absurd hu.writer (by decide +kernel)

end RustyTune.Server
