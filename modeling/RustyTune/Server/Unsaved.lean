import RustyTune.Server.Lifecycle
import RustyTune.Server.Lock

/-!
# Unsaved offline edits

* `KeepsEdits`: while the offline tune is dirty, the event leaves it as it is; an edit changes what it
  edits, and closing the session may discard it.
* `NotReopened`: no file is opened while the offline tune is dirty.
* **`offline_edits_kept`**: in a run in which no file is opened so, every event keeps the edits;
  **`reopening_clean`**: opening one leaves nothing dirty. **`reopening_discards`**.
-/

namespace RustyTune.Server

open TsIni TuneModel EcuProto

variable {F : Type}

/-- The tune of an offline session has unsaved edits. -/
def App.unsaved (a : App F) : Bool := a.status.offline && a.tune.anyDirty

/-- The event leaves unsaved offline edits. -/
def KeepsEdits [F64 F] (m : Machine) (a : App F) (e : Event F) : Prop :=
  a.unsaved = true →
    match e with
    | .offlineClose _ => True
    | .edit _ _ => Rewrites a.tune (a.next m e).tune
    | e => (a.next m e).tune = a.tune

def NotReopened (a : App F) : Event F → Prop
  | .offlineOpen _ => a.unsaved = false
  | _ => True

instance : ∀ (a : App F) (e : Event F), Decidable (NotReopened a e)
  | a, .offlineOpen _ => inferInstanceAs (Decidable (a.unsaved = false))
  | _, .connect _ _ _ | _, .disconnect _ | _, .offlineClose _ | _, .edit _ _ | _, .burn _
  | _, .calibrationWrite _ _ | _, .msqUpload _ _ _ | _, .lockRelease _ | _, .read _
  | _, .autoConnect _ _ | _, .reconnect | _, .threadSection _ | _, .threadReport _
  | _, .threadError _ | _, .engineShutdown _ => isTrue trivial

namespace App

variable {a : App F} [F64 F] {m : Machine}

/-- A connect is refused while there are unsaved edits. -/
theorem doConnect_of_unsaved (hu : a.unsaved = true) (req : ConnectReq)
    (opened : Except String Unit) : (a.doConnect req opened).2 = a := by
  have hmay : a.mayConnect = refuse .conflict
      "offline tune has unsaved changes — save it as .msq or close the offline session first" :=
    if_pos hu
  rw [App.doConnect]
  split
  · rfl
  · rw [hmay]
    rfl

omit [F64 F] in
theorem tune_shutdownComms (hr : a.running = false) : a.shutdownComms.tune = a.tune := by
  rw [App.shutdownComms, hr]
  rfl

omit [F64 F] in
theorem tune_locked (client : String) {body : App F → Reply × App F}
    (hbody : ∀ b : App F, (body b).2.tune = b.tune) : (a.locked client body).2.tune = a.tune := by
  unfold App.locked
  split
  · rfl
  · exact hbody _

theorem rewrites_edit (client : String) (e : TuneEdit F) :
    Rewrites a.tune (a.edit m client e).2.tune := by
  unfold App.edit App.locked
  split
  · exact .refl _
  · dsimp only
    split
    · exact .refl _
    next r t ht => exact (performEdit_rewrites ht).1

/-- **One event.** -/
theorem keepsEdits_of_notReopened (h : a.Apart) {e : Event F} (he : NotReopened a e) :
    KeepsEdits m a e := by
  intro hu
  have hoff : a.status.offline = true := (Bool.and_eq_true _ _ ▸ hu).1
  have hr : a.running = false := h.not_running hoff
  cases e with
  | offlineOpen client => exact absurd (hu.symm.trans he) (by simp)
  | offlineClose client => trivial
  | edit client e => exact rewrites_edit client e
  | connect client req opened => exact congrArg (·.tune) (doConnect_of_unsaved hu req opened)
  | autoConnect req opened =>
    simp only [App.next, step, App.autoConnect]
    split_ifs
    · rfl
    · exact congrArg (·.tune) (doConnect_of_unsaved hu req opened)
  | disconnect client =>
    simp only [App.next, step, App.disconnect]
    split
    · rfl
    · exact tune_shutdownComms hr
  | reconnect => exact tune_shutdownComms hr
  | burn client => exact tune_locked client fun b => by rw [command_eq]
  | calibrationWrite client table =>
    simp only [App.next, step, App.calibrationWrite]
    split
    · rfl
    · exact tune_locked client fun b => by rw [command_eq]
  | msqUpload client filename file =>
    simp only [App.next, step, App.msqUpload]
    split
    · rfl
    · split_ifs <;> rfl
  | lockRelease client => rfl
  | read client => rfl
  | threadSection s =>
    simp only [App.next, step, App.threadSection]
    split_ifs with hpaged
    · obtain ⟨c, hc, hpaged⟩ := (Option.any_eq_true _ _).mp hpaged
      have hrun : a.running = true :=
        (Option.any_eq_true _ _).mpr ⟨c, hc, (Bool.and_eq_true _ _ ▸ hpaged).1⟩
      exact absurd (hr.symm.trans hrun) Bool.false_ne_true
    · rfl
  | threadReport r =>
    simp only [App.next, step, App.threadReport, hr]
    rfl
  | threadError e =>
    simp only [App.next, step, App.threadError, hr]
    rfl
  | engineShutdown written =>
    simp only [App.next, step, App.engineShutdown, hr]
    rfl

omit [F64 F] in
theorem anyDirty_syncShadows (t : Tune F) (loaded : Bool) :
    (t.syncShadows.setLoaded loaded).anyDirty = false := by
  refine List.any_eq_false.mpr fun k _ => ?_
  rw [Tune.pageDirty, Tune.page, Tune.setLoaded, Tune.syncShadows, List.getElem?_map]
  cases t.pages[k]? <;> simp

/-- **A file that is opened leaves nothing dirty**, whatever was edited. -/
theorem reopening_clean (client : String) (hdone : (a.step m (.offlineOpen client)).1 = done) :
    (a.next m (.offlineOpen client)).tune.anyDirty = false := by
  simp only [App.next, step, App.offlineOpen] at hdone ⊢
  split_ifs at hdone ⊢ with hc
  · cases hdone
  · split at hdone
    · cases hdone
    next name file hmsq =>
      simp only [hmsq]
      split at hdone
      · cases hdone
      next report t hopen =>
        dsimp only
        rw [Server.openOffline, Exec.bind_eq_ok] at hopen
        obtain ⟨⟨report', t'⟩, -, ht⟩ := hopen
        obtain ⟨-, rfl⟩ := Prod.mk.inj (Except.ok.inj ht)
        exact anyDirty_syncShadows t' true

end App

/-- **Unsaved edits are kept** by every event of a run in which no file is opened while there are any. -/
theorem offline_edits_kept [F64 F] (m : Machine) (df : IniDef F) (events : List (Event F))
    (hr : Along (App.next m) NotReopened (App.start df) events) :
    Along (App.next m) (KeepsEdits m) (App.start df) events :=
  hr.ensures (fun _ e h _ => h.next e) (fun _ _ h he => App.keepsEdits_of_notReopened h he)
    (App.apart_start df)

/-- A file is opened and edited. -/
def editedFile : List (Event XRat) :=
  [.msqUpload "a" "tune.msq" (.ok (Msq.oneEntry "reqFuel" (.num 5))), .offlineOpen "a",
    .edit "a" (.setConstant "reqFuel" 7)]

theorem offline_edits_kept_connect :
    Along (App.next ⟨.release, 8⟩) (KeepsEdits ⟨.release, 8⟩) (App.start oneConstantDef)
      (editedFile ++ [.connect "a" ⟨"ttyACM0", 115200, "primary"⟩ (.ok ())]) :=
  offline_edits_kept ⟨.release, 8⟩ oneConstantDef
    (editedFile ++ [.connect "a" ⟨"ttyACM0", 115200, "primary"⟩ (.ok ())]) (by decide +kernel)

/-- **Opening the file again discards the edits.** -/
theorem reopening_discards : ¬ ∀ (df : IniDef XRat) (events : List (Event XRat)),
    Along (App.next ⟨.release, 8⟩) (KeepsEdits ⟨.release, 8⟩) (App.start df) events := by
  intro h
  have hrun := h oneConstantDef (editedFile ++ [.offlineOpen "a"])
  rw [along_append] at hrun
  have hkept := hrun.2.1 (by decide +kernel)
  have hdirty := congrArg (·.anyDirty) hkept
  revert hdirty
  decide +kernel

end RustyTune.Server
