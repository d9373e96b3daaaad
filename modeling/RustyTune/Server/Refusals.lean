import RustyTune.Server.Batches
import RustyTune.Server.Lock

/-!
# A connect that fails

* `SameSession`: status, tune and lock are as they were.
* `HalfConnects`: the request gets as far as the page commands, and there are none.
  `Fresh`: status, tune and lock are already those of a new connection.
* **`doConnect_refused_iff`**: a connect that fails leaves the session exactly when it does not get as far
  as the page commands, or the session is fresh. **`half_connected`**: it may get there.
-/

namespace RustyTune.Server

open TsIni TuneModel EcuProto Exec

variable {F : Type}

namespace App

section Connecting

variable [F64 F] {a : App F} {req : ConnectReq} {opened : Except String Unit}

/-- Status, tune and lock are as they were. -/
structure SameSession (a b : App F) : Prop where
  status : b.status = a.status
  tune : b.tune = a.tune
  writer : b.writer = a.writer

/-- The request gets as far as the page commands, and there are none. -/
structure HalfConnects (a : App F) (req : ConnectReq) (opened : Except String Unit) : Prop where
  mode : req.mode = "primary"
  saved : a.status.offline = true → a.tune.anyDirty = false
  idle : a.comms = none ∨ a.status.connected = false
  opened : opened = .ok ()
  template : (Template.parse a.df.ochGetCommand).isOk = true
  commands : (pageCommands a.df.header).isOk = false

omit [F64 F] in
def zeroPage (size : UInt32) : PageState where
  data := List.replicate size.toNat 0
  ecu := List.replicate size.toNat 0
  burned := List.replicate size.toNat 0

/-- The session is that of a connection nothing has happened on: connected with these settings, nothing
counted, no error, no log, a tune of zeros that is not loaded, and the lock free. -/
structure Fresh (a : App F) (req : ConnectReq) : Prop where
  connected : a.status.connected = true
  port : a.status.port = some req.port
  mode : a.status.mode = some req.mode
  baud : a.status.baud = some req.baud
  frames : a.status.frames = 0
  crcErrors : a.status.crcErrors = 0
  timeouts : a.status.timeouts = 0
  ecuSignature : a.status.ecuSignature = none
  tuneLoaded : a.status.tuneLoaded = false
  offline : a.status.offline = false
  lastError : a.status.lastError = none
  log : a.status.log = none
  ofDf : a.tune.df = a.df
  pages : a.tune.pages = a.df.header.pageSizes.map zeroPage
  loaded : a.tune.loaded = false
  writer : a.writer = none

/-- The session is fresh exactly when a new one leaves it. -/
theorem sameSession_newSession_iff : SameSession a (a.newSession req) ↔ Fresh a req := by
  constructor
  · rintro ⟨hs, ht, hw⟩
    have hstatus {α : Type} (f : Status → α) : f a.status = f (a.newSession req).status := by rw [hs]
    have htune {α : Type} (f : Tune F → α) : f a.tune = f (a.newSession req).tune := by rw [ht]
    exact ⟨hstatus (·.connected), hstatus (·.port), hstatus (·.mode), hstatus (·.baud),
      hstatus (·.frames), hstatus (·.crcErrors), hstatus (·.timeouts), hstatus (·.ecuSignature),
      hstatus (·.tuneLoaded), hstatus (·.offline), hstatus (·.lastError), hstatus (·.log),
      htune (·.df), htune (·.pages), htune (·.loaded), hw.symm⟩
  · rintro ⟨hconnected, hport, hmode, hbaud, hframes, hcrc, htimeouts, hsignature, htuneLoaded, hoffline,
      hlastError, hlog, hdf, hpages, hloaded, hwriter⟩
    have hstatus : (a.newSession req).status = a.status :=
      Status.ext hconnected.symm hport.symm hmode.symm hbaud.symm hframes.symm hcrc.symm htimeouts.symm
        hsignature.symm htuneLoaded.symm hoffline.symm hlastError.symm hlog.symm
    have htune : (a.newSession req).tune = a.tune := by
      change (⟨a.df, a.df.header.pageSizes.map zeroPage, a.tune.pcValues, false⟩ : Tune F) = a.tune
      rw [← hpages, ← hloaded, ← hdf]
    exact ⟨hstatus, htune, hwriter.symm⟩

omit [F64 F] in
theorem HalfConnects.mayConnect (h : HalfConnects a req opened) : a.mayConnect = done := by
  refine mayConnect_eq_done.mpr ⟨?_, ?_⟩
  · cases hoff : a.status.offline with
    | false => rfl
    | true => exact h.saved hoff
  · rcases h.idle with hcomms | hconn
    · rw [hcomms]
      rfl
    · rw [hconn, Bool.and_false]

omit [F64 F] in
theorem modeOf_eq_primary {mode : String} : modeOf mode = some .primary ↔ mode = "primary" := by
  unfold modeOf
  split <;> simp_all

omit [F64 F] in
theorem shutdownComms_idle (hidle : a.running = false) : a.shutdownComms = { a with comms := none } := by
  rw [shutdownComms, if_neg (by rw [hidle]; exact Bool.false_ne_true)]

/-- A connect that gets as far as the page commands, and no further. -/
theorem doConnect_of_halfConnects (hidle : a.running = false) (h : HalfConnects a req opened) :
    ∃ e, a.doConnect req opened = (.ok (.error e), { a with comms := none }.newSession req) := by
  have hmode := modeOf_eq_primary.mpr h.mode
  have hmay := h.mayConnect
  obtain ⟨-, -, -, rfl, htemplate, hcommands⟩ := h
  cases htpl : Template.parse a.df.ochGetCommand with
  | error e => simp [htpl, Except.isOk, Except.toBool] at htemplate
  | ok template =>
    cases hpages : pageCommands a.df.header with
    | ok set => simp [hpages, Except.isOk, Except.toBool] at hcommands
    | error e =>
      have hpages' : pageCommands ({ a with comms := none }.newSession req).df.header = .error e := hpages
      refine ⟨⟨.internalServerError, e.display⟩, ?_⟩
      simp only [doConnect, hmode, hmay, done, shutdownComms_idle hidle, htpl, hpages']
      rfl

theorem sameSession_of_error (hidle : a.running = false) (hno : ¬ HalfConnects a req opened)
    {e : ApiError} (h : (a.doConnect req opened).1 = .ok (.error e)) :
    SameSession a (a.doConnect req opened).2 := by
  have hreaped : SameSession a { a with comms := none } := ⟨rfl, rfl, rfl⟩
  have hsame : SameSession a a := ⟨rfl, rfl, rfl⟩
  unfold doConnect at h ⊢
  rw [shutdownComms_idle hidle] at h ⊢
  cases hmode : modeOf req.mode with
  | none => exact hsame
  | some mode =>
    simp only [hmode] at h
    dsimp only
    split at h
    next hmay =>
      cases opened with
      | error text => exact hreaped
      | ok =>
        cases htpl : Template.parse a.df.ochGetCommand with
        | error e' => simpa only [htpl] using hreaped
        | ok template =>
          simp only [htpl] at h ⊢
          cases mode with
          | secondary => exact nomatch Except.ok.inj h
          | primary =>
            cases hpages : pageCommands a.df.header with
            | error e' =>
              obtain ⟨hsaved, hidle⟩ := mayConnect_eq_done.mp hmay
              refine absurd ⟨modeOf_eq_primary.mp hmode, fun hoff => ?_, ?_, rfl, by rw [htpl]; rfl,
                by rw [hpages]; rfl⟩ hno
              · rwa [hoff, Bool.true_and] at hsaved
              · rwa [Bool.and_eq_false_iff, Option.isSome_eq_false_iff, Option.isNone_iff_eq_none]
                  at hidle
            | ok set =>
              have hpages' : pageCommands ({ a with comms := none }.newSession req).df.header = .ok set :=
                hpages
              rw [hpages'] at h
              exact nomatch Except.ok.inj h
    next => exact hsame

/-- **A connect that fails changes nothing, exactly when it does not get as far as the page commands or
the session is fresh already.** -/
theorem doConnect_refused_iff (hidle : a.running = false) :
    (∀ e, (a.doConnect req opened).1 = .ok (.error e) → SameSession a (a.doConnect req opened).2) ↔
      (HalfConnects a req opened → Fresh a req) := by
  constructor
  · intro h hhalf
    obtain ⟨e, hrun⟩ := doConnect_of_halfConnects hidle hhalf
    have hsame := h e (by rw [hrun])
    rw [hrun] at hsame
    exact sameSession_newSession_iff.mp ⟨hsame.status, hsame.tune, hsame.writer⟩
  · intro h e he
    by_cases hhalf : HalfConnects a req opened
    · obtain ⟨e', hrun⟩ := doConnect_of_halfConnects hidle hhalf
      have hsame := sameSession_newSession_iff.mpr (h hhalf)
      rw [hrun]
      exact ⟨hsame.status, hsame.tune, hsame.writer⟩
    · exact sameSession_of_error hidle hhalf he

end Connecting

theorem doConnect_refused_iff_tuned :
    (∀ e, (tuned.doConnect ⟨"ttyACM0", 115200, "primary"⟩ (.ok ())).1 = .ok (.error e) →
      SameSession tuned (tuned.doConnect ⟨"ttyACM0", 115200, "primary"⟩ (.ok ())).2) ↔
    (HalfConnects tuned ⟨"ttyACM0", 115200, "primary"⟩ (.ok ()) →
      Fresh tuned ⟨"ttyACM0", 115200, "primary"⟩) :=
  doConnect_refused_iff rfl

/-- **A connect that fails may show as connected.** The definition has no page commands. -/
theorem half_connected : ¬ ∀ (a : App XRat) (req : ConnectReq) (opened : Except String Unit)
    (e : ApiError), a.running = false → (a.doConnect req opened).1 = .ok (.error e) →
    (a.doConnect req opened).2.status = a.status ∧ (a.doConnect req opened).2.tune = a.tune ∧
    (a.doConnect req opened).2.writer = a.writer := by
  intro h
  have hhalf : HalfConnects tuned ⟨"ttyACM0", 115200, "primary"⟩ (.ok ()) :=
    ⟨rfl, nofun, .inl rfl, rfl, by decide, by decide⟩
  obtain ⟨e, hrun⟩ := doConnect_of_halfConnects rfl hhalf
  have hsame := h tuned _ _ e rfl (by rw [hrun])
  rw [hrun] at hsame
  exact nomatch (congrArg Status.connected hsame.1 : true = false)

end App

end RustyTune.Server
