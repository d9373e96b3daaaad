import RustyTune.Server.Connection
import RustyTune.Server.Lock

/-!
# Offline and live

Requests and comms threads side by side. Each takes one mutex-protected section at a time, and between
two sections of one any sections of the others may come. The handle's mutex is the only one that is held
over several sections: a connect holds it from taking the old handle to storing the new one.

* `Proc`: how far a request is. `Thread`: a comms thread, with what it does next. `Sys`: both, with the
  shared state and the commands sent so far.
* `Action`, `Sys.step`: a request comes in, a request takes its next section, a thread works.
* `Races`: a connect is about to set the status while another request is between looking at the status
  and setting it, or waits for the thread it has taken.
* `Inv`: what every step but a race keeps (`Inv.step`).
* **`offline_not_live`**: in a run without races no thread is alive while the status says offline, and
  no command is sent then.
-/

namespace RustyTune.Server

open TsIni TuneModel EcuProto

variable {F : Type}

/-! ## Requests -/

/-- A connect request whose mode is known, with what opening the port gives. -/
structure Connecting where
  req : ConnectReq
  mode : Mode
  opened : Except String Unit

/-- How far a request is. -/
inductive Proc (F : Type)
  | idle
  | connectChecking (c : Connecting)
  | connectLocking (c : Connecting)
  /-- Holds the handle's mutex, and the old handle. -/
  | connectReaping (i : ℕ) (c : Connecting)
  | connectJoining (i : ℕ) (c : Connecting)
  | connectOpening (c : Connecting)
  | connectTune (c : Connecting)
  | connectWriter (c : Connecting)
  | connectSpawning (c : Connecting)
  | disconnecting
  | disconnectJoining (i : ℕ)
  | openChecking
  | openTune
  | openWriter
  | openStatus
  | closeChecking
  | closeTune
  | closeWriter
  | closeStatus
  | editing (client : String) (e : TuneEdit F)
  | editTune (e : TuneEdit F)

/-- A request as it comes in. -/
inductive ApiCall (F : Type)
  | connect (req : ConnectReq) (opened : Except String Unit)
  | disconnect
  | offlineOpen
  | offlineClose
  | edit (client : String) (e : TuneEdit F)

def ApiCall.proc : ApiCall F → Proc F
  | connect req opened =>
    match modeOf req.mode with
    | none => .idle
    | some mode => .connectChecking ⟨req, mode, opened⟩
  | disconnect => .disconnecting
  | offlineOpen => .openChecking
  | offlineClose => .closeChecking
  | edit client e => .editing client e

/-! ## Threads -/

inductive Stage
  | looping
  /-- Has set the tune not loaded, and the status is next. -/
  | leaving (error : Option ProtoError)
  | gone
  deriving DecidableEq

/-- A comms thread; without page commands it only polls. -/
structure Thread where
  pages : Option PageCommands
  phase : Phase
  crcs : ℕ → Option UInt32
  stage : Stage
  /-- A shutdown command is in its channel. -/
  told : Bool

/-- A thread as it is spawned. -/
def Thread.spawned (pages : Option PageCommands) : Thread where
  pages := pages
  phase := (pages.map fun pages => downloadNext pages 0).getD .polling
  crcs := fun _ => none
  stage := .looping
  told := false

/-- A command that writes to the ECU. -/
inductive Command
  | write (pageIdx offset : ℕ) (values : List UInt8)
  | burn (pageIdx : ℕ)
  deriving DecidableEq

/-- The command a thread sends next. -/
def Phase.command : Phase → Option Command
  | .writing k ((offset, values) :: _) _ => some (.write k offset values)
  | .burning (k :: _) => some (.burn k)
  | _ => none

/-- What a thread does. -/
inductive Work
  /-- Its next section under the tune's mutex. -/
  | lock
  | read (answers : List (Except ProtoError (List UInt8)))
  | crc (answer : Except ProtoError UInt32)
  /-- It sends a write or a burn, and gets the answer. -/
  | send (answer : Except ProtoError Unit)
  | flush
  | burn
  /-- It reports in the status. -/
  | report (r : Report)
  /-- It leaves its loop: told to, or over an error. -/
  | leave (error : Option ProtoError)
  | setStatus
  /-- It ends with the engine stopped. -/
  | engineShutdown (written : Except String Unit)

inductive Action (F : Type)
  | request (p : ℕ) (r : ApiCall F)
  | run (p : ℕ)
  | thread (i : ℕ) (w : Work)

/-! ## The system -/

/-- A command that was sent, and whether the status said offline. -/
structure Sent where
  offline : Bool
  command : Command
  deriving DecidableEq

structure Sys (F : Type) where
  shared : AppState F
  /-- What the handle's mutex holds. -/
  handle : Option ℕ
  /-- The request that holds the handle's mutex over several sections. -/
  owner : Option ℕ
  threads : List Thread
  procs : ℕ → Proc F
  sent : List Sent

namespace Sys

def goto (s : Sys F) (p : ℕ) (proc : Proc F) : Sys F :=
  { s with procs := Function.update s.procs p proc }

def modifyThread (s : Sys F) (i : ℕ) (f : Thread → Thread) : Sys F :=
  { s with threads := s.threads.modify i f }

def tell (s : Sys F) (i : ℕ) : Sys F := s.modifyThread i fun t => { t with told := true }

def joinable (s : Sys F) (i : ℕ) : Bool := (s.threads[i]?).all fun t => t.stage = .gone

variable [F64 F] (m : Machine)

/-- The port opens, and the realtime command is a template. -/
def opens (s : Sys F) (c : Connecting) : Bool :=
  c.opened.isOk && (Template.parse s.shared.df.ochGetCommand).isOk

def spawn (s : Sys F) (p : ℕ) (pages : Option PageCommands) : Sys F :=
  { s with
    threads := s.threads ++ [Thread.spawned pages]
    handle := some s.threads.length
    owner := none }.goto p .idle

/-- The next section of a request; nothing happens while it waits. -/
def runProc (s : Sys F) (p : ℕ) : Sys F :=
  match s.procs p with
  | .idle => s
  | .connectChecking c =>
    if s.shared.status.offline && s.shared.tune.anyDirty then s.goto p .idle
    else s.goto p (.connectLocking c)
  | .connectLocking c =>
    if s.owner.isSome then s
    else
      match s.handle with
      | none => { s with owner := some p, handle := none }.goto p (.connectOpening c)
      | some i => { s with owner := some p, handle := none }.goto p (.connectReaping i c)
  | .connectReaping i c =>
    if s.shared.status.connected then { s with owner := none, handle := some i }.goto p .idle
    else (s.tell i).goto p (.connectJoining i c)
  | .connectJoining i c => if s.joinable i then s.goto p (.connectOpening c) else s
  | .connectOpening c =>
    if s.opens c then
      { s with
        shared.status :=
          { connected := true, port := some c.req.port, mode := some c.req.mode
            baud := some c.req.baud } }.goto p (.connectTune c)
    else { s with owner := none }.goto p .idle
  | .connectTune c =>
    { s with shared.tune := freshTune s.shared.df s.shared.tune }.goto p (.connectWriter c)
  | .connectWriter c => { s with shared.writer := none }.goto p (.connectSpawning c)
  | .connectSpawning c =>
    match c.mode with
    | .secondary => s.spawn p none
    | .primary =>
      match pageCommands s.shared.df.header with
      | .error _ => { s with owner := none }.goto p .idle
      | .ok set => s.spawn p (some set.commands)
  | .disconnecting =>
    if s.owner.isSome then s
    else
      match s.handle with
      | none => s.goto p .idle
      | some i => ({ s with handle := none }.tell i).goto p (.disconnectJoining i)
  | .disconnectJoining i => if s.joinable i then s.goto p .idle else s
  | .openChecking => s.goto p (if s.shared.status.connected then .idle else .openTune)
  | .openTune =>
    match s.shared.msq with
    | none => s.goto p .idle
    | some (_, file) =>
      match openOffline m s.shared.df file s.shared.tune with
      -- aborts: no one gets the tune's mutex after it
      | .error _ => s.goto p .idle
      | .ok (_, t) => { s with shared.tune := t }.goto p .openWriter
  | .openWriter => { s with shared.writer := none }.goto p .openStatus
  | .openStatus => { s with shared.status := { offline := true, tuneLoaded := true } }.goto p .idle
  | .closeChecking => s.goto p (if s.shared.status.offline then .closeTune else .idle)
  | .closeTune =>
    { s with shared.tune := freshTune s.shared.df s.shared.tune }.goto p .closeWriter
  | .closeWriter => { s with shared.writer := none }.goto p .closeStatus
  | .closeStatus => { s with shared.status := {} }.goto p .idle
  | .editing client e =>
    match acquireWriter s.shared.writer client with
    | .error _ => s.goto p .idle
    | .ok writer => { s with shared.writer := writer }.goto p (.editTune e)
  | .editTune e =>
    match performEdit m s.shared.df s.shared.msq s.shared.tune e with
    | .error _ => s.goto p .idle
    | .ok (_, t) => { s with shared.tune := t }.goto p .idle

/-- A thread over the tune: one step of its connection. -/
def work (s : Sys F) (i : ℕ) (t : Thread) (pages : PageCommands) (input : Input F) : Sys F :=
  let c := Conn.step m s.shared.df pages ⟨s.shared.tune, t.phase, t.crcs⟩ input
  { s with shared.tune := c.tune }.modifyThread i fun t => { t with phase := c.phase, crcs := c.crcs }

def record (s : Sys F) (command : Command) : Sys F :=
  { s with sent := s.sent ++ [Sent.mk s.shared.status.offline command] }

/-- What thread `i` does. -/
def runThread (s : Sys F) (i : ℕ) (w : Work) : Sys F :=
  match s.threads[i]? with
  | none => s
  | some t =>
    match t.stage, w with
    | .looping, .report r => { s with shared.status := r.run s.shared.df s.shared.status }
    | .looping, .leave error =>
      match t.phase with
      | .polling =>
        if t.told || error.isSome then
          { s with shared.tune := s.shared.tune.setLoaded false }.modifyThread i
            fun t => { t with stage := .leaving error }
        else s
      | _ => s
    | .looping, .engineShutdown written =>
      match t.phase with
      | .polling =>
        { s with shared.status := s.shared.status.engineStopped written }.modifyThread i
          fun t => { t with stage := .gone }
      | _ => s
    | .leaving error, .setStatus =>
      { s with shared.status := s.shared.status.ended error }.modifyThread i
        fun t => { t with stage := .gone }
    | .looping, w =>
      match t.pages with
      | none => s
      | some pages =>
        match w with
        | .lock => s.work m i t pages .lock
        | .read answers => s.work m i t pages (.read answers)
        | .crc answer => s.work m i t pages (.crc answer)
        | .flush => s.work m i t pages .flush
        | .burn => s.work m i t pages .burn
        | .send answer =>
          match t.phase.command with
          | none => s
          | some command =>
            (s.record command).work m i t pages (.ack answer)
        | _ => s
    | _, _ => s

def step (s : Sys F) : Action F → Sys F
  | .request p r =>
    match s.procs p with
    | .idle => s.goto p r.proc
    | _ => s
  | .run p => s.runProc m p
  | .thread i w => s.runThread m i w

/-- The server as it starts, with a file uploaded or not. -/
def start (df : IniDef F) (msq : Option (String × Msq.MsqFile F)) : Sys F where
  shared := { df, status := {}, tune := Tune.new df, writer := none, msq }
  handle := none
  owner := none
  threads := []
  procs := fun _ => .idle
  sent := []

end Sys

/-! ## Races -/

/-- The request holds the handle's mutex. -/
def Proc.HoldsHandle : Proc F → Prop
  | connectReaping _ _ | connectJoining _ _ | connectOpening _ | connectTune _ | connectWriter _
  | connectSpawning _ => True
  | _ => False

/-- The request has taken thread `i`, and joins it. -/
def Proc.Joins (i : ℕ) : Proc F → Prop
  | connectReaping j _ | connectJoining j _ | disconnectJoining j => i = j
  | _ => False

/-- The connect has set the status, and is to spawn its thread. -/
def Proc.Spawns : Proc F → Prop
  | connectTune _ | connectWriter _ | connectSpawning _ => True
  | _ => False

/-- The request begins or ends offline editing, and has looked at the status. -/
def Proc.Offline : Proc F → Prop
  | openTune | openWriter | openStatus | closeTune | closeWriter | closeStatus => True
  | _ => False

/-- A connect is about to set the status, while a request has yet to set it after looking at it or joins
a thread that will. -/
def Races (s : Sys F) : Action F → Prop
  | .run p =>
    match s.procs p with
    | .connectOpening c =>
      s.opens c = true ∧ ∃ q, (s.procs q).Offline ∨ ∃ i, s.procs q = .disconnectJoining i
    | _ => False
  | _ => False

/-! ## The invariant -/

namespace Sys

/-- Thread `i` has not ended. -/
def Alive (s : Sys F) (i : ℕ) : Prop := ∃ t, s.threads[i]? = some t ∧ t.stage ≠ .gone

structure Inv (s : Sys F) : Prop where
  owner : ∀ p, (s.procs p).HoldsHandle → s.owner = some p
  taken : s.owner.isSome = true → s.handle = none
  connected : ∀ i, s.Alive i → s.shared.status.connected = true
  known : ∀ i, s.Alive i → s.handle = some i ∨ ∃ p, (s.procs p).Joins i
  unique : ∀ i j, s.Alive i → s.Alive j → i = j
  spawns : ∀ p, (s.procs p).Spawns → s.shared.status.connected = true ∧ ∀ i, ¬ s.Alive i
  pending : ∀ p, (s.procs p).Offline → s.shared.status.connected = false
  offline : s.shared.status.offline = true → s.shared.status.connected = false
  sent : ∀ c ∈ s.sent, c.offline = false

variable {s : Sys F} {p i : ℕ}

/-! ### Threads -/

theorem alive_modifyThread {f : Thread → Thread}
    (hf : ∀ t, s.threads[i]? = some t → ((f t).stage = .gone ↔ t.stage = .gone)) {j : ℕ} :
    (s.modifyThread i f).Alive j ↔ s.Alive j := by
  simp only [Alive, modifyThread, List.getElem?_modify]
  by_cases hij : i = j
  · subst hij
    cases ht : s.threads[i]? with
    | none => simp
    | some t => simp [hf t ht]
  · simp [hij]

theorem alive_end {f : Thread → Thread} (hf : ∀ t, (f t).stage = .gone) {j : ℕ} :
    (s.modifyThread i f).Alive j ↔ s.Alive j ∧ i ≠ j := by
  simp only [Alive, modifyThread, List.getElem?_modify]
  cases s.threads[j]? with
  | none => simp
  | some t =>
    by_cases hij : i = j
    · simp [hij, hf t]
    · simp [hij]

theorem not_alive_of_joinable (h : s.joinable i = true) : ¬ s.Alive i := by
  rintro ⟨t, ht, hstage⟩
  rw [joinable, ht] at h
  exact hstage (by simpa using h)

/-! ### Sections -/

theorem Inv.modifyShared (h : s.Inv) (shared : AppState F)
    (hc : shared.status.connected = s.shared.status.connected)
    (ho : shared.status.offline = s.shared.status.offline) : Inv { s with shared } where
  owner := h.owner
  taken := h.taken
  connected i hi := hc.trans (h.connected i hi)
  known := h.known
  unique := h.unique
  spawns p hp := ⟨hc.trans (h.spawns p hp).1, (h.spawns p hp).2⟩
  pending p hp := hc.trans (h.pending p hp)
  offline hoff := hc.trans (h.offline (ho.symm.trans hoff))
  sent := h.sent

theorem Inv.setTune (h : s.Inv) (tune : Tune F) : Inv { s with shared.tune := tune } :=
  h.modifyShared { s.shared with tune } rfl rfl

theorem Inv.setWriter (h : s.Inv) (writer : Option String) : Inv { s with shared.writer := writer } :=
  h.modifyShared { s.shared with writer } rfl rfl

/-- A change of a thread that neither ends nor revives it. -/
theorem Inv.modifyThread (h : s.Inv) {f : Thread → Thread}
    (hf : ∀ t, s.threads[i]? = some t → ((f t).stage = .gone ↔ t.stage = .gone)) :
    (s.modifyThread i f).Inv where
  owner := h.owner
  taken := h.taken
  connected j hj := h.connected j ((alive_modifyThread hf).mp hj)
  known j hj := h.known j ((alive_modifyThread hf).mp hj)
  unique j k hj hk := h.unique j k ((alive_modifyThread hf).mp hj) ((alive_modifyThread hf).mp hk)
  spawns p hp := ⟨(h.spawns p hp).1, fun j hj => (h.spawns p hp).2 j ((alive_modifyThread hf).mp hj)⟩
  pending := h.pending
  offline := h.offline
  sent := h.sent

theorem Inv.tell (h : s.Inv) : (s.tell i).Inv := h.modifyThread fun _ _ => Iff.rfl

theorem procs_goto (s : Sys F) (p q : ℕ) (proc : Proc F) :
    (s.goto p proc).procs q = if q = p then proc else s.procs q := Function.update_apply ..

variable {old proc : Proc F}

theorem Inv.goto (h : s.Inv) (hp : s.procs p = old) (hholds : proc.HoldsHandle → old.HoldsHandle)
    (hjoins : ∀ i, s.Alive i → old.Joins i → proc.Joins i) (hspawns : proc.Spawns → old.Spawns)
    (hoffline : proc.Offline → s.shared.status.connected = false) : (s.goto p proc).Inv := by
  subst hp
  refine ⟨fun q hq => ?_, h.taken, h.connected, fun i hi => ?_, h.unique, fun q hq => ?_, fun q hq => ?_,
    h.offline, h.sent⟩
  · rw [procs_goto] at hq
    split_ifs at hq with hqp
    · exact hqp ▸ h.owner p (hholds hq)
    · exact h.owner q hq
  · rcases h.known i hi with hh | ⟨q, hq⟩
    · exact .inl hh
    · refine .inr ⟨q, ?_⟩
      rw [procs_goto]
      split_ifs with hqp
      · exact hjoins i hi (hqp ▸ hq)
      · exact hq
  · rw [procs_goto] at hq
    split_ifs at hq with hqp
    · exact h.spawns p (hspawns hq)
    · exact h.spawns q hq
  · rw [procs_goto] at hq
    split_ifs at hq with hqp
    · exact hoffline hq
    · exact h.pending q hq

theorem Proc.Spawns.holds (h : proc.Spawns) : proc.HoldsHandle := by
  cases proc <;> first | exact h.elim | exact trivial

theorem Inv.acquire (h : s.Inv) (hp : s.procs p = old) (hfree : s.owner = none)
    (hold : ∀ i, ¬ old.Joins i) (hjoins : ∀ i, s.handle = some i → proc.Joins i)
    (hspawns : ¬ proc.Spawns) (hoffline : ¬ proc.Offline) :
    ({ s with owner := some p, handle := none }.goto p proc).Inv := by
  refine ⟨fun q hq => ?_, fun _ => rfl, h.connected, fun i hi => ?_, h.unique, fun q hq => ?_,
    fun q hq => ?_, h.offline, h.sent⟩
  · rw [procs_goto] at hq
    split_ifs at hq with hqp
    · rw [hqp]
      rfl
    · exact nomatch hfree.symm.trans (h.owner q hq)
  · rcases h.known i hi with hh | ⟨q, hq⟩
    · refine .inr ⟨p, ?_⟩
      rw [procs_goto, if_pos rfl]
      exact hjoins i hh
    · refine .inr ⟨q, ?_⟩
      have hqp : q ≠ p := by
        rintro rfl
        exact hold i (hp ▸ hq)
      rw [procs_goto, if_neg hqp]
      exact hq
  · rw [procs_goto] at hq
    split_ifs at hq
    · exact absurd hq hspawns
    · exact h.spawns q hq
  · rw [procs_goto] at hq
    split_ifs at hq
    · exact absurd hq hoffline
    · exact h.pending q hq

theorem Inv.release (h : s.Inv) (hp : s.procs p = old) (hholds : old.HoldsHandle) (handle : Option ℕ)
    (hjoins : ∀ i, s.Alive i → old.Joins i → handle = some i) :
    ({ s with owner := none, handle }.goto p .idle).Inv := by
  have howner : s.owner = some p := h.owner p (hp ▸ hholds)
  have honly : ∀ q, (s.procs q).HoldsHandle → q = p := fun q hq =>
    Option.some.inj ((h.owner q hq).symm.trans howner)
  refine ⟨fun q hq => ?_, nofun, h.connected, fun i hi => ?_, h.unique, fun q hq => ?_, fun q hq => ?_,
    h.offline, h.sent⟩
  · rw [procs_goto] at hq
    split_ifs at hq with hqp
    · exact hq.elim
    · exact absurd (honly q hq) hqp
  · rcases h.known i hi with hh | ⟨q, hq⟩
    · rw [h.taken (howner ▸ rfl)] at hh
      exact nomatch hh
    · by_cases hqp : q = p
      · subst hqp
        exact .inl (hjoins i hi (hp ▸ hq))
      · refine .inr ⟨q, ?_⟩
        rw [procs_goto, if_neg hqp]
        exact hq
  · rw [procs_goto] at hq
    split_ifs at hq with hqp
    · exact hq.elim
    · exact absurd (honly q (Proc.Spawns.holds hq)) hqp
  · rw [procs_goto] at hq
    split_ifs at hq
    · exact hq.elim
    · exact h.pending q hq

/-- **A connect sets the status.** Without a race no thread is left. -/
theorem Inv.connects (h : s.Inv) {c : Connecting} (hp : s.procs p = .connectOpening c)
    (hopen : s.opens c = true) (hrace : ¬ Races s (.run p)) {status : Status}
    (hc : status.connected = true) (ho : status.offline = false) :
    ({ s with shared.status := status }.goto p (.connectTune c)).Inv := by
  have howner : s.owner = some p := h.owner p (by rw [hp]; trivial)
  have hquiet : ∀ q, ¬ (s.procs q).Offline ∧ ∀ i, s.procs q ≠ .disconnectJoining i := by
    intro q
    simp only [Races, hp, hopen, true_and, not_exists, not_or] at hrace
    exact ⟨(hrace q).1, (hrace q).2⟩
  have hdead : ∀ i, ¬ s.Alive i := by
    intro i hi
    rcases h.known i hi with hh | ⟨q, hq⟩
    · rw [h.taken (howner ▸ rfl)] at hh
      exact nomatch hh
    · have hholds : ¬ (s.procs q).HoldsHandle := fun hh => by
        obtain rfl := Option.some.inj ((h.owner q hh).symm.trans howner)
        rw [hp] at hq
        exact hq
      cases hproc : s.procs q with
      | disconnectJoining j => exact (hquiet q).2 j hproc
      | connectReaping | connectJoining =>
        rw [hproc] at hholds
        exact hholds trivial
      | _ =>
        rw [hproc] at hq
        exact hq
  refine ⟨fun q hq => ?_, h.taken, fun i hi => absurd hi (hdead i), fun i hi => absurd hi (hdead i),
    h.unique, fun q _ => ⟨hc, hdead⟩, fun q hq => ?_, fun hoff => ?_, h.sent⟩
  · rw [procs_goto] at hq
    split_ifs at hq with hqp
    · exact hqp ▸ howner
    · exact h.owner q hq
  · rw [procs_goto] at hq
    split_ifs at hq
    · exact hq.elim
    · exact absurd hq (hquiet q).1
  · exact nomatch ho.symm.trans hoff

theorem alive_spawned {pages : Option PageCommands} (hdead : ∀ i, ¬ s.Alive i)
    (hi : (s.spawn p pages).Alive i) : i = s.threads.length := by
  obtain ⟨t, ht, hstage⟩ := hi
  change (s.threads ++ [Thread.spawned pages])[i]? = some t at ht
  by_contra hne
  rcases lt_or_gt_of_ne hne with hlt | hgt
  · rw [List.getElem?_append_left hlt] at ht
    exact hdead i ⟨t, ht, hstage⟩
  · rw [List.getElem?_append_right hgt.le, List.getElem?_singleton, if_neg (by omega)] at ht
    exact nomatch ht

/-- **A connect spawns its thread**, which is then the only one. -/
theorem Inv.spawn (h : s.Inv) {c : Connecting} (hp : s.procs p = .connectSpawning c)
    (pages : Option PageCommands) : (s.spawn p pages).Inv := by
  have howner : s.owner = some p := h.owner p (by rw [hp]; trivial)
  obtain ⟨hc, hdead⟩ := h.spawns p (by rw [hp]; trivial)
  have honly : ∀ q, (s.procs q).HoldsHandle → q = p := fun q hq =>
    Option.some.inj ((h.owner q hq).symm.trans howner)
  refine ⟨fun q hq => ?_, nofun, fun _ _ => hc, fun i hi => ?_, fun i j hi hj => ?_, fun q hq => ?_,
    fun q hq => ?_, h.offline, h.sent⟩
  · rw [Sys.spawn, procs_goto] at hq
    split_ifs at hq with hqp
    · exact hq.elim
    · exact absurd (honly q hq) hqp
  · exact .inl (congrArg some (alive_spawned hdead hi).symm)
  · exact (alive_spawned hdead hi).trans (alive_spawned hdead hj).symm
  · rw [Sys.spawn, procs_goto] at hq
    split_ifs at hq with hqp
    · exact hq.elim
    · exact absurd (honly q (Proc.Spawns.holds hq)) hqp
  · rw [Sys.spawn, procs_goto] at hq
    split_ifs at hq
    · exact hq.elim
    · exact h.pending q hq

theorem Inv.take (h : s.Inv) (hp : s.procs p = .disconnecting) (hfree : s.owner = none)
    (hi : s.handle = some i) : ({ s with handle := none }.goto p (.disconnectJoining i)).Inv := by
  refine ⟨fun q hq => ?_, fun _ => rfl, h.connected, fun j hj => ?_, h.unique, fun q hq => ?_,
    fun q hq => ?_, h.offline, h.sent⟩
  · rw [procs_goto] at hq
    split_ifs at hq with hqp
    · exact hq.elim
    · exact nomatch hfree.symm.trans (h.owner q hq)
  · rcases h.known j hj with hh | ⟨q, hq⟩
    · refine .inr ⟨p, ?_⟩
      rw [procs_goto, if_pos rfl]
      exact Option.some.inj (hh.symm.trans hi)
    · refine .inr ⟨q, ?_⟩
      have hqp : q ≠ p := by
        rintro rfl
        rw [hp] at hq
        exact hq
      rw [procs_goto, if_neg hqp]
      exact hq
  · rw [procs_goto] at hq
    split_ifs at hq
    · exact hq.elim
    · exact h.spawns q hq
  · rw [procs_goto] at hq
    split_ifs at hq
    · exact hq.elim
    · exact h.pending q hq

/-- **Offline editing begins or ends** while nothing is connected. -/
theorem Inv.setOffline (h : s.Inv) (hp : s.procs p = old) (hold : old.Offline) {status : Status}
    (hc : status.connected = false) : ({ s with shared.status := status }.goto p .idle).Inv := by
  have hdis : s.shared.status.connected = false := h.pending p (hp ▸ hold)
  have hdead : ∀ i, ¬ s.Alive i := fun i hi => nomatch hdis.symm.trans (h.connected i hi)
  refine ⟨fun q hq => ?_, h.taken, fun i hi => absurd hi (hdead i), fun i hi => absurd hi (hdead i),
    h.unique, fun q hq => ?_, fun _ _ => hc, fun _ => hc, h.sent⟩
  · rw [procs_goto] at hq
    split_ifs at hq with hqp
    · exact hq.elim
    · exact h.owner q hq
  · rw [procs_goto] at hq
    split_ifs at hq
    · exact hq.elim
    · exact nomatch hdis.symm.trans (h.spawns q hq).1

/-- **The thread ends**, and the status is no longer connected. -/
theorem Inv.ends (h : s.Inv) (hi : s.Alive i) {f : Thread → Thread} (hf : ∀ t, (f t).stage = .gone)
    {status : Status} (hc : status.connected = false) :
    ({ s with shared.status := status }.modifyThread i f).Inv := by
  have hdead : ∀ j, ¬ ({ s with shared.status := status }.modifyThread i f).Alive j := fun j hj =>
    ((alive_end hf).mp hj).2 (h.unique i j hi ((alive_end hf).mp hj).1)
  exact ⟨h.owner, h.taken, fun j hj => absurd hj (hdead j), fun j hj => absurd hj (hdead j),
    fun j _ hj => absurd hj (hdead j), fun p hp => absurd hi ((h.spawns p hp).2 i), fun _ _ => hc,
    fun _ => hc, h.sent⟩

/-- The thread ends with the engine stopped, and the status stays as it is. -/
theorem Inv.stops (h : s.Inv) {f : Thread → Thread} (hf : ∀ t, (f t).stage = .gone) :
    (s.modifyThread i f).Inv where
  owner := h.owner
  taken := h.taken
  connected j hj := h.connected j ((alive_end hf).mp hj).1
  known j hj := h.known j ((alive_end hf).mp hj).1
  unique j k hj hk := h.unique j k ((alive_end hf).mp hj).1 ((alive_end hf).mp hk).1
  spawns p hp := ⟨(h.spawns p hp).1, fun j hj => (h.spawns p hp).2 j ((alive_end hf).mp hj).1⟩
  pending := h.pending
  offline := h.offline
  sent := h.sent

theorem Inv.record (h : s.Inv) (hi : s.Alive i) (command : Command) : (s.record command).Inv where
  owner := h.owner
  taken := h.taken
  connected := h.connected
  known := h.known
  unique := h.unique
  spawns := h.spawns
  pending := h.pending
  offline := h.offline
  sent c hc := by
    rcases List.mem_append.mp hc with hc | hc
    · exact h.sent c hc
    · rw [List.mem_singleton.mp hc, ← Bool.not_eq_true]
      exact fun hoff => nomatch (h.offline hoff).symm.trans (h.connected i hi)

/-- A request that is not joining ends, or goes on to a section without claims of its own. -/
theorem Inv.pass (h : s.Inv) (hp : s.procs p = old) (hholds : proc.HoldsHandle → old.HoldsHandle)
    (hold : ∀ i, ¬ old.Joins i) (hspawns : proc.Spawns → old.Spawns) (hoffline : ¬ proc.Offline) :
    (s.goto p proc).Inv :=
  h.goto hp hholds (fun i _ hj => absurd hj (hold i)) hspawns fun ho => absurd ho hoffline

/-- A request that has joined the thread it waits for goes on. -/
theorem Inv.joined (h : s.Inv) (hp : s.procs p = old) (hjoin : s.joinable i = true)
    (hold : ∀ j, old.Joins j → j = i) (hholds : proc.HoldsHandle → old.HoldsHandle)
    (hspawns : proc.Spawns → old.Spawns) (hoffline : ¬ proc.Offline) : (s.goto p proc).Inv :=
  h.goto hp hholds (fun j hj hij => absurd (hold j hij ▸ hj) (not_alive_of_joinable hjoin)) hspawns
    fun ho => absurd ho hoffline

/-! ### Steps -/

variable [F64 F] {m : Machine}

theorem Inv.runLocking (h : s.Inv) {c : Connecting} (hp : s.procs p = .connectLocking c) :
    (s.runProc m p).Inv := by
  simp only [Sys.runProc, hp]
  split_ifs with hfree
  · exact h
  · have hfree : s.owner = none := by simpa using hfree
    split
    next hh => exact h.acquire hp hfree (fun _ => id) (fun i hi => nomatch hh.symm.trans hi) id id
    next i hh =>
      exact h.acquire hp hfree (fun _ => id) (fun j hj => Option.some.inj (hj.symm.trans hh)) id id

theorem Inv.runReaping (h : s.Inv) {c : Connecting} (hp : s.procs p = .connectReaping i c) :
    (s.runProc m p).Inv := by
  simp only [Sys.runProc, hp]
  split_ifs
  · exact h.release hp trivial (some i) fun j _ hj => congrArg some hj.symm
  · exact h.tell.goto hp id (fun _ _ hj => hj) id False.elim

theorem Inv.runOpening (h : s.Inv) {c : Connecting} (hp : s.procs p = .connectOpening c)
    (hrace : ¬ Races s (.run p)) : (s.runProc m p).Inv := by
  simp only [Sys.runProc, hp]
  split_ifs with hopen
  · exact h.connects hp hopen hrace rfl rfl
  · exact h.release hp trivial _ fun _ _ hj => hj.elim

theorem Inv.runSpawning (h : s.Inv) {c : Connecting} (hp : s.procs p = .connectSpawning c) :
    (s.runProc m p).Inv := by
  simp only [Sys.runProc, hp]
  split
  · exact h.spawn hp none
  · split
    · exact h.release hp trivial _ fun _ _ hj => hj.elim
    · exact h.spawn hp _

theorem Inv.runDisconnecting (h : s.Inv) (hp : s.procs p = .disconnecting) : (s.runProc m p).Inv := by
  simp only [Sys.runProc, hp]
  split_ifs with hfree
  · exact h
  · have hfree : s.owner = none := by simpa using hfree
    split
    · exact h.pass hp id (fun _ => id) id id
    next i hh => exact (h.take hp hfree hh).tell

theorem Inv.runOpenTune (h : s.Inv) (hp : s.procs p = .openTune) : (s.runProc m p).Inv := by
  have hc := h.pending p (hp ▸ trivial)
  simp only [Sys.runProc, hp]
  split
  · exact h.pass hp id (fun _ => id) id id
  · split
    · exact h.pass hp id (fun _ => id) id id
    · exact (h.setTune _).goto hp id (fun _ _ hj => hj) id fun _ => hc

/-- **Every section but one that races keeps the invariant.** -/
theorem Inv.runProc (h : s.Inv) (hrace : ¬ Races s (.run p)) : (s.runProc m p).Inv := by
  cases hp : s.procs p with
  | idle =>
    simp only [Sys.runProc, hp]
    exact h
  | connectChecking c =>
    simp only [Sys.runProc, hp]
    split_ifs
    · exact h.pass hp id (fun _ => id) id id
    · exact h.pass hp id (fun _ => id) id id
  | connectLocking c => exact h.runLocking hp
  | connectReaping i c => exact h.runReaping hp
  | connectJoining i c =>
    simp only [Sys.runProc, hp]
    split_ifs with hjoin
    · exact h.joined hp hjoin (fun _ => id) id id id
    · exact h
  | connectOpening c => exact h.runOpening hp hrace
  | connectTune c =>
    simp only [Sys.runProc, hp]
    exact (h.setTune _).pass hp id (fun _ => id) id id
  | connectWriter c =>
    simp only [Sys.runProc, hp]
    exact (h.setWriter _).pass hp id (fun _ => id) id id
  | connectSpawning c => exact h.runSpawning hp
  | disconnecting => exact h.runDisconnecting hp
  | disconnectJoining i =>
    simp only [Sys.runProc, hp]
    split_ifs with hjoin
    · exact h.joined hp hjoin (fun _ => id) id id id
    · exact h
  | openChecking =>
    simp only [Sys.runProc, hp]
    split_ifs with hc
    · exact h.pass hp id (fun _ => id) id id
    · exact h.goto hp id (fun _ _ hj => hj) id fun _ => by simpa using hc
  | openTune => exact h.runOpenTune hp
  | openWriter | closeTune | closeWriter =>
    have hc := h.pending p (hp ▸ trivial)
    simp only [Sys.runProc, hp]
    first
      | exact (h.setWriter _).goto hp id (fun _ _ hj => hj) id fun _ => hc
      | exact (h.setTune _).goto hp id (fun _ _ hj => hj) id fun _ => hc
  | openStatus | closeStatus =>
    simp only [Sys.runProc, hp]
    exact h.setOffline hp trivial rfl
  | closeChecking =>
    simp only [Sys.runProc, hp]
    split_ifs with hoff
    · exact h.goto hp id (fun _ _ hj => hj) id fun _ => h.offline hoff
    · exact h.pass hp id (fun _ => id) id id
  | editing client e =>
    simp only [Sys.runProc, hp]
    split
    · exact h.pass hp id (fun _ => id) id id
    · exact (h.setWriter _).pass hp id (fun _ => id) id id
  | editTune e =>
    simp only [Sys.runProc, hp]
    split
    · exact h.pass hp id (fun _ => id) id id
    · exact (h.setTune _).pass hp id (fun _ => id) id id

/-- A step of its connection neither ends nor revives a thread. -/
theorem Inv.work (h : s.Inv) {t : Thread} {pages : PageCommands} {input : Input F} :
    (s.work m i t pages input).Inv :=
  (h.setTune _).modifyThread fun _ _ => Iff.rfl

theorem Inv.runThread (h : s.Inv) (w : Work) : (s.runThread m i w).Inv := by
  unfold Sys.runThread
  split
  · exact h
  next t ht =>
    have halive : t.stage ≠ .gone → s.Alive i := fun hstage => ⟨t, ht, hstage⟩
    split
    next r _ =>
      exact h.modifyShared { s.shared with status := r.run s.shared.df s.shared.status }
        (r.connected_run s.shared.df s.shared.status).1 (r.connected_run s.shared.df s.shared.status).2
    next error hstage =>
      split
      · split_ifs
        · refine (h.setTune _).modifyThread fun u hu => ?_
          obtain rfl := Option.some.inj (ht.symm.trans hu)
          rw [hstage]
          exact iff_of_false nofun nofun
        · exact h
      · exact h
    next written hstage =>
      split
      · refine (h.modifyShared { s.shared with status := _ } ?_ ?_).stops fun _ => rfl
        all_goals cases written <;> rfl
      · exact h
    next error hstage => exact h.ends (halive (by rw [hstage]; nofun)) (fun _ => rfl) rfl
    next hstage _ _ _ =>
      split
      · exact h
      · split
        all_goals first | exact h.work | exact h | skip
        split
        · exact h
        · exact (h.record (halive (by rw [hstage]; nofun)) _).work
    · exact h

/-- **Every step but a race keeps the invariant.** -/
theorem Inv.step (h : s.Inv) {a : Action F} (ha : ¬ Races s a) : (s.step m a).Inv := by
  cases a with
  | request p r =>
    simp only [Sys.step]
    split
    next hp =>
      cases r with
      | connect req opened =>
        simp only [ApiCall.proc]
        split <;> exact h.goto hp id (fun _ _ hj => hj) id False.elim
      | _ => exact h.goto hp id (fun _ _ hj => hj) id False.elim
    · exact h
  | run p => exact h.runProc ha
  | thread i w => exact h.runThread w

theorem inv_start (df : IniDef F) (msq : Option (String × Msq.MsqFile F)) : (start df msq).Inv := by
  have hdead : ∀ i, ¬ (start df msq).Alive i := fun i ⟨t, ht, _⟩ => nomatch ht
  exact ⟨fun _ => False.elim, fun _ => rfl, fun i hi => absurd hi (hdead i),
    fun i hi => absurd hi (hdead i), fun i _ hi => absurd hi (hdead i), fun _ => False.elim, fun _ _ => rfl,
    fun _ => rfl, fun _ hc => absurd hc List.not_mem_nil⟩

end Sys

/-- **Offline and live do not mix without a race**: while the status says offline no thread is alive, and no
write or burn is ever sent then. -/
theorem offline_not_live [F64 F] (m : Machine) (df : IniDef F) (msq : Option (String × Msq.MsqFile F))
    (actions : List (Action F))
    (hrun : Along (Sys.step m) (fun s a => ¬ Races s a) (Sys.start df msq) actions) :
    let s := actions.foldl (Sys.step m) (Sys.start df msq)
    (s.shared.status.offline = true → ∀ i, ¬ s.Alive i) ∧ ∀ c ∈ s.sent, c.offline = false := by
  intro s
  have hs : s.Inv := hrun.invariant (fun s a h ha => h.step ha) (Sys.inv_start df msq)
  refine ⟨fun hoff i hi => ?_, hs.sent⟩
  exact nomatch (hs.offline hoff).symm.trans (hs.connected i hi)

/-! ## Runs -/

/-- The action is one of the request. -/
def Action.Of (q : ℕ) : Action F → Prop
  | request p _ | run p => p = q
  | thread _ _ => False

def Proc.isOpening : Proc F → Bool
  | connectOpening _ => true
  | _ => false

/-- The action opens a port. -/
def Sys.opening (s : Sys F) : Action F → Bool
  | .run p => (s.procs p).isOpening
  | _ => false

namespace Sys

variable [F64 F] {m : Machine} {s : Sys F} {p q : ℕ}


theorem procs_runProc (h : q ≠ p) : (s.runProc m p).procs q = s.procs q := by
  have hgoto : ∀ (s : Sys F) proc, (s.goto p proc).procs q = s.procs q := fun s proc => by
    rw [procs_goto, if_neg h]
  unfold Sys.runProc
  repeat' split
  all_goals first | rfl | exact hgoto _ _

theorem procs_runThread {i : ℕ} {w : Work} : (s.runThread m i w).procs = s.procs := by
  unfold Sys.runThread
  repeat' split
  all_goals rfl

theorem procs_step {a : Action F} (h : ¬ a.Of q) : (s.step m a).procs q = s.procs q := by
  cases a with
  | request p r =>
    simp only [Sys.step]
    split
    · rw [procs_goto, if_neg fun hq => h hq.symm]
    · rfl
  | run p => exact procs_runProc fun hq => h hq.symm
  | thread i w => exact congrFun procs_runThread q

theorem procs_run {actions : List (Action F)} (h : ∀ a ∈ actions, ¬ a.Of q) :
    (actions.foldl (Sys.step m) s).procs q = s.procs q := by
  induction actions generalizing s with
  | nil => rfl
  | cons a actions ih =>
    rw [List.foldl_cons, ih fun b hb => h b (List.mem_cons_of_mem _ hb),
      procs_step (h a List.mem_cons_self)]

omit [F64 F] in
theorem not_races_of_idle (h : ∀ q ≠ p, s.procs q = .idle) : ¬ Races s (.run p) := by
  intro hrace
  cases hp : s.procs p with
  | connectOpening c =>
    simp only [Races, hp] at hrace
    obtain ⟨-, q, hq⟩ := hrace
    by_cases hqp : q = p
    · subst hqp
      simp [hp, Proc.Offline] at hq
    · simp [h q hqp, Proc.Offline] at hq
  | _ => simp only [Races, hp] at hrace

omit [F64 F] in
theorem not_races_of_not_opening {a : Action F} (h : s.opening a = false) : ¬ Races s a := by
  cases a with
  | run p =>
    intro hrace
    cases hp : s.procs p <;> simp_all [Races, opening, Proc.isOpening]
  | _ => exact id

end Sys

def openedFile : Option (String × Msq.MsqFile XRat) :=
  some ("tune.msq", Msq.oneEntry "reqFuel" (.num 5))

/-- A connect up to the port. -/
def connecting : List (Action XRat) :=
  [.request 0 (.connect ⟨"ttyACM0", 115200, "primary"⟩ (.ok ())), .run 0, .run 0]

/-- From the open port on: the tune is downloaded, edited and flushed; a disconnect tells the thread,
which leaves, and joins it; a file is opened and edited. -/
def liveThenOffline : List (Action XRat) :=
  [.run 0, .run 0, .run 0, .thread 0 (.read [.ok [1, 2, 3, 4]]),
    .thread 0 (.crc (.ok (crc32 [1, 2, 3, 4]))), .thread 0 .lock, .thread 0 .lock,
    .request 1 (.edit "a" (.setConstant "reqFuel" 7)), .run 1, .run 1,
    .thread 0 .flush, .thread 0 .lock, .thread 0 .lock, .thread 0 (.send (.ok ())),
    .thread 0 .lock, .thread 0 .lock, .thread 0 (.crc (.ok (crc32 [7, 2, 3, 4]))), .thread 0 .lock,
    .request 2 .disconnect, .run 2, .thread 0 (.leave none), .thread 0 .setStatus, .run 2,
    .request 3 .offlineOpen, .run 3, .run 3, .run 3, .run 3,
    .request 4 (.edit "a" (.setConstant "reqFuel" 9)), .run 4, .run 4, .thread 0 .flush]

/-- A live session and an offline one after it: one write is sent, in the live one. -/
theorem offline_not_live_afterSession :
    let s := (connecting ++ .run 0 :: liveThenOffline).foldl (Sys.step ⟨.release, 8⟩)
      (Sys.start oneConstantDef openedFile)
    s.shared.status.offline = true ∧ s.shared.tune.data = [[9, 0, 0, 0]] ∧
      s.sent.map Sent.command = [.write 0 0 [7]] ∧ (∀ i, ¬ s.Alive i) ∧
      ∀ c ∈ s.sent, c.offline = false := by
  have hmono : ∀ {s₀ : Sys XRat} {actions}, Along (Sys.step ⟨.release, 8⟩)
      (fun s a => s.opening a = false) s₀ actions →
      Along (Sys.step ⟨.release, 8⟩) (fun s a => ¬ Races s a) s₀ actions :=
    fun h => h.ensures (I := fun _ => True) (fun _ _ _ _ => trivial)
      (fun _ _ _ => Sys.not_races_of_not_opening) trivial
  have hidle : ∀ q ≠ 0, (connecting.foldl (Sys.step ⟨.release, 8⟩)
      (Sys.start oneConstantDef openedFile)).procs q = .idle := by
    intro q hq
    refine Sys.procs_run fun a ha => ?_
    simp only [connecting, List.mem_cons, List.not_mem_nil, or_false] at ha
    rcases ha with rfl | rfl | rfl <;> exact hq.symm
  have hbefore : Along (Sys.step ⟨.release, 8⟩) (fun s a => s.opening a = false)
      (Sys.start oneConstantDef openedFile) connecting := by decide +kernel
  have hafter : Along (Sys.step ⟨.release, 8⟩) (fun s a => s.opening a = false)
      (Sys.step ⟨.release, 8⟩ (connecting.foldl (Sys.step ⟨.release, 8⟩)
        (Sys.start oneConstantDef openedFile)) (.run 0)) liveThenOffline := by decide +kernel
  have hrun : Along (Sys.step ⟨.release, 8⟩) (fun s a => ¬ Races s a)
      (Sys.start oneConstantDef openedFile) (connecting ++ .run 0 :: liveThenOffline) :=
    (along_append _ _ _).mpr ⟨hmono hbefore, Sys.not_races_of_idle hidle, hmono hafter⟩
  have hlive := offline_not_live ⟨.release, 8⟩ oneConstantDef openedFile _ hrun
  exact ⟨by decide +kernel, by decide +kernel, by decide +kernel, hlive.1 (by decide +kernel), hlive.2⟩

/-- A client opens a file, and after the check of the status another connects and the tune is downloaded;
then the opening goes on, a client edits, and the thread flushes. -/
def lateOpening : List (Action XRat) :=
  [.request 0 .offlineOpen, .run 0,
    .request 1 (.connect ⟨"ttyACM0", 115200, "primary"⟩ (.ok ())), .run 1, .run 1, .run 1, .run 1, .run 1,
    .run 1, .thread 0 (.read [.ok [1, 2, 3, 4]]), .thread 0 (.crc (.ok (crc32 [1, 2, 3, 4]))),
    .thread 0 .lock, .thread 0 .lock,
    .run 0, .run 0, .run 0,
    .request 2 (.edit "a" (.setConstant "reqFuel" 7)), .run 2, .run 2,
    .thread 0 .flush, .thread 0 .lock, .thread 0 .lock, .thread 0 (.send (.ok ()))]

/-- **The edit of the opened file is sent to the ECU.** -/
theorem lateOpening_sends : ¬ ∀ (df : IniDef XRat) (msq : Option (String × Msq.MsqFile XRat))
    (actions : List (Action XRat)),
      ∀ c ∈ (actions.foldl (Sys.step ⟨.release, 8⟩) (Sys.start df msq)).sent, c.offline = false := by
  intro h
  have hsent : (lateOpening.foldl (Sys.step ⟨.release, 8⟩) (Sys.start oneConstantDef openedFile)).sent =
      [⟨true, .write 0 0 [7]⟩] := by decide +kernel
  exact nomatch h oneConstantDef openedFile lateOpening ⟨true, .write 0 0 [7]⟩
    (by rw [hsent]; exact List.mem_cons_self)

end RustyTune.Server
