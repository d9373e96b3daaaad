import RustyTune.Lib.Interaction
import RustyTune.Server.Comms

/-!
# The comms thread as a program

Download, flush and burn once more, as programs of page requests and of steps on the tune under its lock, so
that the same program runs against the ECU of `World` and over a serial line.

* `CommsQuery`: what the thread asks. `World.handle`: the answers of `World`.
* `CommsProgram.downloadTune`, `CommsProgram.flushDirty`, `CommsProgram.doBurn`.
* **`run_downloadTune`**, **`run_flushDirty`**, **`run_doBurn`**: against `World` they are the functions of the
  same names.
-/

namespace RustyTune.Server

open TuneModel EcuProto

/-- What the comms thread asks. -/
inductive CommsQuery (F : Type)
  | read (pageIdx offset count : ℕ)
  | write (pageIdx offset : ℕ) (values : List UInt8)
  | crc (pageIdx : ℕ)
  | burn (pageIdx : ℕ)
  /-- The tune's lock is taken. -/
  | lock
  /-- A change of the tune under its lock. -/
  | modify (f : Tune F → Tune F)
  | setError (text : String)

/-- What is answered: the tune, when its lock is taken. -/
abbrev CommsQuery.Answer {F : Type} : CommsQuery F → Type
  | .read .. => Except ProtoError (List UInt8)
  | .write .. => Except ProtoError Unit
  | .crc _ => Except ProtoError UInt32
  | .burn _ => Except ProtoError Unit
  | .lock => Tune F
  | .modify _ => Unit
  | .setError _ => Unit

/-- A part of the comms thread. -/
abbrev CommsProgram (F α : Type) := Program (CommsQuery F) CommsQuery.Answer α

variable {F : Type}

/-! ## The programs -/

namespace CommsProgram

/-- The loop of `read_page`. -/
def readFrom (pageIdx size blockingFactor : ℕ) :
    ℕ → ℕ → List UInt8 → CommsProgram F (Except ProtoError (List UInt8))
  | 0, _, out => .done (.ok out)
  | fuel + 1, offset, out =>
    if offset < size then
      let count := min (size - offset) blockingFactor
      .ask (.read pageIdx (wireOffset offset) count) fun
        | .error e => .done (.error e)
        | .ok data =>
          if data.length ≠ count then .done (.error (.shortResponse count data.length))
          else readFrom pageIdx size blockingFactor fuel (offset + count) (out ++ data)
    else .done (.ok out)

def readPage (pages : PageCommands) (pageIdx : ℕ) : CommsProgram F (Except ProtoError (List UInt8)) :=
  match pages.sizes[pageIdx]? with
  | none => .done (.error (pages.outOfRange pageIdx))
  | some size => readFrom pageIdx size pages.blockingFactor size 0 []

/-- One attempt of `downloadPage`; `again` is what follows a mismatch of the checksums. -/
def downloadOnce (pages : PageCommands) (pageIdx : ℕ)
    (again : UInt32 → UInt32 → CommsProgram F (Except ProtoError Unit)) : CommsProgram F (Except ProtoError Unit) :=
  (readPage pages pageIdx).bind fun
    | .error e => .done (.error e)
    | .ok bytes => .ask (.crc pageIdx) fun
      | .error e => .done (.error e)
      | .ok ecuCrc =>
        if ecuCrc = crc32 bytes then
          .ask .lock fun _ => .ask (.modify (·.loadPage pageIdx bytes)) fun _ => .done (.ok ())
        else again ecuCrc (crc32 bytes)

def downloadPage (pages : PageCommands) (pageIdx : ℕ) : ℕ → CommsProgram F (Except ProtoError Unit)
  | 0 => downloadOnce pages pageIdx fun expected got =>
    .done (.error (.shortResponse expected.toNat got.toNat))
  | retries + 1 => downloadOnce pages pageIdx fun _ _ => downloadPage pages pageIdx retries

def downloadPages (pages : PageCommands) : List ℕ → CommsProgram F (Except ProtoError Unit)
  | [] => .done (.ok ())
  | pageIdx :: rest => (downloadPage pages pageIdx 1).bind fun
    | .error e => .done (.error e)
    | .ok () => downloadPages pages rest

def downloadTune (pages : PageCommands) : CommsProgram F (Except ProtoError Unit) :=
  downloadPages pages (List.range pages.pageCount)

def sendChunks (pageIdx : ℕ) : List (ℕ × List UInt8) → CommsProgram F Bool
  | [] => .done true
  | (chunkOff, chunk) :: rest => .ask (.write pageIdx chunkOff chunk) fun
    | .ok () => .ask .lock fun _ => .ask (.modify (·.markSent pageIdx chunkOff chunk.length)) fun _ =>
      sendChunks pageIdx rest
    | .error e => .ask (.setError s!"write to page {pageIdx + 1} failed: {e.display}") fun _ => .done false

/-- The checksums differ: the shadow is read anew. -/
def resyncPage (pages : PageCommands) (pageIdx : ℕ) : CommsProgram F Unit :=
  let failed : CommsProgram F Unit := .ask
    (.setError s!"page {pageIdx + 1} write verification failed; resynced from ECU") fun _ => .done ()
  (readPage pages pageIdx).bind fun
    | .ok bytes => .ask .lock fun _ => .ask (.modify (·.resyncEcu pageIdx bytes)) fun _ => failed
    | .error _ => failed

/-- The ECU's checksum against the one of the shadow. -/
def checkPage (pages : PageCommands) (pageIdx : ℕ) (expected : UInt32) :
    Except ProtoError UInt32 → CommsProgram F Unit
  | .ok crc => if crc = expected then .done () else resyncPage pages pageIdx
  | .error _ => .done ()

def verifyPage (pages : PageCommands) (pageIdx : ℕ) : CommsProgram F Unit :=
  .ask .lock fun tune =>
    .ask (.crc pageIdx) (checkPage pages pageIdx (crc32 (((tune.page pageIdx).map (·.ecu)).getD [])))

def flushPages (pages : PageCommands) : List ℕ → CommsProgram F Unit
  | [] => .done ()
  | pageIdx :: rest => .ask .lock fun tune =>
    (sendChunks pageIdx (chunkWrites pages (tune.dirtySpans pageIdx SPAN_MERGE_GAP))).bind fun
      | false => .done ()
      | true => (verifyPage pages pageIdx).bind fun _ => flushPages pages rest

def flushDirty (pages : PageCommands) : CommsProgram F Unit :=
  .ask .lock fun tune =>
    if !tune.loaded then .done ()
    else .ask .lock fun tune =>
      flushPages pages ((List.range tune.pageCount).filter tune.pageDirty)

def burnPages : List ℕ → List ℕ → CommsProgram F (Except String (List ℕ))
  | [], burned => .done (.ok burned)
  | pageIdx :: rest, burned => .ask (.burn pageIdx) fun
    | .error e => .done (.error s!"burn page {pageIdx + 1} failed: {e.display}")
    | .ok () => .ask .lock fun _ => .ask (.modify (·.markBurned pageIdx)) fun _ =>
      burnPages rest (burned ++ [pageIdx])

def doBurn (pages : Option PageCommands) : CommsProgram F (Except String (List ℕ)) :=
  match pages with
  | none => .done (.error "tuning requires the primary (USB) serial")
  | some pages => .ask .lock fun tune =>
    if !tune.loaded then .done (.error "tune not loaded")
    else (flushDirty pages).bind fun _ => .ask .lock fun tune =>
      burnPages ((List.range tune.pageCount).filter tune.pageBurnPending) []

end CommsProgram

/-! ## Against the ECU of `World` -/

/-- What `World` answers. -/
def World.handle (env : Env UInt32) : (q : CommsQuery F) → World F → q.Answer × World F
  | .read pageIdx offset count, w => World.readChunk env pageIdx w offset count
  | .write pageIdx offset values, w => w.writeChunk env pageIdx offset values
  | .crc pageIdx, w => w.pageCrc env pageIdx
  | .burn pageIdx, w => w.burn env pageIdx
  | .lock, w => ((w.lock env).tune, w.lock env)
  | .modify f, w => ((), w.modifyTune f)
  | .setError text, w => ((), w.setError text)

namespace CommsProgram

variable {env : Env UInt32} {pages : PageCommands}

theorem run_readFrom (pageIdx size bf : ℕ) : ∀ (fuel offset : ℕ) (out : List UInt8) (w : World F),
    (readFrom pageIdx size bf fuel offset out).run (World.handle env) w =
      EcuProto.readFrom (World.readChunk env pageIdx) size bf fuel offset out w := by
  intro fuel
  induction fuel with
  | zero => exact fun _ _ _ => rfl
  | succ fuel ih =>
    intro offset out w
    rw [readFrom, EcuProto.readFrom]
    split_ifs with hlt
    · dsimp only [Program.run, World.handle]
      rcases World.readChunk env pageIdx w (wireOffset offset) (min (size - offset) bf) with ⟨r, w'⟩
      cases r with
      | error e => rfl
      | ok data =>
        dsimp only
        split_ifs with hshort
        · rfl
        · exact ih _ _ w'
    · rfl

theorem run_readPage (pageIdx : ℕ) (w : World F) :
    (readPage pages pageIdx).run (World.handle env) w = w.readPage env pages pageIdx := by
  unfold readPage World.readPage EcuProto.readPage
  cases pages.sizes[pageIdx]? with
  | none => rfl
  | some size => exact run_readFrom pageIdx size pages.blockingFactor size 0 [] w

variable (hcrc : env.crc = crc32)
include hcrc

theorem run_downloadPage (pageIdx : ℕ) : ∀ (retries : ℕ) (w : World F),
    (downloadPage pages pageIdx retries).run (World.handle env) w =
      Server.downloadPage env pages UInt32.toNat pageIdx retries w := by
  intro retries
  induction retries with
  | zero =>
    intro w
    rw [downloadPage, downloadOnce, Program.run_bind, run_readPage, Server.downloadPage]
    rcases w.readPage env pages pageIdx with ⟨r, w'⟩
    cases r with
    | error e => rfl
    | ok bytes =>
      dsimp only [Program.run, World.handle]
      rcases w'.pageCrc env pageIdx with ⟨r, w''⟩
      cases r with
      | error e => rfl
      | ok ecuCrc =>
        dsimp only
        rw [hcrc]
        split_ifs <;> rfl
  | succ retries ih =>
    intro w
    rw [downloadPage, downloadOnce, Program.run_bind, run_readPage, Server.downloadPage]
    rcases w.readPage env pages pageIdx with ⟨r, w'⟩
    cases r with
    | error e => rfl
    | ok bytes =>
      dsimp only [Program.run, World.handle]
      rcases w'.pageCrc env pageIdx with ⟨r, w''⟩
      cases r with
      | error e => rfl
      | ok ecuCrc =>
        dsimp only
        rw [hcrc]
        split_ifs
        · rfl
        · exact ih w''

theorem run_downloadPages (is : List ℕ) : ∀ w : World F,
    (downloadPages pages is).run (World.handle env) w = Server.downloadPages env pages UInt32.toNat is w := by
  induction is with
  | nil => exact fun _ => rfl
  | cons i is ih =>
    intro w
    rw [downloadPages, Program.run_bind, run_downloadPage hcrc, Server.downloadPages]
    rcases Server.downloadPage env pages UInt32.toNat i 1 w with ⟨r, w'⟩
    cases r with
    | error e => rfl
    | ok u => exact ih w'

/-- **The download.** -/
theorem run_downloadTune (w : World F) : (downloadTune pages).run (World.handle env) w =
    Server.downloadTune env pages UInt32.toNat w := run_downloadPages hcrc _ w

omit hcrc in
theorem run_sendChunks (pageIdx : ℕ) (writes : List (ℕ × List UInt8)) : ∀ w : World F,
    (sendChunks pageIdx writes).run (World.handle env) w = Server.sendChunks env pageIdx writes w := by
  induction writes with
  | nil => exact fun _ => rfl
  | cons x writes ih =>
    intro w
    obtain ⟨chunkOff, chunk⟩ := x
    rw [sendChunks, Server.sendChunks]
    dsimp only [Program.run, World.handle]
    rcases w.writeChunk env pageIdx chunkOff chunk with ⟨r, w'⟩
    cases r with
    | error e => rfl
    | ok u => exact ih _

omit hcrc in
theorem run_resyncPage (pageIdx : ℕ) (w : World F) : (resyncPage pages pageIdx).run (World.handle env) w =
    ((), (match w.readPage env pages pageIdx with
      | (.ok bytes, w) => (w.lock env).modifyTune (·.resyncEcu pageIdx bytes)
      | (.error _, w) => w).setError
        s!"page {pageIdx + 1} write verification failed; resynced from ECU") := by
  rw [resyncPage, Program.run_bind, run_readPage]
  rcases w.readPage env pages pageIdx with ⟨r, w'⟩
  cases r <;> rfl

theorem run_verifyPage (pageIdx : ℕ) (w : World F) : (verifyPage pages pageIdx).run (World.handle env) w =
    ((), Server.verifyPage env pages pageIdx w) := by
  have hshadow : env.crc ((w.lock env).shadow pageIdx) =
      crc32 ((((w.lock env).tune.page pageIdx).map (·.ecu)).getD []) := by rw [hcrc, World.shadow]
  change (checkPage pages pageIdx (crc32 ((((w.lock env).tune.page pageIdx).map (·.ecu)).getD []))
    ((w.lock env).pageCrc env pageIdx).1).run (World.handle env) ((w.lock env).pageCrc env pageIdx).2 = _
  rw [Server.verifyPage, ← hshadow]
  dsimp only
  rcases (w.lock env).pageCrc env pageIdx with ⟨r, w'⟩
  cases r with
  | error e => rfl
  | ok crc =>
    dsimp only
    rw [checkPage]
    split_ifs
    · rfl
    · exact run_resyncPage pageIdx w'

theorem run_flushPages (is : List ℕ) : ∀ w : World F,
    (flushPages pages is).run (World.handle env) w = ((), Server.flushPages env pages is w) := by
  induction is with
  | nil => exact fun _ => rfl
  | cons i is ih =>
    intro w
    rw [flushPages, Server.flushPages]
    dsimp only [Program.run, World.handle]
    rw [Program.run_bind, run_sendChunks]
    rcases Server.sendChunks env i (chunkWrites pages ((w.lock env).tune.dirtySpans i SPAN_MERGE_GAP))
      (w.lock env) with ⟨sent, w'⟩
    cases sent with
    | false => rfl
    | true =>
      dsimp only
      rw [Program.run_bind, run_verifyPage hcrc]
      exact ih _

/-- **The flush.** -/
theorem run_flushDirty (w : World F) :
    (flushDirty pages).run (World.handle env) w = ((), Server.flushDirty env pages w) := by
  rw [flushDirty, Server.flushDirty]
  dsimp only [Program.run, World.handle]
  split_ifs
  · rfl
  · exact run_flushPages hcrc _ _

omit hcrc in
theorem run_burnPages (is : List ℕ) : ∀ (burned : List ℕ) (w : World F),
    (burnPages is burned).run (World.handle env) w = Server.burnPages env is burned w := by
  induction is with
  | nil => exact fun _ _ => rfl
  | cons i is ih =>
    intro burned w
    rw [burnPages, Server.burnPages]
    dsimp only [Program.run, World.handle]
    rcases w.burn env i with ⟨r, w'⟩
    cases r with
    | error e => rfl
    | ok u => exact ih _ _

/-- **The burn.** -/
theorem run_doBurn (pages : Option PageCommands) (w : World F) :
    (doBurn pages).run (World.handle env) w = Server.doBurn env pages w := by
  cases pages with
  | none => rfl
  | some pages =>
    rw [doBurn, Server.doBurn]
    dsimp only [Program.run, World.handle]
    split_ifs
    · rfl
    · rw [Program.run_bind, run_flushDirty hcrc]
      exact run_burnPages _ _ _

end CommsProgram

end RustyTune.Server
