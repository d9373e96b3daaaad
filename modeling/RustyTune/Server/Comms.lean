import Mathlib.Logic.Function.Basic
import RustyTune.EcuProto.Pages
import RustyTune.TuneModel.Dirty

/-!
# The comms thread and the pages

The part of the comms thread that keeps the tune and the ECU's pages in step: download, flush of
pending edits, burn. The ECU executes every command it receives; what becomes of a request, and what
clients do to the tune whenever the comms thread is about to take its lock, is the environment's
choice.

* `World`: the tune, the ECU's pages, the last error shown, and how often each kind of request has
  been made and the lock been taken. `Env`: fates of the requests, edits, the CRC.
* `downloadTune`, `flushDirty` with `sendChunks` and `verifyPage`, `doBurn` with `burnPages`.
-/

namespace RustyTune.Server

open TuneModel EcuProto

variable {F κ : Type}

/-- Gaps up to this many bytes merge into one write. -/
def SPAN_MERGE_GAP : ℕ := 4

/-! ## The ECU and the environment -/

/-- A page of the ECU. -/
structure EcuPage where
  ram : List UInt8
  eeprom : List UInt8
  deriving DecidableEq, Repr

/-- Bytes written into RAM; a write that reaches beyond the page is ignored. -/
def EcuPage.write (offset : ℕ) (values : List UInt8) (p : EcuPage) : EcuPage :=
  if offset + values.length ≤ p.ram.length then { p with ram := overwrite p.ram offset values } else p

/-- The kinds of page requests: `p`, `M`, `d` and `b`. -/
inductive Request
  | read
  | write
  | crc
  | burn
  deriving DecidableEq, Repr

/-- What becomes of a request. -/
inductive Fate
  | answered
  /-- The client sees the error; the ECU has executed the request or not. -/
  | failed (executed : Bool) (e : ProtoError)
  deriving DecidableEq, Repr

def Fate.executed : Fate → Bool
  | answered => true
  | failed executed _ => executed

/-- A client's edit: new local data of a page. -/
structure Edit where
  page : ℕ
  data : List UInt8
  deriving DecidableEq, Repr

/-- What the comms thread cannot know. -/
structure Env (κ : Type) where
  /-- What becomes of the `n`-th request of a kind. -/
  fate : Request → ℕ → Fate
  /-- What clients do to the tune before the comms thread takes its lock for the `n`-th time. -/
  edits : ℕ → List Edit
  /-- CRC32. -/
  crc : List UInt8 → κ

structure World (F : Type) where
  tune : Tune F
  ecu : List EcuPage
  /-- The error shown in the status. -/
  lastError : Option String
  issued : Request → ℕ
  locks : ℕ

/-- An edit changes bytes of the local data of a loaded tune, never their number. -/
def Edit.apply (t : Tune F) (e : Edit) : Tune F :=
  if t.loaded then
    t.modifyPage e.page fun p => if e.data.length = p.data.length then { p with data := e.data } else p
  else t

namespace World

/-- Taking the tune's lock: what clients have done meanwhile shows. -/
def lock (env : Env κ) (w : World F) : World F :=
  { w with tune := (env.edits w.locks).foldl Edit.apply w.tune, locks := w.locks + 1 }

def modifyTune (w : World F) (f : Tune F → Tune F) : World F := { w with tune := f w.tune }

/-- A change of one page of the ECU. -/
def modifyEcu (w : World F) (pageIdx : ℕ) (f : EcuPage → EcuPage) : World F :=
  { w with ecu := w.ecu.modify pageIdx f }

def setError (w : World F) (text : String) : World F := { w with lastError := some text }

/-- The request of a kind, counted. -/
def ask (w : World F) (k : Request) : World F :=
  { w with issued := Function.update w.issued k (w.issued k + 1) }

/-- One request: what it does to the ECU if it is executed, and its answer. -/
def request {α : Type} (env : Env κ) (w : World F) (k : Request) (exec : World F → World F)
    (answer : World F → α) : Except ProtoError α × World F :=
  match env.fate k (w.issued k) with
  | .answered => (.ok (answer w), exec (w.ask k))
  | .failed true e => (.error e, exec (w.ask k))
  | .failed false e => (.error e, w.ask k)

def ram (w : World F) (pageIdx : ℕ) : List UInt8 := ((w.ecu[pageIdx]?).map (·.ram)).getD []

/-- `p`: `count` bytes of RAM. -/
def readChunk (env : Env κ) (pageIdx : ℕ) (w : World F) (offset count : ℕ) :
    Except ProtoError (List UInt8) × World F :=
  w.request env .read id fun w => slice (w.ram pageIdx) offset count

/-- `M`: the offset goes out with 16 bits. -/
def writeChunk (env : Env κ) (w : World F) (pageIdx offset : ℕ) (values : List UInt8) :
    Except ProtoError Unit × World F :=
  w.request env .write (fun w => w.modifyEcu pageIdx (EcuPage.write (wireOffset offset) values))
    fun _ => ()

/-- `d`: the CRC of RAM. -/
def pageCrc (env : Env κ) (w : World F) (pageIdx : ℕ) : Except ProtoError κ × World F :=
  w.request env .crc id fun w => env.crc (w.ram pageIdx)

/-- `b`: RAM goes to EEPROM. -/
def burn (env : Env κ) (w : World F) (pageIdx : ℕ) : Except ProtoError Unit × World F :=
  w.request env .burn (fun w => w.modifyEcu pageIdx fun p => { p with eeprom := p.ram }) fun _ => ()

/-- The whole page, chunk by chunk. -/
def readPage (env : Env κ) (pages : PageCommands) (pageIdx : ℕ) (w : World F) :
    Except ProtoError (List UInt8) × World F :=
  EcuProto.readPage (readChunk env pageIdx) pages pageIdx w

/-- The shadow of the ECU's RAM that the tune keeps of a page. -/
def shadow (w : World F) (pageIdx : ℕ) : List UInt8 := ((w.tune.page pageIdx).map (·.ecu)).getD []

end World

open World

variable [DecidableEq κ]

/-! ## Download -/

/-- Read one page and verify it against its CRC; one retry. -/
def downloadPage (env : Env κ) (pages : PageCommands) (crcNat : κ → ℕ) (pageIdx retries : ℕ)
    (w : World F) : Except ProtoError Unit × World F :=
  match w.readPage env pages pageIdx with
  | (.error e, w) => (.error e, w)
  | (.ok bytes, w) =>
    match w.pageCrc env pageIdx with
    | (.error e, w) => (.error e, w)
    | (.ok ecuCrc, w) =>
      if ecuCrc = env.crc bytes then
        (.ok (), (w.lock env).modifyTune (·.loadPage pageIdx bytes))
      else
        match retries with
        | 0 => (.error (.shortResponse (crcNat ecuCrc) (crcNat (env.crc bytes))), w)
        | retries + 1 => downloadPage env pages crcNat pageIdx retries w

/-- The given pages, one after the other. -/
def downloadPages (env : Env κ) (pages : PageCommands) (crcNat : κ → ℕ) :
    List ℕ → World F → Except ProtoError Unit × World F
  | [], w => (.ok (), w)
  | pageIdx :: rest, w =>
    match downloadPage env pages crcNat pageIdx 1 w with
    | (.error e, w) => (.error e, w)
    | (.ok (), w) => downloadPages env pages crcNat rest w

/-- Read all pages into the tune. `crcNat` is the number a CRC is. -/
def downloadTune (env : Env κ) (pages : PageCommands) (crcNat : κ → ℕ) (w : World F) :
    Except ProtoError Unit × World F :=
  downloadPages env pages crcNat (List.range pages.pageCount) w

/-! ## Flush -/

/-- The `M` writes of the given spans: every span in chunks of the blocking factor. -/
def chunkWrites (pages : PageCommands) (spans : List (ℕ × List UInt8)) : List (ℕ × List UInt8) :=
  spans.flatMap fun (offset, bytes) => chunksAt pages.blockingFactor offset bytes

/-- Send the writes of one page; false when one failed. -/
def sendChunks (env : Env κ) (pageIdx : ℕ) : List (ℕ × List UInt8) → World F → Bool × World F
  | [], w => (true, w)
  | (chunkOff, chunk) :: rest, w =>
    match w.writeChunk env pageIdx chunkOff chunk with
    | (.ok (), w) =>
      sendChunks env pageIdx rest
        ((w.lock env).modifyTune (·.markSent pageIdx chunkOff chunk.length))
    | (.error e, w) => (false, w.setError s!"write to page {pageIdx + 1} failed: {e.display}")

/-- The ECU's CRC of the page must match that of our shadow; where it does not, the shadow is read
anew. -/
def verifyPage (env : Env κ) (pages : PageCommands) (pageIdx : ℕ) (w : World F) : World F :=
  let w := w.lock env
  let expected := env.crc (w.shadow pageIdx)
  match w.pageCrc env pageIdx with
  | (.ok crc, w) =>
    if crc = expected then w
    else
      let w :=
        match w.readPage env pages pageIdx with
        | (.ok bytes, w) => (w.lock env).modifyTune (·.resyncEcu pageIdx bytes)
        | (.error _, w) => w
      w.setError s!"page {pageIdx + 1} write verification failed; resynced from ECU"
  -- only logged
  | (.error _, w) => w

/-- Send and verify the given pages, until a write fails. -/
def flushPages (env : Env κ) (pages : PageCommands) : List ℕ → World F → World F
  | [], w => w
  | pageIdx :: rest, w =>
    let w := w.lock env
    let writes := chunkWrites pages (w.tune.dirtySpans pageIdx SPAN_MERGE_GAP)
    match sendChunks env pageIdx writes w with
    | (false, w) => w
    | (true, w) => flushPages env pages rest (verifyPage env pages pageIdx w)

/-- Send every dirty span, then verify each touched page. -/
def flushDirty (env : Env κ) (pages : PageCommands) (w : World F) : World F :=
  let w := w.lock env
  if !w.tune.loaded then w
  else
    let w := w.lock env
    let dirty := (List.range w.tune.pageCount).filter w.tune.pageDirty
    flushPages env pages dirty w

/-! ## Burn -/

/-- Burn the given pages until one fails; `burned` are done. -/
def burnPages (env : Env κ) : List ℕ → List ℕ → World F → Except String (List ℕ) × World F
  | [], burned, w => (.ok burned, w)
  | pageIdx :: rest, burned, w =>
    match w.burn env pageIdx with
    | (.error e, w) => (.error s!"burn page {pageIdx + 1} failed: {e.display}", w)
    | (.ok (), w) =>
      burnPages env rest (burned ++ [pageIdx]) ((w.lock env).modifyTune (·.markBurned pageIdx))

/-- Flush edits, then burn every page whose shadow differs from the burned copy. -/
def doBurn (env : Env κ) (pages : Option PageCommands) (w : World F) :
    Except String (List ℕ) × World F :=
  match pages with
  | none => (.error "tuning requires the primary (USB) serial", w)
  | some pages =>
    let w := w.lock env
    if !w.tune.loaded then (.error "tune not loaded", w)
    else
      let w := (flushDirty env pages w).lock env
      let pending := (List.range w.tune.pageCount).filter w.tune.pageBurnPending
      burnPages env pending [] w

end RustyTune.Server
