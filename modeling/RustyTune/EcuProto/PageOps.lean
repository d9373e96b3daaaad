import RustyTune.EcuProto.Download

/-!
# Page operations over the session

What the comms thread asks of a page besides its download: a chunk written, its CRC, and its burning.

* `CommandSet.sendCommand`: a command built from a template, sent and answered.
* `CommandSet.writeChunk`, `pageCrc`, `burn`.
-/

namespace RustyTune.EcuProto

namespace CommandSet

variable {ρ : Type} (set : CommandSet) (r : Responder ρ)

/-- `page`: a page of the set. -/
def page (pageIdx : ℕ) : Except ProtoError PageDef :=
  match set.pages[pageIdx]? with
  | none => .error (set.commands.outOfRange pageIdx)
  | some page => .ok page

/-- The values a command without offset, count and bytes gives its template. -/
def pageArgs (page : PageDef) : Args := ⟨set.canId, some page.identifier, none, none, none⟩

/-- A command of a page that is built, sent and answered. -/
def sendCommand (cmd : Except ProtoError (List UInt8)) (ok : List UInt8) (s : Session × ρ) :
    Except ProtoError (List UInt8) × (Session × ρ) :=
  match cmd with
  | .error e => (.error e, s)
  | .ok payload => Session.exchange r s payload ok

/-- Write `values` into the ECU's working copy of the page (`M`). -/
def writeChunk (pageIdx offset : ℕ) (values : List UInt8) (s : Session × ρ) :
    Except ProtoError Unit × (Session × ρ) :=
  let res := sendCommand r (do
    let page ← set.page pageIdx
    page.chunkWrite.build (set.writeArgs page offset values)) [RC_OK] s
  (res.1.map fun _ => (), res.2)

/-- CRC32 of the ECU's working copy of the page (`d`). -/
def pageCrc (pageIdx : ℕ) (s : Session × ρ) : Except ProtoError UInt32 × (Session × ρ) :=
  let res := sendCommand r (do
    let page ← set.page pageIdx
    page.crc.build (set.pageArgs page)) [RC_OK] s
  (res.1.bind fun data =>
    if data.length ≠ 4 then .error (.shortResponse 4 data.length)
    -- big-endian on the wire
    else .ok (UInt32.ofNat (beNat data)), res.2)

/-- Commit the page to EEPROM (`b`/`B`). -/
def burn (pageIdx : ℕ) (s : Session × ρ) : Except ProtoError Unit × (Session × ρ) :=
  let res := sendCommand r (do
    let page ← set.page pageIdx
    page.burn.build (set.pageArgs page)) [RC_OK, RC_BURN_OK] s
  (res.1.map fun _ => (), res.2)

end CommandSet

end RustyTune.EcuProto
