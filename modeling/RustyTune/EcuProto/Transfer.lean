import RustyTune.EcuProto.Calibration
import RustyTune.EcuProto.PageOps

/-!
# A calibration over the session

The transfer of a table against a responder that answers each request as it comes, and the checksum that is
read back.

* `Session.exchangeAll`: requests one after the other, up to the first that fails.
* `Calibration.transfer`; **`transfer_eq_write`**: it is `write`, with what the responder does.
* `Calibration.crc`: the checksum. `Session.readRealtime`: a block of telemetry.
-/

namespace RustyTune.EcuProto

variable {ρ : Type}

namespace Session

/-- The requests one after the other, up to the first that fails. -/
def exchangeAll (r : Responder ρ) :
    List (List UInt8) → Session × ρ → Except ProtoError Unit × (Session × ρ)
  | [], s => (.ok (), s)
  | cmd :: cmds, s =>
    match exchange r s cmd [RC_OK] with
    | (.ok _, s) => exchangeAll r cmds s
    | (.error e, s) => (.error e, s)

theorem exchangeAll_eq_sendAll (r : Responder ρ) (cmds : List (List UInt8)) (s : Session × ρ) (k : ℕ) :
    ∃ replies : ℕ → Reply, ((exchangeAll r cmds s).1, (exchangeAll r cmds s).2.1) =
      s.1.sendAll ((cmds.zipIdx k).map fun (cmd, i) => (replies i).call cmd) := by
  induction cmds generalizing s k with
  | nil => exact ⟨fun _ => ⟨[], [], 0, []⟩, rfl⟩
  | cons cmd cmds ih =>
    set reply : Reply := ⟨r.answer s.2 (encode cmd), r.wire s.2 (encode cmd), r.idle s.2 (encode cmd),
      r.polls s.2 (encode cmd)⟩ with hreply
    have hexchange : exchange r s cmd [RC_OK] =
        ((s.1.request (reply.call cmd)).1, (s.1.request (reply.call cmd)).2, r.next s.2 (encode cmd)) := rfl
    obtain ⟨replies, hreplies⟩ := ih ((s.1.request (reply.call cmd)).2, r.next s.2 (encode cmd)) (k + 1)
    refine ⟨Function.update replies k reply, ?_⟩
    have hrest : (cmds.zipIdx (k + 1)).map (fun (cmd, i) => (Function.update replies k reply i).call cmd) =
        (cmds.zipIdx (k + 1)).map fun (cmd, i) => (replies i).call cmd := by
      refine List.map_congr_left fun ci hci => ?_
      have hle := List.le_snd_of_mem_zipIdx hci
      exact congrArg (Reply.call · ci.1) (Function.update_of_ne (by omega) _ _)
    rw [List.zipIdx_cons, List.map_cons, hrest]
    dsimp only
    rw [Function.update_self, exchangeAll, sendAll, hexchange]
    rcases hrequest : s.1.request (reply.call cmd) with ⟨res, s'⟩
    rw [hrequest] at hreplies
    cases res with
    | error e => rfl
    | ok data => exact hreplies

/-- `read_realtime` on the primary port: the block of telemetry, `och_get` built with the whole block. -/
def readRealtime (r : Responder ρ) (ochGet : Template) (canId : UInt8) (ochBlockSize : UInt16)
    (s : Session × ρ) : Except ProtoError (List UInt8) × (Session × ρ) :=
  CommandSet.sendCommand r (ochGet.build ⟨canId, none, some 0, some ochBlockSize, none⟩) [RC_OK] s

end Session

namespace Calibration

/-- `write`, against a responder. -/
def transfer (r : Responder ρ) (canId : UInt8) (template : String) (id : UInt16) (blockingFactor : ℕ)
    (data : List UInt8) (s : Session × ρ) : Except ProtoError Unit × (Session × ρ) :=
  match commands canId template id blockingFactor data with
  | .error e => (.error e, s)
  | .ok cmds => Session.exchangeAll r cmds s

/-- **It is `write`**, with what the responder does during each request. -/
theorem transfer_eq_write (r : Responder ρ) (canId : UInt8) (template : String) (id : UInt16)
    (blockingFactor : ℕ) (data : List UInt8) (s : Session × ρ) : ∃ replies : ℕ → Reply,
      ((transfer r canId template id blockingFactor data s).1,
        (transfer r canId template id blockingFactor data s).2.1) =
        write s.1 canId template id blockingFactor data replies := by
  unfold transfer write
  cases commands canId template id blockingFactor data with
  | error e => exact ⟨fun _ => ⟨[], [], 0, []⟩, rfl⟩
  | ok cmds => exact Session.exchangeAll_eq_sendAll r cmds s 0

/-- `crc`: the checksum of the ECU's table. -/
def crc (r : Responder ρ) (canId : UInt8) (template : String) (id : UInt16) (s : Session × ρ) :
    Except ProtoError UInt32 × (Session × ρ) :=
  let res := CommandSet.sendCommand r (do
    let id ← identifier id
    let template ← Template.parse template
    template.build ⟨canId, some [id], some 0, some 0, none⟩) [RC_OK] s
  (res.1.bind fun data =>
    if data.length ≠ 4 then .error (.shortResponse 4 data.length)
    else .ok (UInt32.ofNat (beNat data)), res.2)

end Calibration

end RustyTune.EcuProto
