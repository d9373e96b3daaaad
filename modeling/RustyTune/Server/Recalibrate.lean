import RustyTune.FakeEcu.Calibrate
import RustyTune.Server.Calibration
import RustyTune.TsIni.Telemetry

/-!
# Writing a calibration

The comms thread writes a table only while the engine stands, and reads its checksum back.

* `Calibrating.doCalibration`: the checks, the transfer and the checksum.
* `metadata_usable`: the definition that is supported.
* `sendTable_link`: transfer and checksum on the line to the simulator.
* **`calibration_on_line`**: what a calibration leaves: the whole table or the one from before, and with
  success the table, also after a restart.
-/

namespace RustyTune.Server

open TsIni EcuProto FakeEcu

variable {F ρ : Type}

/-- What the comms thread has when a calibration is asked for. -/
structure Calibrating (F : Type) where
  df : IniDef F
  /-- The command of the telemetry, with its size and the identifier on the bus. -/
  ochGet : Template
  ochBlockSize : UInt16
  canId : UInt8
  /-- The tune is loaded. -/
  loaded : Bool
  ecuSignature : Option String

namespace Calibrating

section Model

variable [F64 F] (m : Machine) (r : Responder ρ) (c : Calibrating F)

/-- The telemetry says that the engine stands. -/
def stopped (block : List UInt8) : Exec Bool := do
  match ← (Telemetry.new c.df block).channel m "rpm" with
  | some (.num rpm) => return F64.eq rpm 0
  | _ => return false

/-- The checksum of the table; the definition has a command for it. -/
def readCrc (cal : AfrCalibration F) (s : Session × ρ) : Except ProtoError UInt32 × (Session × ρ) :=
  EcuProto.Calibration.crc r c.canId (c.df.header.tableCrcCommand.getD "") cal.identifier s

/-- The transfer, and the checksum that is read back. -/
def sendTable (cal : AfrCalibration F) (data : List UInt8) (s : Session × ρ) :
    Except String UInt32 × (Session × ρ) :=
  match EcuProto.Calibration.transfer r c.canId cal.writeCommand cal.identifier cal.blockingFactor.toNat data s with
  | (.error e, s) => (.error s!"Calibration transfer failed; the ECU may have a partial calibration. Retry the complete write: {e.display}", s)
  | (.ok (), s) =>
    match c.readCrc r cal s with
    | (.error e, s) => (.error s!"Calibration was sent but checksum verification failed; read the calibration again before retrying: {e.display}", s)
    | (.ok crc, s) =>
      if crc ≠ crc32 data then
        (.error "Calibration checksum verification failed; retry the complete write", s)
      else (.ok crc, s)

/-- `do_calibration`: a table that is written, or only the checksum. -/
def doCalibration (data : Option (List UInt8)) (s : Session × ρ) :
    Exec (Except String UInt32 × (Session × ρ)) :=
  match Calibration.metadata c.df with
  | .error e => .ok (.error e, s)
  | .ok cal =>
    if s.1.mode ≠ .primary then .ok (.error "Calibration requires primary USB serial", s)
    else
      match data with
      | none =>
        let res := c.readCrc r cal s
        .ok (res.1.mapError ProtoError.display, res.2)
      | some data =>
        -- the live ECU is asked immediately before the transfer
        match Session.readRealtime r c.ochGet c.canId c.ochBlockSize s with
        | (.error e, s) => .ok (.error e.display, s)
        | (.ok block, s) => do
          if ← c.stopped m block then
            if c.loaded && c.ecuSignature == some c.df.signature then return c.sendTable r cal data s
            else
              return (.error "A loaded tune and matching ECU firmware signature are required", s)
          else return (.error "Stop the engine before writing AFR calibration", s)

end Model

end Calibrating

/-! ## On the line -/

theorem metadata_usable [F64 F] {df : IniDef F} {cal : AfrCalibration F}
    (h : Calibration.metadata df = .ok cal) : cal.identifier = 2 ∧
      (0 < cal.blockingFactor.toNat ∧ cal.blockingFactor.toNat ≤ 256 ∧ cal.blockingFactor.toNat % 32 = 0) ∧
      cal.writeCommand = "t\\$tsCanId%2i%2o%2c%v" ∧
      df.header.tableCrcCommand = some "k\\$tsCanId%2i%2o%2c" := by
  unfold Calibration.metadata at h
  cases hcal : df.afrCalibration with
  | none =>
    rw [hcal] at h
    cases h
  | some c =>
    rw [hcal] at h
    dsimp only at h
    split_ifs at h with hbad
    cases h
    simp only [not_or, not_not] at hbad
    obtain ⟨hid, -, -, -, hpos, hmax, hmod, hwrite, hcrc⟩ := hbad
    refine ⟨hid, ⟨?_, ?_, ?_⟩, hwrite, hcrc⟩
    · exact Nat.pos_of_ne_zero fun hzero => hpos (UInt64.toNat_inj.mp hzero)
    · exact UInt64.le_iff_toNat_le.mp (UInt64.not_lt.mp hmax)
    · exact congrArg UInt64.toNat hmod

/-- The telemetry command of the definition that the simulator was written for. -/
def ochTemplate : Template :=
  ⟨[.literal [ord 'r'], .var "tsCanId", .literal [0x30], .offset, .count]⟩

variable {link : Link} {s : Session} {d : Device}

theorem readRealtime_link (hlink : link.Prompt) (hs : s.Ready) (hd : d.buf = [])
    (hblock : ∀ n, (link.block n).length < MAX_PAYLOAD) (canId : UInt8) (count : UInt16) :
    ∃ (s' : Session) (d' : Device), s'.Ready ∧ d'.buf = [] ∧ d'.store = d.store ∧
      Session.readRealtime link.responder ochTemplate canId count (s, d) =
        (link.result d ((link.block d.polls).take count.toNat), s', d') := by
  set payload : List UInt8 := ord 'r' :: canId :: 0x30 :: 0 :: 0 :: leBytes 2 count.toNat with hpayload
  have hcmd : ochTemplate.build ⟨canId, none, some 0, some count, none⟩ = .ok payload := rfl
  have hcount : le16 payload 5 = count.toNat := by
    rw [show le16 payload 5 = leNat (leBytes 2 count.toNat) from rfl, leNat_leBytes]
    exact Nat.mod_eq_of_lt (by simpa using count.toNat_lt)
  have hdispatch : dispatch payload d.store (link.block d.polls) =
      (RC_OK :: (link.block d.polls).take count.toNat, d.store) := by
    rw [← hcount]
    rfl
  have hadmitted : Admitted payload := by
    change Header 7 (ord 'r')
    decide
  obtain ⟨s', hs', hexchange⟩ := Link.exchange_acknowledged hlink hs hd hadmitted hdispatch [RC_OK]
    (by decide) (lt_of_le_of_lt (List.length_take_le' _ _) (hblock d.polls))
  refine ⟨s', ⟨d.store, d.polls + 1, []⟩, hs', rfl, rfl, ?_⟩
  rw [Session.readRealtime, hcmd, CommandSet.sendCommand, hexchange]

/-- What a calibration leaves, as the client has it. -/
structure Recalibrated (data : List UInt8) (d : Device) (x : Except String UInt32 × (Session × Device)) :
    Prop where
  ready : x.2.1.Ready
  idle : x.2.2.buf = []
  gathers : ∃ g, Gathers x.2.2.store g
  working : x.2.2.store.working = d.store.working
  burned : x.2.2.store.burned = d.store.burned
  kept : FakeEcu.Kept d.store → FakeEcu.Kept x.2.2.store
  whole : x.2.2.store.calibration = d.store.calibration ∨ x.2.2.store.calibration = data
  ok : ∀ crc, x.1 = .ok crc → x.2.2.store.calibration = data ∧ crc = crc32 data

theorem recalibrated_refused {data : List UInt8} {d' : Device} {e : String} {g : Gather}
    (hs : s.Ready) (hd : d'.buf = []) (hg : Gathers d.store g) (hstore : d'.store = d.store) :
    Recalibrated data d (.error e, s, d') := by
  refine ⟨hs, hd, ⟨g, ?_⟩, ?_, ?_, fun hk => ?_, .inl ?_, fun crc hcrc => ?_⟩
  · exact hstore ▸ hg
  · exact congrArg PageStore.working hstore
  · exact congrArg PageStore.burned hstore
  · exact hstore ▸ hk
  · exact congrArg PageStore.calibration hstore
  · cases hcrc

variable [F64 F] {c : Calibrating F} {cal : AfrCalibration F} {data : List UInt8} {g : Gather}

/-- **Transfer and checksum.** -/
theorem sendTable_link (hlink : link.Prompt) (hs : s.Ready) (hd : d.buf = []) (hg : Gathers d.store g)
    (hcal : Calibration.metadata c.df = .ok cal) (hdata : data.length = 1024) :
    Recalibrated data d (c.sendTable link.responder cal data (s, d)) ∧
      (link.corruptEvery = 0 → (c.sendTable link.responder cal data (s, d)).1 = .ok (crc32 data)) := by
  obtain ⟨hid, ⟨hpos, hmax, hmod⟩, hwrite, hcrc⟩ := metadata_usable hcal
  have htransfer := transfer_link hlink hs hd hg hpos hmax hmod hdata c.canId
  rw [Calibrating.sendTable, hid, hwrite]
  rcases hx : EcuProto.Calibration.transfer link.responder c.canId "t\\$tsCanId%2i%2o%2c%v" 2
    cal.blockingFactor.toNat data (s, d) with ⟨res, s₁, d₁⟩
  rw [hx] at htransfer
  obtain ⟨hs₁, hd₁, ⟨g₁, hg₁⟩, hworking, hburned, hkept, hwhole, hok, herror⟩ := htransfer
  dsimp only at hs₁ hd₁ hg₁ hworking hburned hkept hwhole hok herror
  cases res with
  | error e =>
    refine ⟨⟨hs₁, hd₁, ⟨g₁, hg₁⟩, hworking, hburned, hkept, hwhole, fun crc he => ?_⟩, fun hclean => ?_⟩
    · cases he
    · exact absurd hclean (herror e rfl).2
  | ok u =>
    have htable := hok rfl
    obtain ⟨s₂, d₂, hs₂, hd₂, hstore, hread⟩ := crc_link hlink hs₁ hd₁ c.canId
    have hreadCrc : c.readCrc link.responder cal (s₁, d₁) = (link.result d₁ (crc32 data), s₂, d₂) := by
      rw [Calibrating.readCrc, hid, hcrc, ← htable]
      exact hread
    have hleft : ∀ res : Except String UInt32, (∀ crc, res = .ok crc → crc = crc32 data) →
        Recalibrated data d (res, s₂, d₂) := fun res hres => by
      refine ⟨hs₂, hd₂, ⟨g₁, ?_⟩, ?_, ?_, fun hk => ?_, .inr ?_, fun crc he => ⟨?_, hres crc he⟩⟩
      · exact hstore ▸ hg₁
      · exact (congrArg PageStore.working hstore).trans hworking
      · exact (congrArg PageStore.burned hstore).trans hburned
      · exact hstore ▸ hkept hk
      · exact (congrArg PageStore.calibration hstore).trans htable
      · exact (congrArg PageStore.calibration hstore).trans htable
    dsimp only
    rw [hreadCrc, Link.result]
    by_cases hcorrupts : link.Corrupts d₁
    · rw [if_pos hcorrupts]
      refine ⟨hleft _ fun crc he => ?_, fun hclean => absurd hclean hcorrupts.1⟩
      cases he
    · rw [if_neg hcorrupts]
      dsimp only
      rw [if_neg (not_not.mpr rfl)]
      exact ⟨hleft _ fun crc he => (Except.ok.inj he).symm, fun _ => rfl⟩

variable {m : Machine}

/-- **A calibration leaves the whole table or the one from before.** When a client has a table written, the
simulator has after it, whatever responses were corrupted, the whole table or the one it had, its pages
untouched and the line at rest. With success it has the table, the checksum is that of the table, and a simulator
that is started from the file has it too. On a clean line with the engine at rest the calibration succeeds. -/
theorem calibration_on_line (hlink : link.Prompt) (hs : s.Ready) (hd : d.buf = []) (hg : Gathers d.store g)
    (hblock : ∀ n, (link.block n).length < MAX_PAYLOAD) (hoch : c.ochGet = ochTemplate)
    (hstopped : ∀ block, ∃ b, c.stopped m block = .ok b) (hdata : data.length = 1024) :
    ∃ x, c.doCalibration m link.responder (some data) (s, d) = .ok x ∧ Recalibrated data d x ∧
      (∀ crc, x.1 = .ok crc → FakeEcu.Kept d.store → ∃ store,
        PageStore.new x.2.2.store.storagePath x.2.2.store.file = some store ∧ store.calibration = data) ∧
      (link.corruptEvery = 0 → Calibration.metadata c.df = .ok cal →
        c.stopped m ((link.block d.polls).take c.ochBlockSize.toNat) = .ok true → c.loaded = true →
        c.ecuSignature = some c.df.signature → x.1 = .ok (crc32 data)) := by
  have hrestart : ∀ x : Except String UInt32 × (Session × Device), Recalibrated data d x → ∀ crc, x.1 = .ok crc →
      FakeEcu.Kept d.store → ∃ store, PageStore.new x.2.2.store.storagePath x.2.2.store.file = some store ∧
        store.calibration = data := fun x hx crc hcrc hk =>
    ⟨_, (hx.kept hk).new.1, (hx.ok crc hcrc).1⟩
  rw [Calibrating.doCalibration]
  cases hcal : Calibration.metadata c.df with
  | error e =>
    have hleft : Recalibrated data d (.error e, s, d) := recalibrated_refused hs hd hg rfl
    refine ⟨_, rfl, hleft, hrestart _ hleft, fun _ h => ?_⟩
    cases h
  | ok cal' =>
    dsimp only
    rw [if_neg (not_not.mpr hs.primary), hoch]
    obtain ⟨s₁, d₁, hs₁, hd₁, hstore, hread⟩ := readRealtime_link hlink hs hd hblock c.canId c.ochBlockSize
    rw [hread, Link.result]
    by_cases hcorrupts : link.Corrupts d
    · rw [if_pos hcorrupts]
      have hleft : Recalibrated data d (.error (ProtoError.display .crcMismatch), s₁, d₁) :=
        recalibrated_refused hs₁ hd₁ hg hstore
      exact ⟨_, rfl, hleft, hrestart _ hleft, fun hclean => absurd hclean hcorrupts.1⟩
    · rw [if_neg hcorrupts]
      dsimp only
      obtain ⟨b, hb⟩ := hstopped ((link.block d.polls).take c.ochBlockSize.toNat)
      rw [hb]
      cases b with
      | false =>
        have hleft : Recalibrated data d (.error "Stop the engine before writing AFR calibration", s₁, d₁) :=
          recalibrated_refused hs₁ hd₁ hg hstore
        refine ⟨_, rfl, hleft, hrestart _ hleft, fun _ _ h => ?_⟩
        cases h
      | true =>
        by_cases hready : (c.loaded && c.ecuSignature == some c.df.signature) = true
        · obtain ⟨hleft, hclean⟩ := sendTable_link hlink hs₁ hd₁ (hstore ▸ hg) hcal hdata
          have hleft' : Recalibrated data d (c.sendTable link.responder cal' data (s₁, d₁)) := by
            obtain ⟨h1, h2, h3, h4, h5, h6, h7, h8⟩ := hleft
            rw [hstore] at h4 h5 h6 h7
            exact ⟨h1, h2, h3, h4, h5, h6, h7, h8⟩
          refine ⟨c.sendTable link.responder cal' data (s₁, d₁), ?_, hleft', hrestart _ hleft',
            fun h _ _ _ _ => hclean h⟩
          simp only [except_ok_bind, if_true, hready]
          rfl
        · have hleft : Recalibrated data d
              (.error "A loaded tune and matching ECU firmware signature are required", s₁, d₁) :=
            recalibrated_refused hs₁ hd₁ hg hstore
          refine ⟨_, ?_, hleft, hrestart _ hleft, fun _ _ _ hl hsig => absurd ?_ hready⟩
          · simp only [except_ok_bind, if_true, hready]
            rfl
          · rw [hl, hsig]
            simp

/-- A definition with a calibration and the engine speed in the first byte of the telemetry. -/
def afrCalibration : AfrCalibration XRat := ⟨"t\\$tsCanId%2i%2o%2c%v", 256, 2, 1024, 1, .fin 10, []⟩

def afrSession : Calibrating XRat where
  df := {
    signature := "speeduino 202501"
    header := { tableCrcCommand := some "k\\$tsCanId%2i%2o%2c" }
    outputChannels := IndexMap.ofList [("rpm", .scalar .u08 0 none (.num 1) (.num 0))]
    afrCalibration := some afrCalibration }
  ochGet := ochTemplate
  ochBlockSize := 1
  canId := 0
  loaded := true
  ecuSignature := some "speeduino 202501"

def releaseMachine : Machine := ⟨.release, 8⟩

theorem stopped_afrSession (block : List UInt8) : ∃ b, afrSession.stopped releaseMachine block = .ok b := by
  have hrpm : afrSession.df.outputChannels.get? "rpm" = some (.scalar .u08 0 none (.num 1) (.num 0)) := rfl
  unfold Calibrating.stopped Telemetry.channel Telemetry.channelWith
  rw [show (Telemetry.new afrSession.df block).df.outputChannels.get? "rpm" = _ from hrpm]
  dsimp only
  cases (Telemetry.readRaw (Telemetry.new afrSession.df block).block (0 : UInt32).toNat .u08 : Option XRat) with
  | none => exact ⟨false, rfl⟩
  | some raw => exact ⟨_, rfl⟩

/-- A table of 14.7 throughout. -/
def stoichiometric : List UInt8 := List.replicate 1024 147

/-- On a line that corrupts every third response, and on one that corrupts none: there it succeeds. -/
theorem calibration_on_line_afrSession :
    (∃ x, afrSession.doCalibration releaseMachine (Link.direct 3 fun _ => [0]).responder (some stoichiometric)
        (Session.fresh, ⟨PageStore.blank, 0, []⟩) = .ok x ∧
      Recalibrated stoichiometric ⟨PageStore.blank, 0, []⟩ x) ∧
    ∃ x, afrSession.doCalibration releaseMachine (Link.direct 0 fun _ => [0]).responder (some stoichiometric)
        (Session.fresh, ⟨PageStore.blank, 0, []⟩) = .ok x ∧
      x.1 = .ok (crc32 stoichiometric) ∧ Recalibrated stoichiometric ⟨PageStore.blank, 0, []⟩ x ∧
      ∃ store, PageStore.new x.2.2.store.storagePath x.2.2.store.file = some store ∧
        store.calibration = stoichiometric := by
  have hline (corruptEvery : ℕ) := @calibration_on_line XRat (Link.direct corruptEvery fun _ => [0])
    Session.fresh ⟨PageStore.blank, 0, []⟩ _ afrSession afrCalibration stoichiometric _ releaseMachine
    (Link.prompt_direct corruptEvery _) ⟨rfl, rfl, rfl⟩ rfl gathers_blank
    (fun _ => show 1 < MAX_PAYLOAD by decide) rfl stopped_afrSession List.length_replicate
  have hstopped : afrSession.stopped releaseMachine [0] = .ok true := by decide +kernel
  obtain ⟨x, hx, hleft, -, -⟩ := hline 3
  obtain ⟨x', hx', hleft', hrestart, hclean⟩ := hline 0
  have hcrc := hclean rfl rfl hstopped rfl rfl
  exact ⟨⟨x, hx, hleft⟩, x', hx', hcrc, hleft', hrestart _ hcrc kept_blank⟩

end RustyTune.Server
