import RustyTune.FakeEcu.Store

/-!
# The simulator's commands

* `dispatch`: one validated payload and its response.
* `dispatch_store`: what a command may do to the store; `dispatch_unplug`: that the file has no part in it.
* `Event`, `run`: commands and restarts from the file; `cycle`: the same on a device that keeps what is
  burned through a loss of power.
* **`storage_is_eeprom`**: the two agree over every run.
-/

namespace RustyTune.FakeEcu

open EcuProto

/-! ## Commands -/

/-- The code of an ASCII character. -/
def ord (c : Char) : UInt8 := c.toUInt8

/-- Answer to `Q`, the signature of the INI. -/
def SIGNATURE : List UInt8 := "speeduino 202501".toList.map ord

/-- Answer to `S`. -/
def PRODUCT_STRING : List UInt8 := "Speeduino 2025.01".toList.map ord

def BLOCKING_FACTOR : ℕ := 251

def TABLE_BLOCKING_FACTOR : ℕ := 256

def RC_UKWN_ERR : UInt8 := 0x83

def RC_RANGE_ERR : UInt8 := 0x84

/-- A byte of the payload; the lengths of the commands have been checked. -/
def byteAt (payload : List UInt8) (i : ℕ) : UInt8 := payload.getD i 0

/-- `payload[i] | (payload[i + 1] << 8)`. -/
def le16 (payload : List UInt8) (i : ℕ) : ℕ := leNat [byteAt payload i, byteAt payload (i + 1)]

/-- A number of `struct.unpack(">HH", ..)`. -/
def be16 (payload : List UInt8) (i : ℕ) : ℕ := beNat [byteAt payload i, byteAt payload (i + 1)]

inductive PageCommand
  | read
  | write
  | crc
  | burn
  deriving DecidableEq

inductive Command
  | realtime
  | och
  | page (c : PageCommand)
  | tableCrc
  | table
  | signature
  | product
  | test
  | capabilities
  deriving DecidableEq

/-- The command of a payload's first byte. -/
def command (cmd : UInt8) : Option Command :=
  if cmd = ord 'A' then some .realtime
  else if cmd = ord 'r' then some .och
  else if cmd = ord 'p' then some (.page .read)
  else if cmd = ord 'M' then some (.page .write)
  else if cmd = ord 'b' ∨ cmd = ord 'B' then some (.page .burn)
  else if cmd = ord 'd' then some (.page .crc)
  else if cmd = ord 'k' then some .tableCrc
  else if cmd = ord 't' then some .table
  else if cmd = ord 'Q' then some .signature
  else if cmd = ord 'S' then some .product
  else if cmd = ord 'C' then some .test
  else if cmd = ord 'f' then some .capabilities
  else none

/-- A command for a page that exists; burning is acknowledged with a code of its own. -/
def pageCommand (payload : List UInt8) (store : PageStore) (n : PageNum) :
    PageCommand → List UInt8 × PageStore
  | .read =>
    match store.read n (le16 payload 3) (le16 payload 5) with
    | none => ([RC_RANGE_ERR], store)
    | some data => (RC_OK :: data, store)
  | .write =>
    if le16 payload 5 ≠ (payload.drop 7).length then ([RC_RANGE_ERR], store)
    else
      match store.write n (le16 payload 3) (payload.drop 7) with
      | none => ([RC_RANGE_ERR], store)
      | some store => ([RC_OK], store)
  | .crc => (RC_OK :: beBytes 4 (store.crc n).toNat, store)
  | .burn => ([RC_BURN_OK], store.burn n)

/-- One validated payload, with the telemetry of the moment: the response and the store. -/
def dispatch (payload : List UInt8) (store : PageStore) (block : List UInt8) :
    List UInt8 × PageStore :=
  match command (byteAt payload 0) with
  | some .realtime => (RC_OK :: block, store)
  | some .och =>
    if byteAt payload 2 ≠ 0x30 then ([RC_UKWN_ERR], store)
    else (RC_OK :: block.take (le16 payload 5), store)
  | some (.page c) =>
    match valid (byteAt payload 2) with
    | none => ([RC_RANGE_ERR], store)
    | some n => pageCommand payload store n c
  | some .tableCrc =>
    if byteAt payload 2 ≠ 2 then ([RC_RANGE_ERR], store)
    else (RC_OK :: beBytes 4 (crc32 store.calibration).toNat, store)
  | some .table =>
    if byteAt payload 2 ≠ 2 then ([RC_RANGE_ERR], store)
    else
      match store.receive (be16 payload 3) (be16 payload 5) (payload.drop 7) with
      | none => ([RC_RANGE_ERR], store)
      | some store => ([RC_OK], store)
  | some .signature => (RC_OK :: SIGNATURE, store)
  | some .product => (RC_OK :: PRODUCT_STRING, store)
  | some .test => ([RC_OK, 0xFF], store)
  | some .capabilities =>
    ([RC_OK, 2] ++ beBytes 2 BLOCKING_FACTOR ++ beBytes 2 TABLE_BLOCKING_FACTOR, store)
  | none => ([RC_UKWN_ERR], store)

/-- What a command may do to the store. -/
inductive Change (s : PageStore) : PageStore → Prop
  | none : Change s s
  | write (n : PageNum) (offset : ℕ) (data : List UInt8) {s'} (h : s.write n offset data = some s') :
    Change s s'
  | burn (n : PageNum) : Change s (s.burn n)
  | receive (offset count : ℕ) (data : List UInt8) {s'}
    (h : s.receive offset count data = some s') : Change s s'

theorem pageCommand_store (payload : List UInt8) (s : PageStore) (n : PageNum) (c : PageCommand) :
    Change s (pageCommand payload s n c).2 := by
  cases c with
  | read =>
    rw [pageCommand]
    cases s.read n (le16 payload 3) (le16 payload 5) <;> exact .none
  | write =>
    rw [pageCommand]
    split_ifs
    · exact .none
    · cases h : s.write n (le16 payload 3) (payload.drop 7) with
      | none => exact .none
      | some s' => exact .write n _ _ h
  | crc => exact .none
  | burn => exact .burn n

/-- **One change at most**: bytes of a page, a page burned, or a part of the calibration. -/
theorem dispatch_store (payload : List UInt8) (s : PageStore) (block : List UInt8) :
    Change s (dispatch payload s block).2 := by
  rw [dispatch]
  cases command (byteAt payload 0) with
  | none => exact .none
  | some c =>
    cases c with
    | och | tableCrc => dsimp only; split_ifs <;> exact .none
    | page c =>
      dsimp only
      cases valid (byteAt payload 2) with
      | none => exact .none
      | some n => exact pageCommand_store payload s n c
    | table =>
      dsimp only
      split_ifs
      · exact .none
      · cases h : s.receive (be16 payload 3) (be16 payload 5) (payload.drop 7) with
        | none => exact .none
        | some s' => exact .receive _ _ _ h
    | realtime | signature | product | test | capabilities => exact .none

/-! ## Without the file -/

/-- The store of a device that has no file. -/
def PageStore.unplug (s : PageStore) : PageStore := { s with storagePath := false, file := none }

namespace PageStore

theorem unplug_persist (s : PageStore) : s.persist.unplug = s.unplug := by
  unfold persist
  split_ifs <;> rfl

theorem write_unplug (s : PageStore) (n : PageNum) (offset : ℕ) (data : List UInt8) :
    s.unplug.write n offset data = (s.write n offset data).map unplug := by
  unfold write
  split_ifs <;> rfl

theorem burn_unplug (s : PageStore) (n : PageNum) : s.unplug.burn n = (s.burn n).unplug := by
  rw [burn, burn, unplug_persist]
  rfl

theorem complete_unplug (s : PageStore) : s.unplug.complete = s.complete.unplug := by
  unfold complete
  split_ifs with h h' h'
  · rw [unplug_persist]
    rfl
  · exact absurd h h'
  · exact absurd h' h
  · rfl

theorem receive_unplug (s : PageStore) (offset count : ℕ) (data : List UInt8) :
    s.unplug.receive offset count data = (s.receive offset count data).map unplug := by
  unfold receive
  split_ifs with hpart hnext hnext' hnext'
  · rfl
  · rfl
  · exact absurd hnext hnext'
  · exact absurd hnext' hnext
  · exact congrArg some (complete_unplug { s with
      calibrationPending := overwrite s.calibrationPending offset data
      calibrationOffset := s.expected offset + count })

end PageStore

theorem pageCommand_unplug (payload : List UInt8) (s : PageStore) (n : PageNum) (c : PageCommand) :
    pageCommand payload s.unplug n c =
      ((pageCommand payload s n c).1, (pageCommand payload s n c).2.unplug) := by
  cases c with
  | read =>
    rw [pageCommand, pageCommand]
    change (match s.read n (le16 payload 3) (le16 payload 5) with
      | none => ([RC_RANGE_ERR], s.unplug)
      | some data => (RC_OK :: data, s.unplug)) = _
    cases s.read n (le16 payload 3) (le16 payload 5) <;> rfl
  | write =>
    rw [pageCommand, pageCommand]
    split_ifs
    · rfl
    · rw [PageStore.write_unplug]
      cases s.write n (le16 payload 3) (payload.drop 7) <;> rfl
  | crc => rfl
  | burn => rw [pageCommand, pageCommand, PageStore.burn_unplug]

/-- **A command does the same whether or not there is a file.** -/
theorem dispatch_unplug (payload : List UInt8) (s : PageStore) (block : List UInt8) :
    dispatch payload s.unplug block =
      ((dispatch payload s block).1, (dispatch payload s block).2.unplug) := by
  rw [dispatch, dispatch]
  cases command (byteAt payload 0) with
  | none => rfl
  | some c =>
    cases c with
    | och | tableCrc => dsimp only; split_ifs <;> rfl
    | page c =>
      dsimp only
      cases valid (byteAt payload 2) with
      | none => rfl
      | some n => exact pageCommand_unplug payload s n c
    | table =>
      dsimp only
      split_ifs
      · rfl
      · rw [PageStore.receive_unplug]
        cases s.receive (be16 payload 3) (be16 payload 5) (payload.drop 7) <;> rfl
    | realtime | signature | product | test | capabilities => rfl

/-! ## Restarts -/

inductive Event
  /-- A command, with the telemetry of the moment. -/
  | command (payload block : List UInt8)
  | restart

/-- A run of the simulator, restarted from its file: the responses, and the store; none where a start
fails. -/
def run : List Event → PageStore → Option (List (List UInt8) × PageStore)
  | [], s => some ([], s)
  | .command payload block :: events, s => do
    let (response, s) := dispatch payload s block
    let (responses, s) ← run events s
    return (response :: responses, s)
  | .restart :: events, s => do run events (← PageStore.new s.storagePath s.file)

/-- Power is lost: the burned pages and the calibration stay, the rest is gone. -/
def PageStore.powerCycle (s : PageStore) : PageStore :=
  { s with
    calibrationPending := s.calibration
    calibrationOffset := 0
    working := s.burned }

/-- The same run of a device that keeps what is burned. -/
def cycle : List Event → PageStore → List (List UInt8) × PageStore
  | [], s => ([], s)
  | .command payload block :: events, s =>
    let (response, s) := dispatch payload s block
    let (responses, s) := cycle events s
    (response :: responses, s)
  | .restart :: events, s => cycle events s.powerCycle

/-- The file has what is burned. -/
structure Kept (s : PageStore) : Prop where
  path : s.storagePath = true
  file : PageStore.load s.file = some (s.burned, s.calibration)
  calibration : s.calibration.length = 1024
  pending : s.calibrationPending.length = 1024

namespace Kept

variable {s s' : PageStore}

theorem persist (hpath : s.storagePath = true) (hcal : s.calibration.length = 1024)
    (hpending : s.calibrationPending.length = 1024) : Kept s.persist := by
  rw [PageStore.persist, if_pos hpath]
  exact ⟨hpath, PageStore.load_document s hcal, hcal, hpending⟩

theorem receive (h : Kept s) {offset count : ℕ} {data : List UInt8}
    (hs' : s.receive offset count data = some s') : Kept s' := by
  unfold PageStore.receive at hs'
  split_ifs at hs' with hpart hnext
  simp only [not_or, not_not, not_lt] at hpart
  have hlen : (overwrite s.calibrationPending offset data).length = 1024 := by
    rw [length_overwrite (by rw [h.pending]; omega), h.pending]
  rw [← Option.some.inj hs', PageStore.complete]
  split_ifs
  · exact persist h.path hlen hlen
  · exact ⟨h.path, h.file, h.calibration, hlen⟩

/-- **No command parts the file from what is burned.** -/
theorem change (h : Kept s) (hs' : Change s s') : Kept s' := by
  cases hs' with
  | none => exact h
  | write n offset data hwrite =>
    unfold PageStore.write at hwrite
    split_ifs at hwrite
    rw [← Option.some.inj hwrite]
    exact ⟨h.path, h.file, h.calibration, h.pending⟩
  | burn n => exact persist h.path h.calibration h.pending
  | receive offset count data hreceive => exact h.receive hreceive

theorem new (h : Kept s) : PageStore.new s.storagePath s.file = some s.powerCycle ∧ Kept s.powerCycle := by
  refine ⟨?_, h.path, h.file, h.calibration, h.calibration⟩
  rw [PageStore.new, h.path, if_pos rfl, h.file, PageStore.powerCycle, h.path]
  rfl

end Kept

/-- **The file is the simulator's EEPROM**: over every run of commands and restarts, the simulator answers
as a device that keeps what is burned, and holds the same pages and the same calibration. -/
theorem storage_is_eeprom (s : PageStore) (h : Kept s) (events : List Event) :
    ∃ out s', run events s = some (out, s') ∧ cycle events s.unplug = (out, s'.unplug) ∧ Kept s' := by
  induction events generalizing s with
  | nil => exact ⟨[], s, rfl, rfl, h⟩
  | cons e events ih =>
    cases e with
    | command payload block =>
      obtain ⟨out, s', hrun, hcycle, hkept⟩ :=
        ih (dispatch payload s block).2 (h.change (dispatch_store payload s block))
      refine ⟨(dispatch payload s block).1 :: out, s', ?_, ?_, hkept⟩
      · change (run events (dispatch payload s block).2).bind _ = _
        rw [hrun]
        rfl
      · rw [cycle, dispatch_unplug]
        dsimp only
        rw [hcycle]
    | restart =>
      obtain ⟨hnew, hcycled⟩ := h.new
      obtain ⟨out, s', hrun, hcycle, hkept⟩ := ih s.powerCycle hcycled
      refine ⟨out, s', ?_, hcycle, hkept⟩
      change (PageStore.new s.storagePath s.file).bind (run events) = _
      rw [hnew]
      exact hrun

/-- A simulator that starts where no file stands yet. -/
def PageStore.blank : PageStore :=
  ⟨defaultCalibration, defaultCalibration, 0, defaultMemory, defaultMemory, true, none⟩

theorem kept_blank : Kept PageStore.blank := by
  have hlen : defaultCalibration.length = 1024 := by
    rw [defaultCalibration, List.length_map, List.length_range]
  have hload : PageStore.load none = some (defaultMemory, defaultCalibration) := by
    rw [PageStore.load]
  unfold PageStore.blank
  constructor <;> dsimp only
  · exact hload
  · exact hlen
  · exact hlen

/-- Two bytes are written and burned, one of them is written again, and the power is lost: the read is
answered with what was burned. -/
def burnAndRestart : List Event :=
  [.command [ord 'M', 0, 1, 4, 0, 2, 0, 77, 88] [], .command [ord 'b', 0, 1] [],
    .command [ord 'M', 0, 1, 5, 0, 1, 0, 99] [], .restart, .command [ord 'p', 0, 1, 4, 0, 2, 0] []]

theorem storage_is_eeprom_burnAndRestart : ∃ s',
    run burnAndRestart PageStore.blank = some ([[0], [4], [0], [0, 77, 88]], s') ∧
      cycle burnAndRestart PageStore.blank.unplug = ([[0], [4], [0], [0, 77, 88]], s'.unplug) ∧ Kept s' := by
  obtain ⟨out, s', hrun, hcycle, hkept⟩ := storage_is_eeprom PageStore.blank kept_blank burnAndRestart
  have hout : (cycle burnAndRestart PageStore.blank.unplug).1 = [[0], [4], [0], [0, 77, 88]] := by
    decide +kernel
  obtain rfl : out = _ := (congrArg Prod.fst hcycle).symm.trans hout
  exact ⟨s', hrun, hcycle, hkept⟩

end RustyTune.FakeEcu
