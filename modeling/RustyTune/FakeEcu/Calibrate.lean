import RustyTune.EcuProto.Transfer
import RustyTune.FakeEcu.Gather
import RustyTune.FakeEcu.Link

/-!
# A calibration on the line

* `chunk_link`: one chunk of a table, in its place.
* `Transferred`: what a transfer leaves. **`transfer_link`**: it leaves the whole table or the one from
  before, and a transfer that succeeds leaves the table.
* `crc_link`: the checksum that is read back.
-/

namespace RustyTune.FakeEcu

open EcuProto Calibration

variable {link : Link} {canId : UInt8} {s : Session} {d : Device}

/-! ## One chunk -/

theorem chunkCommand_afr (canId : UInt8) (offset : ℕ) (data : List UInt8) :
    chunkCommand canId 2 afrTemplate (offset, data) = ord 't' :: canId :: 2 :: UInt8.ofNat (offset / 256) ::
      UInt8.ofNat offset :: UInt8.ofNat (data.length / 256) :: UInt8.ofNat data.length :: data := by
  simp [chunkCommand, afrTemplate, partBytes, beBytes_two]
  rfl

theorem beNat_two {n : ℕ} (h : n < 2 ^ 16) : beNat [UInt8.ofNat (n / 256), UInt8.ofNat n] = n := by
  rw [← beBytes_two, beNat_beBytes]
  exact Nat.mod_eq_of_lt h

variable (canId) in
theorem admitted_chunk {data : List UInt8} (hpos : 0 < data.length) (hmax : data.length ≤ 256) (offset : ℕ) :
    Admitted (chunkCommand canId 2 afrTemplate (offset, data)) := by
  have hlengths : CMD_LENGTHS (ord 't') = some (8, 7 + TABLE_BLOCKING_FACTOR) := by decide
  have hmax' : data.length ≤ TABLE_BLOCKING_FACTOR := hmax
  rw [Admitted, chunkCommand_afr]
  simp only [List.length_cons]
  exact ⟨(8, 7 + TABLE_BLOCKING_FACTOR), hlengths, by omega, by omega⟩

variable (canId) in
theorem dispatch_chunk {g : Gather} (h : Gathers d.store g) {offset : ℕ} {data : List UInt8}
    (hle : offset + data.length ≤ 1024) (hmod : data.length % 32 = 0)
    (hplace : offset = 0 ∨ offset = g.got.length) (block : List UInt8) :
    ∃ store, dispatch (chunkCommand canId 2 afrTemplate (offset, data)) d.store block = ([RC_OK], store) ∧
      Gathers store (g.add offset data) ∧ store.working = d.store.working ∧ store.burned = d.store.burned := by
  obtain ⟨store, hreceive, hgathers, hworking, hburned⟩ := h.receive_next hle hmod hplace
  refine ⟨store, ?_, hgathers, hworking, hburned⟩
  have hcommand : command (ord 't') = some .table := by decide
  have hfirst : byteAt (chunkCommand canId 2 afrTemplate (offset, data)) 0 = ord 't' := by
    rw [chunkCommand_afr]
    rfl
  have hid : byteAt (chunkCommand canId 2 afrTemplate (offset, data)) 2 = 2 := by
    rw [chunkCommand_afr]
    rfl
  have hoffset : be16 (chunkCommand canId 2 afrTemplate (offset, data)) 3 = offset := by
    rw [chunkCommand_afr]
    exact beNat_two (by omega)
  have hcount : be16 (chunkCommand canId 2 afrTemplate (offset, data)) 5 = data.length := by
    rw [chunkCommand_afr]
    exact beNat_two (by omega)
  have hdata : (chunkCommand canId 2 afrTemplate (offset, data)).drop 7 = data := by
    rw [chunkCommand_afr]
    rfl
  rw [dispatch, hfirst, hcommand]
  dsimp only
  rw [hid, if_neg (not_not.mpr rfl), hoffset, hcount, hdata, hreceive]

variable (canId) in
/-- **One chunk in its place** is taken; the client has the acknowledgement, or sees that it was
corrupted. -/
theorem chunk_link (hlink : link.Prompt) (hs : s.Ready) (hd : d.buf = []) {g : Gather}
    (h : Gathers d.store g) {offset : ℕ} {data : List UInt8} (hle : offset + data.length ≤ 1024)
    (hpos : 0 < data.length) (hmax : data.length ≤ 256) (hmod : data.length % 32 = 0)
    (hplace : offset = 0 ∨ offset = g.got.length) :
    ∃ (s' : Session) (d' : Device), s'.Ready ∧ d'.buf = [] ∧ Gathers d'.store (g.add offset data) ∧
      d'.store.working = d.store.working ∧ d'.store.burned = d.store.burned ∧ (Kept d.store → Kept d'.store) ∧
      Session.exchange link.responder (s, d) (chunkCommand canId 2 afrTemplate (offset, data)) [RC_OK] =
        (link.result d [], s', d') := by
  obtain ⟨store, hdispatch, hgathers, hworking, hburned⟩ :=
    dispatch_chunk canId h hle hmod hplace (link.block d.polls)
  have hkept : Kept d.store → Kept store := fun hk => by
    have hchange := dispatch_store (chunkCommand canId 2 afrTemplate (offset, data)) d.store (link.block d.polls)
    rw [hdispatch] at hchange
    exact hk.change hchange
  obtain ⟨s', hs', hexchange⟩ := Link.exchange_acknowledged hlink hs hd (admitted_chunk canId hpos hmax offset)
    hdispatch [RC_OK] (by decide) (by decide)
  exact ⟨s', _, hs', rfl, hgathers, hworking, hburned, hkept, hexchange⟩

/-! ## The table -/

/-- What a transfer of `data` leaves. -/
structure Transferred (link : Link) (data : List UInt8) (d : Device)
    (x : Except ProtoError Unit × (Session × Device)) : Prop where
  ready : x.2.1.Ready
  idle : x.2.2.buf = []
  gathers : ∃ g, Gathers x.2.2.store g
  working : x.2.2.store.working = d.store.working
  burned : x.2.2.store.burned = d.store.burned
  kept : Kept d.store → Kept x.2.2.store
  whole : x.2.2.store.calibration = d.store.calibration ∨ x.2.2.store.calibration = data
  ok : x.1 = .ok () → x.2.2.store.calibration = data
  error : ∀ e, x.1 = .error e → e = .crcMismatch ∧ link.corruptEvery ≠ 0

theorem Transferred.behind {data : List UInt8} {d' : Device}
    {x : Except ProtoError Unit × (Session × Device)} (h : Transferred link data d' x)
    (hworking : d'.store.working = d.store.working) (hburned : d'.store.burned = d.store.burned)
    (hkept : Kept d.store → Kept d'.store)
    (hwhole : d'.store.calibration = d.store.calibration ∨ d'.store.calibration = data) :
    Transferred link data d x where
  ready := h.ready
  idle := h.idle
  gathers := h.gathers
  working := h.working.trans hworking
  burned := h.burned.trans hburned
  kept := fun hk => h.kept (hkept hk)
  whole := by
    rcases h.whole with heq | heq
    · rw [heq]
      exact hwhole
    · exact .inr heq
  ok := h.ok
  error := h.error

variable {n : ℕ} {data : List UInt8}

variable (canId) in
theorem exchangeAll_chunks (hlink : link.Prompt) (hn : 0 < n) (hmax : n ≤ 256) (hmod : n % 32 = 0)
    (hdata : data.length = 1024) (fuel : ℕ) : ∀ (offset : ℕ) (s : Session) (d : Device) (g : Gather),
    s.Ready → d.buf = [] → Gathers d.store g → offset ≤ 1024 → offset % 32 = 0 → 1024 ≤ offset + fuel →
      (offset = 0 ∨ g.got = data.take offset) → (offset = 1024 → g.table = data) →
      Transferred link data d (Session.exchangeAll link.responder
        ((chunksFrom n fuel offset (data.drop offset)).map (chunkCommand canId 2 afrTemplate)) (s, d)) := by
  have hend : ∀ (s : Session) (d : Device) (g : Gather), s.Ready → d.buf = [] → Gathers d.store g →
      g.table = data → Transferred link data d (.ok (), s, d) := fun s d g hs hd hg htable =>
    ⟨hs, hd, ⟨g, hg⟩, rfl, rfl, id, .inl rfl, fun _ => hg.table.trans htable, fun e he => by cases he⟩
  induction fuel with
  | zero =>
    intro offset s d g hs hd hg hle _ hfuel _ htable
    exact hend s d g hs hd hg (htable (by omega))
  | succ fuel ih =>
    intro offset s d g hs hd hg hle hoff hfuel hgot htable
    cases hrest : data.drop offset with
    | nil =>
      have hlen : (data.drop offset).length = 0 := by rw [hrest, List.length_nil]
      rw [List.length_drop] at hlen
      exact hend s d g hs hd hg (htable (by omega))
    | cons b rest =>
      have hlen : (data.drop offset).length = 1024 - offset := by rw [List.length_drop, hdata]
      have hpos : 0 < (data.drop offset).length := by rw [hrest]; exact Nat.succ_pos _
      have hchunk : ((data.drop offset).take n).length = min n (1024 - offset) := by
        rw [List.length_take, hlen]
      have htake : data.take offset ++ (data.drop offset).take n = data.take (offset + n) := List.take_add.symm
      have hplace : offset = 0 ∨ offset = g.got.length := hgot.imp_right fun heq => by
        rw [heq, List.length_take, hdata]
        omega
      have hfront : g.got.take offset = data.take offset := by
        rcases hgot with rfl | heq
        · rfl
        · rw [heq, List.take_take, Nat.min_self]
      have hin : offset + ((data.drop offset).take n).length ≤ 1024 := by omega
      obtain ⟨s', d', hs', hd', hg', hworking, hburned, hkept, hexchange⟩ :=
        chunk_link canId hlink hs hd hg hin (by omega) (by omega) (by omega) hplace
      have hadd : g.add offset ((data.drop offset).take n) =
          ⟨if offset + n < 1024 then g.table else data, data.take (offset + n)⟩ := by
        rw [Gather.add, hfront, htake, List.length_take, hdata]
        by_cases hwhole : offset + n < 1024
        · rw [if_pos hwhole, if_neg (by omega)]
        · rw [if_neg hwhole, if_pos (by omega), List.take_of_length_le (by omega)]
      have hwhole : d'.store.calibration = d.store.calibration ∨ d'.store.calibration = data := by
        rw [hg'.table, hadd, hg.table]
        dsimp only
        split_ifs
        · exact .inl rfl
        · exact .inr rfl
      rw [← hrest, show chunksFrom n (fuel + 1) offset (data.drop offset) =
        (offset, (data.drop offset).take n) :: chunksFrom n fuel (offset + n) ((data.drop offset).drop n) by
          rw [hrest]; rfl, List.map_cons, Session.exchangeAll, hexchange, Link.result]
      by_cases hcorrupts : link.Corrupts d
      · rw [if_pos hcorrupts]
        refine ⟨hs', hd', ⟨_, hg'⟩, hworking, hburned, hkept, hwhole, fun he => ?_, fun e he => ?_⟩
        · cases he
        · cases he
          exact ⟨rfl, hcorrupts.1⟩
      · rw [if_neg hcorrupts, List.drop_drop]
        refine Transferred.behind ?_ hworking hburned hkept hwhole
        by_cases hlast : offset + n < 1024
        · refine ih (offset + n) s' d' _ hs' hd' hg' (by omega) (by omega) (by omega) (.inr ?_) (fun h => by omega)
          rw [hadd]
        · have hnil : data.drop (offset + n) = [] := List.drop_eq_nil_of_le (by omega)
          have hnone : chunksFrom n fuel (offset + n) (data.drop (offset + n)) = [] := by
            rw [hnil]
            cases fuel <;> rfl
          rw [hnone]
          refine hend s' d' _ hs' hd' hg' ?_
          rw [hadd, if_neg hlast]

/-- **A transfer on the line** leaves the whole table or the one from before; one that succeeds leaves the table,
and one that fails was answered with a corrupted response. -/
theorem transfer_link (hlink : link.Prompt) (hs : s.Ready) (hd : d.buf = []) {g : Gather}
    (hg : Gathers d.store g) (hn : 0 < n) (hmax : n ≤ 256) (hmod : n % 32 = 0) (hdata : data.length = 1024)
    (canId : UInt8) : Transferred link data d
      (transfer link.responder canId "t\\$tsCanId%2i%2o%2c%v" 2 n data (s, d)) := by
  have husable : Usable "t\\$tsCanId%2i%2o%2c%v" 2 n data afrTemplate :=
    ⟨hdata, hn, hmax, Nat.dvd_of_mod_eq_zero hmod, by decide, usable_afrTable.parse, usable_afrTable.known⟩
  rw [transfer, husable.commands canId]
  exact exchangeAll_chunks canId hlink hn hmax hmod hdata data.length 0 s d g hs hd hg (Nat.zero_le _) rfl
    (by omega) (.inl rfl) (fun h => by omega)

def crcTemplate : Template := ⟨[.literal [ord 'k'], .var "tsCanId", .pageId, .offset, .count]⟩

theorem parse_crcTemplate : Template.parse "k\\$tsCanId%2i%2o%2c" = .ok crcTemplate := by decide +kernel

/-- **The checksum** is that of the table in use. -/
theorem crc_link (hlink : link.Prompt) (hs : s.Ready) (hd : d.buf = []) (canId : UInt8) :
    ∃ (s' : Session) (d' : Device), s'.Ready ∧ d'.buf = [] ∧ d'.store = d.store ∧
      Calibration.crc link.responder canId "k\\$tsCanId%2i%2o%2c" 2 (s, d) =
        (link.result d (crc32 d.store.calibration), s', d') := by
  have hcmd : (do
      let id ← identifier 2
      let template ← Template.parse "k\\$tsCanId%2i%2o%2c"
      template.build ⟨canId, some [id], some 0, some 0, none⟩) =
        Except.ok [ord 'k', canId, 2, 0, 0, 0, 0] := by
    rw [parse_crcTemplate]
    rfl
  have hdispatch : dispatch [ord 'k', canId, 2, 0, 0, 0, 0] d.store (link.block d.polls) =
      (RC_OK :: beBytes 4 (crc32 d.store.calibration).toNat, d.store) := rfl
  have hadmitted : Admitted [ord 'k', canId, 2, 0, 0, 0, 0] := by
    change Header 7 (ord 'k')
    decide
  obtain ⟨s', hs', hexchange⟩ := Link.exchange_acknowledged hlink hs hd hadmitted hdispatch [RC_OK]
    (by decide) (by rw [length_beBytes]; decide)
  refine ⟨s', ⟨d.store, d.polls + 1, []⟩, hs', rfl, rfl, ?_⟩
  rw [Calibration.crc, hcmd, CommandSet.sendCommand, hexchange, Link.result, Link.result]
  split_ifs
  · rfl
  · exact Prod.ext (congrArg Except.ok (Link.ofNat_beBytes _)) rfl

end RustyTune.FakeEcu
