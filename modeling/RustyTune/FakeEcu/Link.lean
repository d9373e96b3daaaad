import RustyTune.EcuProto.Corruption
import RustyTune.EcuProto.PageOps
import RustyTune.FakeEcu.Stream

/-!
# The simulator behind a session

A session on one side of the line, the simulator on the other, and between them the bytes: how a command
is split into reads and when the response arrives is up to the line.

* `Link`: the simulator's options, the telemetry and the line. `Link.responder`: what the session sees.
* **`exchanges_link`**: over a run of requests, each command is executed once and in order, every corrupted
  response is noticed, and every other one is delivered.
* `speeduino`: the page commands of the definition. `Payload`: a command as the simulator reads it.
* **`exchange_link`**: a request is answered by `dispatch`, or the client sees a checksum mismatch and the
  command is executed all the same.
* `readChunk_link`, `writeChunk_link`, `pageCrc_link`, `burn_link`: the page operations.
-/

namespace RustyTune.FakeEcu

open EcuProto

/-! ## The link -/

/-- The simulator's options and telemetry, and the line: how each command is split into reads, and when the
bytes of the response arrive. -/
structure Link where
  corruptEvery : ℕ
  block : ℕ → List UInt8
  reads : Device → List UInt8 → List (List UInt8)
  reads_flatten : ∀ d cmd, (reads d cmd).flatten = cmd
  idle : Device → List UInt8 → ℕ
  polls : Device → List UInt8 → List ℕ

namespace Link

variable (link : Link)

/-- The simulator at the other end of a session. -/
def responder : Responder Device where
  answer d cmd := (dispatch ((cmd.drop 2).take (cmd.length - 6)) d.store (link.block d.polls)).1
  wire d cmd := (listen link.corruptEvery link.block d (link.reads d cmd)).1.flatten
  idle := link.idle
  polls := link.polls
  next d cmd := (listen link.corruptEvery link.block d (link.reads d cmd)).2

/-- A line that brings each command in one read and its response byte by byte. -/
def direct (corruptEvery : ℕ) (block : ℕ → List UInt8) : Link where
  corruptEvery
  block
  reads _ cmd := [cmd]
  reads_flatten _ cmd := List.append_nil cmd
  idle _ _ := 0
  polls d cmd := List.replicate (listen corruptEvery block d [cmd]).1.flatten.length 1

/-- Every response is read before the deadline. -/
def Prompt : Prop := ∀ d cmd, InTime (link.responder.wire d cmd).length (link.polls d cmd)

/-- The next response is one of those that are corrupted. -/
def Corrupts (d : Device) : Prop := link.corruptEvery ≠ 0 ∧ (d.polls + 1) % link.corruptEvery = 0

instance (d : Device) : Decidable (link.Corrupts d) := inferInstanceAs (Decidable (_ ∧ _))

theorem drained_replicate (n : ℕ) : drained 0 n (List.replicate n 1) = n := by
  induction n with
  | zero => rfl
  | succ n ih =>
    rw [List.replicate_succ, drained]
    rw [show min 1 (n + 1) = 1 by omega, show min 256 (0 + 1) = 1 by omega, Nat.add_sub_cancel,
      Nat.add_sub_cancel, ih, Nat.add_comm]

theorem prompt_direct (corruptEvery : ℕ) (block : ℕ → List UInt8) : (direct corruptEvery block).Prompt :=
  fun _ _ => (drained_replicate _).ge

end Link

theorem xor_ff_ne (b : UInt8) : b ^^^ 0xFF ≠ b := by
  intro h
  have hxor : b ^^^ (b ^^^ 0xFF) = b ^^^ b := congrArg (b ^^^ ·) h
  rw [← UInt8.xor_assoc, UInt8.xor_self, UInt8.zero_xor] at hxor
  exact absurd hxor (by decide)

theorem hit_corrupt {body : List UInt8} (hbody : body ≠ []) :
    Hit body ((encode body).modify ((encode body).length / 2) (· ^^^ 0xFF)) := by
  have hpos := List.length_pos_iff.mpr hbody
  have hlen : (encode body).length = body.length + 6 := by
    simp only [encode, encodeWith, List.length_append, length_beBytes]
    omega
  exact Hit.modify body (by omega) (by omega) xor_ff_ne

theorem frames_encode {payload : List UInt8} (hp : Admitted payload) :
    framer.frames (encode payload) = ([payload], []) := by
  have hcarries : Carries [] (encode payload ++ []) [payload] := .command hp (.rest (.inl (by decide)))
  rw [List.append_nil] at hcarries
  exact carries_iff.mp hcarries

theorem size_le : ∀ n : PageNum, n.size ≤ 384 := by decide

section Exchange

variable {link : Link} {s : Session} {d : Device} {payload : List UInt8}

variable (link) in
theorem listen_command (hd : d.buf = []) (hp : Admitted payload) :
    listen link.corruptEvery link.block d (link.reads d (encode payload)) =
      ([corrupt link.corruptEvery (d.polls + 1)
          (encode (dispatch payload d.store (link.block d.polls)).1)],
        ⟨(dispatch payload d.store (link.block d.polls)).2, d.polls + 1, []⟩) := by
  have hwait : unframe d.buf = none := by rw [hd]; rfl
  rw [listen_eq d hwait, hd, List.nil_append, link.reads_flatten, frames_encode hp]
  rfl

/-- **One request**: the simulator executes the command and the session is ready again; the client has the
answer, or sees that it was corrupted. -/
theorem exchange_link (hlink : link.Prompt) (hs : s.Ready) (hd : d.buf = []) (hp : Admitted payload)
    (hbody : Plausible (dispatch payload d.store (link.block d.polls)).1) (ok : List UInt8) :
    Session.exchange link.responder (s, d) payload ok =
      (if link.Corrupts d then .error .crcMismatch
        else (eventResult ok (.frame (dispatch payload d.store (link.block d.polls)).1)).map List.tail,
        ⟨.primary, ⟨s.line.sent ++ [encode payload], [], []⟩⟩,
        ⟨(dispatch payload d.store (link.block d.polls)).2, d.polls + 1, []⟩) := by
  set body := (dispatch payload d.store (link.block d.polls)).1 with hbodydef
  have hlisten := listen_command link hd hp
  have hwire : link.responder.wire d (encode payload) =
      corrupt link.corruptEvery (d.polls + 1) (encode body) := by
    change (listen link.corruptEvery link.block d (link.reads d (encode payload))).1.flatten = _
    rw [hlisten, List.flatten_cons, List.flatten_nil, List.append_nil]
  have hnext : link.responder.next d (encode payload) =
      ⟨(dispatch payload d.store (link.block d.polls)).2, d.polls + 1, []⟩ := by
    change (listen link.corruptEvery link.block d (link.reads d (encode payload))).2 = _
    rw [hlisten]
  have hread : Decoder.IsWire (link.responder.wire d (encode payload)) ∧
      (wireResult ok (link.responder.wire d (encode payload))).map List.tail =
        if link.Corrupts d then .error .crcMismatch else (eventResult ok (.frame body)).map List.tail := by
    rw [hwire]
    by_cases hcorrupt : link.Corrupts d
    · rw [if_pos hcorrupt, show corrupt link.corruptEvery (d.polls + 1) (encode body) = _ from if_pos hcorrupt]
      have hgarbles := (hit_corrupt hbody.1).garbles hbody.2
      rw [wireResult, hgarbles.mismatch]
      exact ⟨hgarbles.isWire hbody, rfl⟩
    · rw [if_neg hcorrupt, show corrupt link.corruptEvery (d.polls + 1) (encode body) = _ from if_neg hcorrupt,
        wireResult, verdict_encode hbody]
      exact ⟨isWire_encode hbody, rfl⟩
  have hrequest := hs.request_wire ⟨payload, ok, link.responder.answer d (encode payload),
    link.responder.wire d (encode payload), link.responder.idle d (encode payload),
    link.responder.polls d (encode payload)⟩ hread.1 (hlink d (encode payload))
  unfold Session.exchange
  dsimp only
  rw [hrequest, hnext, hread.2]

/-- **Every response can be framed**, if the telemetry can. -/
theorem plausible_dispatch (payload : List UInt8) (store : PageStore) {block : List UInt8}
    (hblock : block.length < MAX_PAYLOAD) : Plausible (dispatch payload store block).1 := by
  have hcode : ∀ rc : UInt8, Plausible [rc] := fun rc =>
    ⟨List.cons_ne_nil _ _, show 1 ≤ MAX_PAYLOAD by decide⟩
  have hdata : ∀ {rc : UInt8} {data : List UInt8}, data.length < MAX_PAYLOAD → Plausible (rc :: data) :=
    fun h => ⟨List.cons_ne_nil _ _, h⟩
  have hcrc : ∀ crc : UInt32, (beBytes 4 crc.toNat).length < MAX_PAYLOAD := fun crc => by
    rw [length_beBytes]
    decide
  rw [dispatch]
  cases command (byteAt payload 0) with
  | none => exact hcode _
  | some c =>
    cases c with
    | realtime => exact hdata hblock
    | och =>
      dsimp only
      split_ifs
      · exact hcode _
      · exact hdata (Nat.lt_of_le_of_lt (List.length_take_le' _ _) hblock)
    | page c =>
      dsimp only
      cases valid (byteAt payload 2) with
      | none => exact hcode _
      | some n =>
        have hsize := size_le n
        cases c with
        | read =>
          dsimp only [pageCommand]
          cases h : store.read n (le16 payload 3) (le16 payload 5) with
          | none => exact hcode _
          | some data =>
            obtain ⟨hin, rfl⟩ := slice?_eq_some.mp h
            rw [store.working.size] at hin
            refine hdata ?_
            rw [slice_length (by rwa [store.working.size]), MAX_PAYLOAD]
            omega
        | write =>
          dsimp only [pageCommand]
          split_ifs
          · exact hcode _
          · cases store.write n (le16 payload 3) (payload.drop 7) <;> exact hcode _
        | crc => exact hdata (hcrc _)
        | burn => exact hcode _
    | tableCrc =>
      dsimp only
      split_ifs
      · exact hcode _
      · exact hdata (hcrc _)
    | table =>
      dsimp only
      split_ifs
      · exact hcode _
      · cases store.receive (be16 payload 3) (be16 payload 5) (payload.drop 7) <;> exact hcode _
    | signature | product | test | capabilities =>
      refine ⟨List.cons_ne_nil _ _, ?_⟩
      dsimp only
      decide

/-- One command of a client that has the codes `c.2` for success: what it has of the answer, and the
simulator's store and count. -/
def Link.answer (link : Link) (s : PageStore × ℕ) (c : List UInt8 × List UInt8) :
    Except ProtoError (List UInt8) × (PageStore × ℕ) :=
  let answer := dispatch c.1 s.1 (link.block s.2)
  (if link.corruptEvery ≠ 0 ∧ (s.2 + 1) % link.corruptEvery = 0 then .error .crcMismatch
    else (eventResult c.2 (.frame answer.1)).map List.tail, answer.2, s.2 + 1)

/-- **Nothing is lost, doubled or taken for another**: over a run of requests on one line, the simulator
executes every command once and in order; every response that it corrupts the client reports as a
checksum mismatch, and every other one it has, whatever came before. -/
theorem exchanges_link (link : Link) (hlink : link.Prompt) (hblock : ∀ n, (link.block n).length < MAX_PAYLOAD)
    (cs : List (List UInt8 × List UInt8)) (hcs : ∀ c ∈ cs, Admitted c.1) (s : Session) (hs : s.Ready)
    (d : Device) (hd : d.buf = []) :
    ∃ s' : Session, s'.Ready ∧
      answerAll (fun s c => Session.exchange link.responder s c.1 c.2) (s, d) cs =
        ((answerAll link.answer (d.store, d.polls) cs).1, s',
          ⟨(answerAll link.answer (d.store, d.polls) cs).2.1, (answerAll link.answer (d.store, d.polls) cs).2.2, []⟩) := by
  induction cs generalizing s d with
  | nil =>
    refine ⟨s, hs, ?_⟩
    rw [answerAll, answerAll, ← hd]
  | cons c cs ih =>
    have hexchange := exchange_link hlink hs hd (hcs c List.mem_cons_self)
      (plausible_dispatch c.1 d.store (hblock d.polls)) c.2
    obtain ⟨s', hs', hrest⟩ := ih (fun c' hc' => hcs c' (List.mem_cons_of_mem c hc'))
      ⟨.primary, ⟨s.line.sent ++ [encode c.1], [], []⟩⟩ ⟨rfl, rfl, rfl⟩
      ⟨(dispatch c.1 d.store (link.block d.polls)).2, d.polls + 1, []⟩ rfl
    refine ⟨s', hs', ?_⟩
    rw [answerAll, hexchange, hrest]
    rfl

/-- The signature and the telemetry, of a simulator that corrupts every second response. -/
theorem exchanges_link_direct : ∃ s' : Session, s'.Ready ∧
    answerAll (fun s c => Session.exchange (Link.direct 2 fun _ => [0]).responder s c.1 c.2)
        (Session.fresh, ⟨PageStore.blank, 0, []⟩) [([ord 'Q'], [RC_OK]), ([ord 'A'], [RC_OK])] =
      ((answerAll (Link.direct 2 fun _ => [0]).answer (PageStore.blank, 0)
          [([ord 'Q'], [RC_OK]), ([ord 'A'], [RC_OK])]).1, s',
        ⟨(answerAll (Link.direct 2 fun _ => [0]).answer (PageStore.blank, 0)
            [([ord 'Q'], [RC_OK]), ([ord 'A'], [RC_OK])]).2.1,
          (answerAll (Link.direct 2 fun _ => [0]).answer (PageStore.blank, 0)
            [([ord 'Q'], [RC_OK]), ([ord 'A'], [RC_OK])]).2.2, []⟩) :=
  exchanges_link (Link.direct 2 fun _ => [0]) (Link.prompt_direct 2 _)
    (fun _ => show 1 < MAX_PAYLOAD by decide) _ (by decide) Session.fresh ⟨rfl, rfl, rfl⟩
    ⟨PageStore.blank, 0, []⟩ rfl

end Exchange

/-! ## The page commands -/

/-- The page commands of the definition that the simulator was written for. -/
def fixture : PagesConfig where
  identifiers := ["\\$tsCanId\\x01", "\\$tsCanId\\x02", "\\$tsCanId\\x03", "\\$tsCanId\\x04",
    "\\$tsCanId\\x05", "\\$tsCanId\\x06", "\\$tsCanId\\x07", "\\$tsCanId\\x08", "\\$tsCanId\\x09",
    "\\$tsCanId\\x0A", "\\$tsCanId\\x0B", "\\$tsCanId\\x0C", "\\$tsCanId\\x0D", "\\$tsCanId\\x0E",
    "\\$tsCanId\\x0F"]
  pageRead := List.replicate 15 "p%2i%2o%2c"
  chunkWrite := List.replicate 15 "M%2i%2o%2c%v"
  crcCheck := List.replicate 15 "d%2i"
  burn := List.replicate 15 "b%2i"
  sizes := [128, 288, 288, 128, 288, 128, 240, 384, 192, 192, 288, 192, 128, 288, 256]
  blockingFactor := 251
  canId := 0

def pageDef (n : PageNum) : PageDef where
  identifier := [0, UInt8.ofNat (n.val + 1)]
  read := ⟨[.literal [ord 'p'], .pageId, .offset, .count]⟩
  chunkWrite := ⟨[.literal [ord 'M'], .pageId, .offset, .count, .value]⟩
  crc := ⟨[.literal [ord 'd'], .pageId]⟩
  burn := ⟨[.literal [ord 'b'], .pageId]⟩
  size := UInt32.ofNat n.size

/-- The page command set of the fixture. -/
def speeduino : CommandSet where
  pages := (List.finRange PAGE_SIZES.length).map pageDef
  blockingFactor := BLOCKING_FACTOR
  blockingFactor_pos := by decide
  canId := 0

theorem new_fixture : CommandSet.new fixture = .ok speeduino := by decide +kernel

theorem speeduino_pages (n : PageNum) : speeduino.pages[n.val]? = some (pageDef n) := by
  rw [speeduino, List.getElem?_map, List.getElem?_eq_getElem (by rw [List.length_finRange]; exact n.isLt),
    Option.map_some, List.getElem_finRange]
  rfl

theorem speeduino_page (n : PageNum) : speeduino.page n.val = .ok (pageDef n) := by
  rw [CommandSet.page, speeduino_pages]

/-- A command for a page, as it stands in the payload. -/
def pagePayload (cmd : Char) (n : PageNum) (tail : List UInt8) : List UInt8 :=
  ord cmd :: 0 :: UInt8.ofNat (n.val + 1) :: tail

/-- Offset and count as they stand behind it. -/
def span (offset count : ℕ) : List UInt8 := leBytes 2 offset ++ leBytes 2 count

theorem valid_page : ∀ n : PageNum, valid (UInt8.ofNat (n.val + 1)) = some n := by decide

theorem dispatch_page {cmd : Char} {c : PageCommand} (hc : command (ord cmd) = some (.page c))
    (n : PageNum) (tail : List UInt8) (store : PageStore) (block : List UInt8) :
    dispatch (pagePayload cmd n tail) store block = pageCommand (pagePayload cmd n tail) store n c := by
  rw [dispatch, show byteAt (pagePayload cmd n tail) 0 = ord cmd from rfl, hc]
  dsimp only
  rw [show byteAt (pagePayload cmd n tail) 2 = UInt8.ofNat (n.val + 1) from rfl, valid_page]

theorem le16_offset (cmd : Char) (n : PageNum) (offset : ℕ) (h : offset < 2 ^ 16) (count : ℕ)
    (values : List UInt8) : le16 (pagePayload cmd n (span offset count ++ values)) 3 = offset := by
  rw [show le16 (pagePayload cmd n (span offset count ++ values)) 3 = leNat (leBytes 2 offset) from rfl,
    leNat_leBytes]
  exact Nat.mod_eq_of_lt h

theorem le16_count (cmd : Char) (n : PageNum) (offset count : ℕ) (h : count < 2 ^ 16)
    (values : List UInt8) : le16 (pagePayload cmd n (span offset count ++ values)) 5 = count := by
  rw [show le16 (pagePayload cmd n (span offset count ++ values)) 5 = leNat (leBytes 2 count) from rfl,
    leNat_leBytes]
  exact Nat.mod_eq_of_lt h

/-! ## The page operations -/

namespace Link

variable {link : Link} {s : Session} {d : Device}

/-- What the client has of a request that is answered with `a`. -/
def result {α : Type} (link : Link) (d : Device) (a : α) : Except ProtoError α :=
  if link.Corrupts d then .error .crcMismatch else .ok a

/-- A request that is acknowledged: what the client has, and what the store is. -/
theorem exchange_acknowledged (hlink : link.Prompt) (hs : s.Ready) (hd : d.buf = [])
    {payload : List UInt8} (hp : Admitted payload) {rc : UInt8} {data : List UInt8} {store : PageStore}
    (hdispatch : dispatch payload d.store (link.block d.polls) = (rc :: data, store))
    (ok : List UInt8) (hok : ok.contains rc = true) (hlen : data.length < MAX_PAYLOAD) :
    ∃ s' : Session, s'.Ready ∧
      Session.exchange link.responder (s, d) payload ok =
        (link.result d data, s', ⟨store, d.polls + 1, []⟩) := by
  have hbody : Plausible (dispatch payload d.store (link.block d.polls)).1 := by
    rw [hdispatch]
    exact ⟨List.cons_ne_nil _ _, hlen⟩
  have hexchange := exchange_link hlink hs hd hp hbody ok
  rw [hdispatch, eventResult, List.headD_cons, if_pos hok] at hexchange
  exact ⟨_, ⟨rfl, rfl, rfl⟩, hexchange⟩

theorem exchange_page (hlink : link.Prompt) (hs : s.Ready) (hd : d.buf = []) {cmd : Char}
    {c : PageCommand} (hc : command (ord cmd) = some (.page c)) {n : PageNum} {tail : List UInt8}
    (hp : Admitted (pagePayload cmd n tail)) {rc : UInt8} {data : List UInt8} {store : PageStore}
    (hanswer : pageCommand (pagePayload cmd n tail) d.store n c = (rc :: data, store))
    (ok : List UInt8) (hok : ok.contains rc = true) (hlen : data.length < MAX_PAYLOAD) :
    ∃ s' : Session, s'.Ready ∧
      Session.exchange link.responder (s, d) (pagePayload cmd n tail) ok =
        (link.result d data, s', ⟨store, d.polls + 1, []⟩) :=
  have hdispatch := (dispatch_page hc n tail d.store (link.block d.polls)).trans hanswer
  exchange_acknowledged hlink hs hd hp hdispatch ok hok hlen

theorem ofNat_beBytes (crc : UInt32) : UInt32.ofNat (beNat (beBytes 4 crc.toNat)) = crc := by
  rw [beNat_beBytes, Nat.mod_eq_of_lt (by simpa using crc.toNat_lt), UInt32.ofNat_toNat]

section Templates

variable (n : PageNum) {offset count : ℕ}

theorem leBytes_wire {k : ℕ} (h : k < 2 ^ 16) : leBytes 2 (UInt16.ofNat k).toNat = leBytes 2 k := by
  rw [UInt16.toNat_ofNat_of_lt' h]

theorem build_read (hoffset : offset < 2 ^ 16) (hcount : count < 2 ^ 16) :
    (pageDef n).read.build (speeduino.readArgs (pageDef n) offset count) =
      .ok (pagePayload 'p' n (span offset count)) := by
  change Except.ok ([ord 'p'] ++ ([0, UInt8.ofNat (n.val + 1)] ++ (leBytes 2 (UInt16.ofNat offset).toNat ++
    (leBytes 2 (UInt16.ofNat count).toNat ++ [])))) = _
  rw [leBytes_wire hoffset, leBytes_wire hcount, List.append_nil]
  rfl

theorem build_chunkWrite (hoffset : offset < 2 ^ 16) {values : List UInt8} (hcount : values.length < 2 ^ 16) :
    (pageDef n).chunkWrite.build (speeduino.writeArgs (pageDef n) offset values) =
      .ok (pagePayload 'M' n (span offset values.length ++ values)) := by
  change Except.ok ([ord 'M'] ++ ([0, UInt8.ofNat (n.val + 1)] ++ (leBytes 2 (UInt16.ofNat offset).toNat ++
    (leBytes 2 (UInt16.ofNat values.length).toNat ++ (values ++ []))))) = _
  rw [leBytes_wire hoffset, leBytes_wire hcount, List.append_nil, ← List.append_assoc (leBytes 2 offset)]
  rfl

theorem admitted_write {values : List UInt8} (hpos : 0 < values.length)
    (hmax : values.length ≤ BLOCKING_FACTOR) :
    Admitted (pagePayload 'M' n (span offset count ++ values)) := by
  have hlen : (pagePayload 'M' n (span offset count ++ values)).length = values.length + 7 := by
    simp only [pagePayload, span, List.length_cons, List.length_append, length_leBytes]
    omega
  have hlengths : CMD_LENGTHS (ord 'M') = some (8, 7 + BLOCKING_FACTOR) := by decide
  rw [Admitted, hlen]
  exact ⟨(8, 7 + BLOCKING_FACTOR), hlengths, by omega, by omega⟩

end Templates

variable {n : PageNum}

theorem readChunk_link (hlink : link.Prompt) (hs : s.Ready) (hd : d.buf = []) {offset count : ℕ}
    (h : offset + count ≤ n.size) : ∃ s' : Session, s'.Ready ∧
      speeduino.readChunk link.responder (pageDef n) (s, d) offset count =
        (link.result d (slice (d.store.working.page n) offset count), s', ⟨d.store, d.polls + 1, []⟩) := by
  have hsize := size_le n
  have hadmitted : Admitted (pagePayload 'p' n (span offset count)) := by
    change Header 7 (ord 'p')
    decide
  have hread : d.store.read n offset count = some (slice (d.store.working.page n) offset count) :=
    slice?_eq_some.mpr ⟨by rwa [d.store.working.size], rfl⟩
  have hanswer : pageCommand (pagePayload 'p' n (span offset count)) d.store n .read =
      (RC_OK :: slice (d.store.working.page n) offset count, d.store) := by
    have hoffset := le16_offset 'p' n offset (by omega) count []
    have hcount := le16_count 'p' n offset count (by omega) []
    rw [List.append_nil] at hoffset hcount
    rw [pageCommand, hoffset, hcount, hread]
  have hlen : (slice (d.store.working.page n) offset count).length < MAX_PAYLOAD := by
    rw [slice_length (by rwa [d.store.working.size]), MAX_PAYLOAD]
    omega
  rw [CommandSet.readChunk, build_read n (by omega) (by omega)]
  exact exchange_page hlink hs hd (by decide) hadmitted hanswer [RC_OK] (by decide) hlen

theorem writeChunk_link (hlink : link.Prompt) (hs : s.Ready) (hd : d.buf = []) {offset : ℕ}
    {values : List UInt8} (h : offset + values.length ≤ n.size) (hpos : 0 < values.length)
    (hmax : values.length ≤ BLOCKING_FACTOR) : ∃ (s' : Session) (store : PageStore), s'.Ready ∧
      d.store.write n offset values = some store ∧
      speeduino.writeChunk link.responder n.val offset values (s, d) =
        (link.result d (), s', ⟨store, d.polls + 1, []⟩) := by
  have hsize := size_le n
  obtain ⟨store, hstore⟩ : ∃ store, d.store.write n offset values = some store := ⟨_, dif_pos h⟩
  have hanswer : pageCommand (pagePayload 'M' n (span offset values.length ++ values)) d.store n .write =
      ([RC_OK], store) := by
    have hdrop : (pagePayload 'M' n (span offset values.length ++ values)).drop 7 = values := rfl
    rw [pageCommand, le16_offset 'M' n offset (by omega), le16_count 'M' n offset values.length (by omega),
      hdrop, if_neg (not_not.mpr rfl), hstore]
  obtain ⟨s', hs', hexchange⟩ := exchange_page hlink hs hd (by decide)
    (admitted_write n hpos hmax) hanswer [RC_OK] (by decide) (by decide)
  refine ⟨s', store, hs', hstore, ?_⟩
  have hcmd : (do
      let page ← speeduino.page n.val
      page.chunkWrite.build (speeduino.writeArgs page offset values)) =
        Except.ok (pagePayload 'M' n (span offset values.length ++ values)) := by
    rw [speeduino_page]
    exact build_chunkWrite n (by omega) (by omega)
  rw [CommandSet.writeChunk, hcmd, CommandSet.sendCommand, hexchange, result, result]
  split_ifs <;> rfl

theorem pageCrc_link (hlink : link.Prompt) (hs : s.Ready) (hd : d.buf = []) :
    ∃ s' : Session, s'.Ready ∧ speeduino.pageCrc link.responder n.val (s, d) =
      (link.result d (crc32 (d.store.working.page n)), s', ⟨d.store, d.polls + 1, []⟩) := by
  have hadmitted : Admitted (pagePayload 'd' n []) := by
    change Header 3 (ord 'd')
    decide
  obtain ⟨s', hs', hexchange⟩ := exchange_page hlink hs hd (by decide) hadmitted
    (show pageCommand (pagePayload 'd' n []) d.store n .crc =
      (RC_OK :: beBytes 4 (d.store.crc n).toNat, d.store) from rfl) [RC_OK] (by decide)
    (by rw [length_beBytes]; decide)
  refine ⟨s', hs', ?_⟩
  have hcmd : (do
      let page ← speeduino.page n.val
      page.crc.build (speeduino.pageArgs page)) = Except.ok (pagePayload 'd' n []) := by
    rw [speeduino_page]
    rfl
  rw [CommandSet.pageCrc, hcmd, CommandSet.sendCommand, hexchange, result, result]
  split_ifs
  · rfl
  · exact Prod.ext (congrArg Except.ok (ofNat_beBytes _)) rfl

theorem burn_link (hlink : link.Prompt) (hs : s.Ready) (hd : d.buf = []) :
    ∃ s' : Session, s'.Ready ∧ speeduino.burn link.responder n.val (s, d) =
      (link.result d (), s', ⟨d.store.burn n, d.polls + 1, []⟩) := by
  have hadmitted : Admitted (pagePayload 'b' n []) := by
    change Header 3 (ord 'b')
    decide
  obtain ⟨s', hs', hexchange⟩ := exchange_page hlink hs hd (by decide) hadmitted
    (show pageCommand (pagePayload 'b' n []) d.store n .burn = ([RC_BURN_OK], d.store.burn n) from rfl)
    [RC_OK, RC_BURN_OK] (by decide) (by decide)
  refine ⟨s', hs', ?_⟩
  have hcmd : (do
      let page ← speeduino.page n.val
      page.burn.build (speeduino.pageArgs page)) = Except.ok (pagePayload 'b' n []) := by
    rw [speeduino_page]
    rfl
  rw [CommandSet.burn, hcmd, CommandSet.sendCommand, hexchange, result, result]
  split_ifs <;> rfl

end Link

end RustyTune.FakeEcu
