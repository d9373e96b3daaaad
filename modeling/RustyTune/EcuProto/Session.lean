import RustyTune.EcuProto.Envelope
import RustyTune.Lib.Run

/-!
# Request and response on the primary serial

`Session.request` writes one enveloped command and reads until the first event of a fresh decoder or
the deadline. The serial line is a FIFO: the ECU's answers stand on it in the order of the requests,
and how far they have come when the client polls is the environment's choice.

* `Line`: bytes arrived and unread, bytes still under way. `readLoop`: the read loop, one entry of
  `polls` for every poll before the deadline.
* `Call`: one request with the ECU's answer to it and the delays; `Owned`: an `Ok` result is the
  answer to this very call; `Undisturbed`: no byte of an earlier answer arrives during the call.
* `request_oldest`: whatever `request` reads belongs to the oldest answer on the line.
* **`owned_of_undisturbed`**: in a run of undisturbed calls every `Ok` result is the call's own
  answer. **`lateAnswers_not_owned`**: after a timeout the late answer is taken for the next one.
-/

namespace RustyTune.EcuProto

/-! ## Errors and the line -/

/-- How the ECU is wired up. -/
inductive Mode
  | primary
  | secondary
  deriving DecidableEq, Repr

inductive ProtoError
  | io (text : String)
  | template (text : String)
  | crcMismatch
  | ecuError (rc : UInt8)
  | timeout
  | shortResponse (expected got : ℕ)
  | unsupported (text : String)
  deriving DecidableEq, Repr

/-- The client's end of the serial line. -/
structure Line where
  /-- Commands written so far. -/
  sent : List (List UInt8)
  /-- Bytes that have arrived and are not read yet. -/
  buffer : List UInt8
  /-- Bytes of the ECU's answers that have not arrived yet. -/
  inFlight : List UInt8
  deriving DecidableEq, Repr

namespace Line

/-- A line with nothing on it. -/
def empty : Line := ⟨[], [], []⟩

/-- Everything the client has not read, in the order it will read it. -/
def pending (l : Line) : List UInt8 := l.buffer ++ l.inFlight

/-- `k` more bytes arrive. -/
def arrive (l : Line) (k : ℕ) : Line :=
  { l with buffer := l.buffer ++ l.inFlight.take k, inFlight := l.inFlight.drop k }

/-- `write_all`: the command goes out and the ECU puts its answer on the line. -/
def write (l : Line) (cmd answer : List UInt8) : Line :=
  { l with sent := l.sent ++ [cmd], inFlight := l.inFlight ++ answer }

/-- `read` into a 256-byte buffer, when something has arrived. -/
def afterRead (l : Line) : Line := { l with buffer := l.buffer.drop 256 }

/-- `flush_input`: drop what has arrived. -/
def flushInput (l : Line) : Line := { l with buffer := [] }

@[simp] theorem pending_arrive (l : Line) (k : ℕ) : (l.arrive k).pending = l.pending := by
  simp [pending, arrive]

@[simp] theorem pending_write (l : Line) (cmd answer : List UInt8) :
    (l.write cmd answer).pending = l.pending ++ answer := by
  simp [pending, write]

theorem pending_afterRead (l : Line) : l.buffer.take 256 ++ l.afterRead.pending = l.pending := by
  simp only [pending, afterRead, ← List.append_assoc, List.take_append_drop]

end Line

/-! ## One request -/

/-- What an event means to a request that counts the return codes `ok` as success. -/
def eventResult (ok : List UInt8) : Event → Except ProtoError (List UInt8)
  | .frame payload =>
    if ok.contains (payload.headD 0) then .ok payload else .error (.ecuError (payload.headD 0))
  | .crcMismatch => .error .crcMismatch

/-- `read_enveloped`: one entry of `polls` for every poll of `read_some` before the deadline, the
bytes that arrive during it. A poll that finds nothing is repeated. -/
def readLoop (ok : List UInt8) : Decoder → Line → List ℕ → Except ProtoError (List UInt8) × Line
  | _, line, [] => (.error .timeout, line)
  | dec, line, k :: polls =>
    let line := line.arrive k
    if line.buffer = [] then
      readLoop ok dec line polls
    else
      match dec.feed (line.buffer.take 256) with
      -- the rest of the chunk goes with the local buffer
      | (_, some (.frame payload)) => (eventResult ok (.frame payload), line.afterRead)
      -- let the line settle
      | (_, some .crcMismatch) => (.error .crcMismatch, line.afterRead.flushInput)
      | (dec, none) => readLoop ok dec line.afterRead polls

structure Session where
  mode : Mode
  line : Line
  deriving DecidableEq, Repr

/-- One call of `request`, with what the ECU and the line do meanwhile. -/
structure Call where
  payload : List UInt8
  /-- Return codes counted as success. -/
  ok : List UInt8
  /-- The ECU's answer to this request, return code first. -/
  answer : List UInt8
  /-- The bytes it takes on the line. -/
  wire : List UInt8
  /-- Bytes that arrive before the command is written. -/
  idle : ℕ
  /-- Bytes that arrive during each poll before the deadline. -/
  polls : List ℕ
  deriving DecidableEq, Repr

namespace Session

/-- `request`: the result, without the return code, and the session afterwards. -/
def request (s : Session) (c : Call) : Except ProtoError (List UInt8) × Session :=
  if s.mode ≠ .primary then
    (.error (.unsupported
      "enveloped commands need the primary serial (SER3 is telemetry-only)"), s)
  else
    let line := (s.line.arrive c.idle).write (encode c.payload) c.wire
    match readLoop c.ok Decoder.new line c.polls with
    | (.ok full, line) => (.ok full.tail, { s with line })
    | (.error e, line) => (.error e, { s with line })

def after (s : Session) (c : Call) : Session := (s.request c).2

/-- A primary session on a line with nothing on it. -/
def fresh : Session := ⟨.primary, .empty⟩

end Session

/-! ## What the read loop reads -/

open Decoder

/-- The result of a request whose decoder sees the frame `w` first. -/
def wireResult (ok w : List UInt8) : Except ProtoError (List UInt8) := eventResult ok (verdict w)

/-- **The read loop reads the frame at the front of the line, or times out.** `u` is what earlier
polls have read of it. -/
theorem readLoop_front {w rest : List UInt8} (hw : IsWire w) (ok : List UInt8) :
    ∀ (polls : List ℕ) (u : List UInt8) (line : Line), u ++ line.pending = w ++ rest →
      u.length < w.length →
      (readLoop ok (new.feed u).1 line polls).1 = .error .timeout ∨
        (readLoop ok (new.feed u).1 line polls).1 = wireResult ok w
  | [], _, _, _, _ => Or.inl rfl
  | k :: polls, u, line, hu, hlt => by
    have hpre : u <+: w := by
      refine List.prefix_of_prefix_length_le ⟨line.pending, hu⟩ ⟨rest, rfl⟩ (by omega)
    have hnone := feed_part hw hpre hlt
    have hpend : u ++ (line.arrive k).pending = w ++ rest := by rw [Line.pending_arrive, hu]
    unfold readLoop
    by_cases hb : (line.arrive k).buffer = []
    · simp only [hb, if_true]
      exact readLoop_front hw ok polls u _ hpend hlt
    · simp only [hb, if_false]
      set line' := line.arrive k
      set chunk := line'.buffer.take 256 with hchunk
      have hfeed : (new.feed u).1.feed chunk = new.feed (u ++ chunk) :=
        (feed_append (Prod.ext rfl hnone) chunk).symm
      have hsplit : (u ++ chunk) ++ line'.afterRead.pending = w ++ rest := by
        rw [List.append_assoc, hchunk, Line.pending_afterRead, hpend]
      by_cases hlt' : (u ++ chunk).length < w.length
      · -- still inside the frame
        have hpre' : u ++ chunk <+: w :=
          List.prefix_of_prefix_length_le ⟨_, hsplit⟩ ⟨rest, rfl⟩ (by omega)
        have hpart := feed_part hw hpre' hlt'
        rw [hfeed, show new.feed (u ++ chunk) = ((new.feed (u ++ chunk)).1, none) from
          Prod.ext rfl hpart]
        exact readLoop_front hw ok polls (u ++ chunk) _ hsplit hlt'
      · -- the frame ends in this chunk
        obtain ⟨v, hv⟩ : w <+: u ++ chunk :=
          List.prefix_of_prefix_length_le ⟨rest, rfl⟩ ⟨_, hsplit⟩ (by omega)
        have hev : new.feed (u ++ chunk) = ((new.feed w).1, some (verdict w)) := by
          rw [← hv]
          exact feed_append_event (Prod.ext rfl (feed_wire hw)) v
        rw [hfeed, hev, wireResult]
        cases hver : verdict w with
        | frame payload => exact Or.inr rfl
        | crcMismatch => exact Or.inr rfl

theorem readLoop_silent (ok : List UInt8) (dec : Decoder) :
    ∀ (polls : List ℕ) (line : Line), line.buffer = [] → (∀ k ∈ polls, k = 0) →
      (readLoop ok dec line polls).1 = .error .timeout
  | [], _, _, _ => rfl
  | k :: polls, line, hb, hk => by
    obtain rfl : k = 0 := hk k List.mem_cons_self
    have hb' : (line.arrive 0).buffer = [] := by simp [Line.arrive, hb]
    rw [readLoop, if_pos hb']
    exact readLoop_silent ok dec polls _ hb' fun k h => hk k (List.mem_cons_of_mem _ h)

namespace Session

theorem request_eq_ok {s : Session} {c : Call} {data : List UInt8}
    (h : (s.request c).1 = .ok data) :
    ∃ full, (readLoop c.ok new ((s.line.arrive c.idle).write (encode c.payload) c.wire)
      c.polls).1 = .ok full ∧ data = full.tail := by
  unfold request at h
  split_ifs at h
  obtain ⟨res, line, heq⟩ : ∃ res line, readLoop c.ok new
    ((s.line.arrive c.idle).write (encode c.payload) c.wire) c.polls = (res, line) := ⟨_, _, rfl⟩
  simp only [heq] at h ⊢
  cases res with
  | ok full => exact ⟨full, rfl, (Except.ok.inj h).symm⟩
  | error e => cases h

/-- **A request reads the oldest answer on the line**: if the frame `w` stands at its front, an `Ok`
result is the data of `w`. -/
theorem request_oldest {s : Session} {c : Call} {w rest data : List UInt8} (hw : IsWire w)
    (hline : s.line.pending ++ c.wire = w ++ rest) (h : (s.request c).1 = .ok data) :
    ∃ payload, verdict w = .frame payload ∧ data = payload.tail := by
  obtain ⟨full, hfull, rfl⟩ := request_eq_ok h
  have hpos : ([] : List UInt8).length < w.length := by rw [hw.length]; simp
  have := readLoop_front hw c.ok c.polls [] ((s.line.arrive c.idle).write (encode c.payload) c.wire)
    (show _ = w ++ rest by simp [hline]) hpos
  rw [show (new.feed []).1 = new from rfl, hfull] at this
  rcases this with hto | hres
  · simp at hto
  · rw [wireResult] at hres
    cases hver : verdict w with
    | crcMismatch => rw [hver] at hres; simp [eventResult] at hres
    | frame payload =>
      rw [hver, eventResult] at hres
      split_ifs at hres
      exact ⟨payload, rfl, by rw [Except.ok.inj hres]⟩

end Session

/-! ## Runs -/

/-- The answer `answer`, garbled on the line in a way its CRC shows: the header is intact, the rest
does not check. -/
structure Garbles (answer w : List UInt8) : Prop where
  header : w.take 2 = (encode answer).take 2
  length : w.length = (encode answer).length
  mismatch : verdict w = .crcMismatch

namespace Call

/-- The ECU answers the request, with a return code at least; on the line the answer may be
garbled. -/
def Faithful (c : Call) : Prop := c.answer ≠ [] ∧ (c.wire = encode c.answer ∨ Garbles c.answer c.wire)

/-- The data of the answer, behind the return code. -/
def data (c : Call) : List UInt8 := c.answer.tail

end Call

/-- An `Ok` result of the call is the ECU's answer to this very call. -/
def Owned (s : Session) (c : Call) : Prop := ∀ data, (s.request c).1 = .ok data → data = c.data

/-- The answer fits the decoder, and no byte of an earlier answer reaches the call: either none is
left on the line when it starts, or nothing at all arrives before its deadline. -/
def Undisturbed (s : Session) (c : Call) : Prop :=
  c.answer.length ≤ MAX_PAYLOAD ∧
    (s.line.pending = [] ∨ s.line.buffer = [] ∧ c.idle = 0 ∧ ∀ k ∈ c.polls, k = 0)

theorem Garbles.isWire {answer w : List UInt8} (hp : Plausible answer) (h : Garbles answer w) :
    IsWire w := by
  have hw := isWire_encode hp
  exact ⟨by rw [h.header]; exact hw.payload, by rw [h.header, h.length]; exact hw.length⟩

/-- **One undisturbed call gets its own answer.** -/
theorem Undisturbed.owned {s : Session} {c : Call} (hf : c.Faithful) (hu : Undisturbed s c) :
    Owned s c := by
  intro data hdata
  obtain ⟨hmax, hclean | ⟨hbuf, hidle, hpolls⟩⟩ := hu
  · have hp : Plausible c.answer := ⟨hf.1, hmax⟩
    have hline : s.line.pending ++ c.wire = c.wire ++ [] := by simp [hclean]
    rcases hf.2 with hwire | hgar
    · obtain ⟨payload, hver, rfl⟩ :=
        Session.request_oldest (hwire ▸ isWire_encode hp) hline hdata
      rw [hwire, verdict_encode hp] at hver
      rw [Event.frame.inj hver.symm]
      rfl
    · obtain ⟨payload, hver, -⟩ := Session.request_oldest (hgar.isWire hp) hline hdata
      rw [hgar.mismatch] at hver
      exact Event.noConfusion hver
  · obtain ⟨full, hfull, -⟩ := Session.request_eq_ok hdata
    have hsil := readLoop_silent c.ok new c.polls
      ((s.line.arrive c.idle).write (encode c.payload) c.wire)
      (by simp [Line.write, Line.arrive, hbuf, hidle]) hpolls
    rw [hsil] at hfull
    simp at hfull

/-- **In a run of undisturbed calls every `Ok` result is the answer to its own call.** -/
theorem owned_of_undisturbed (s : Session) (calls : List Call) (hf : ∀ c ∈ calls, c.Faithful)
    (h : Along Session.after Undisturbed s calls) : Along Session.after Owned s calls := by
  induction calls generalizing s with
  | nil => trivial
  | cons c calls ih =>
    exact ⟨h.1.owned (hf c List.mem_cons_self),
      ih _ (fun c' hc' => hf c' (List.mem_cons_of_mem _ hc')) h.2⟩

/-- Two requests, the first answered within its deadline and the second after it. -/
def promptCalls : List Call :=
  [⟨[0x64], [RC_OK], [RC_OK, 1], encode [RC_OK, 1], 0, [0, 8]⟩,
    ⟨[0x70], [RC_OK], [RC_OK, 2], encode [RC_OK, 2], 0, [0, 0]⟩]

theorem promptCalls_owned : Along Session.after Undisturbed .fresh promptCalls ∧
    Along Session.after Owned .fresh promptCalls := by
  have hu : Along Session.after Undisturbed .fresh promptCalls :=
    ⟨⟨by decide, Or.inl rfl⟩, ⟨by decide, Or.inl (by decide +kernel)⟩, trivial⟩
  exact ⟨hu, owned_of_undisturbed .fresh promptCalls (by
    simp only [promptCalls, List.mem_cons, List.not_mem_nil, or_false]
    rintro c (rfl | rfl) <;> exact ⟨List.cons_ne_nil _ _, Or.inl rfl⟩) hu⟩

/-- Two requests; the answer to the first arrives after its deadline. -/
def lateAnswers : List Call :=
  [⟨[0x64], [RC_OK], [RC_OK, 1], encode [RC_OK, 1], 0, [0, 0]⟩,
    ⟨[0x70], [RC_OK], [RC_OK, 2], encode [RC_OK, 2], 0, [16]⟩]

/-- The second request of `lateAnswers` returns the answer to the first. -/
theorem lateAnswers_not_owned : ¬ ∀ calls : List Call, (∀ c ∈ calls, c.Faithful) →
    Along Session.after Owned .fresh calls := by
  intro h
  obtain ⟨-, howned, -⟩ := h lateAnswers (by
    simp only [lateAnswers, List.mem_cons, List.not_mem_nil, or_false]
    rintro c (rfl | rfl) <;> exact ⟨List.cons_ne_nil _ _, Or.inl rfl⟩)
  exact absurd (howned [1] (by decide +kernel)) (by decide)

/-- **A late answer is taken for the next one**: with the whole answer `a` to an earlier request
first on the line, an `Ok` result is the data of `a`, whatever the call asked for. -/
theorem request_late {s : Session} {c : Call} {a rest data : List UInt8} (ha : Plausible a)
    (hline : s.line.pending = encode a ++ rest) (h : (s.request c).1 = .ok data) :
    data = a.tail := by
  obtain ⟨payload, hver, rfl⟩ := Session.request_oldest (isWire_encode ha)
    (show _ = encode a ++ (rest ++ c.wire) by rw [hline, List.append_assoc]) h
  rw [verdict_encode ha] at hver
  rw [Event.frame.inj hver.symm]

end RustyTune.EcuProto
