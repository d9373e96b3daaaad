import RustyTune.Lib.Endian

/-!
# Protocol 3 framing

The envelope around every command and answer on the primary serial: a big-endian 16-bit length, the
payload, and the big-endian CRC32 of the payload.

* `crc32`, `encode`, and the byte-at-a-time `Decoder` with its two states; `encodeWith` and
  `pushWith` are the same over any checksum.
* `Decoder.feed`: what the read loop does with a run of bytes, stopping at the first event.
* **`feed_wire`**: a fresh decoder fed one whole frame reports `verdict` of it on the last byte and
  nothing before (`feed_part`).
-/

namespace RustyTune.EcuProto

/-! ## CRC32 -/

/-- One bit of the reflected division by `0xEDB88320`. -/
def crc32Bit (c : UInt32) : UInt32 :=
  if c &&& 1 = 1 then (c >>> 1) ^^^ 0xEDB88320 else c >>> 1

def crc32Byte (c : UInt32) (b : UInt8) : UInt32 :=
  crc32Bit^[8] (c ^^^ b.toUInt32)

/-- CRC32, IEEE reflected, as zlib computes it. -/
def crc32 (data : List UInt8) : UInt32 := ~~~ data.foldl crc32Byte 0xFFFFFFFF

/-- The vector from live ECU captures. -/
example : crc32 [0x41] = 0xD3D99E8B := by decide

/-! ## Encoding -/

/-- The envelope under the checksum `crc`; the length is cast to 16 bits. -/
def encodeWith (crc : List UInt8 → UInt32) (payload : List UInt8) : List UInt8 :=
  beBytes 2 payload.length ++ payload ++ beBytes 4 (crc payload).toNat

/-- Wrap a command payload in the envelope. -/
def encode (payload : List UInt8) : List UInt8 := encodeWith crc32 payload

/-- Largest plausible payload of an answer: return code and a full page read chunk. -/
def MAX_PAYLOAD : ℕ := 2048

/-- ECU return code for success. -/
def RC_OK : UInt8 := 0x00

/-! ## The decoder -/

/-- What the decoder reports to its caller. -/
inductive Event
  /-- A complete frame with a valid CRC; the first byte is the return code. -/
  | frame (payload : List UInt8)
  /-- A frame of complete length whose CRC does not match. -/
  | crcMismatch
  deriving DecidableEq, Repr

inductive State
  | header
  | payload
  deriving DecidableEq, Repr

structure Decoder where
  state : State
  header : UInt8 × UInt8
  headerLen : ℕ
  payloadLen : ℕ
  buf : List UInt8
  deriving DecidableEq, Repr

namespace Decoder

def new : Decoder where
  state := .header
  header := (0, 0)
  headerLen := 0
  payloadLen := 0
  buf := []

/-- Drop any partial frame. -/
def reset (d : Decoder) : Decoder := { d with state := .header, headerLen := 0, buf := [] }

/-- The event of a complete frame: `payload` and the four trailer bytes as received. -/
def frameEventWith (crc : List UInt8 → UInt32) (payload trailer : List UInt8) : Event :=
  if (crc payload).toNat = beNat trailer then .frame payload else .crcMismatch

/-- The event of a complete frame under the checksum of the line. -/
def frameEvent (payload trailer : List UInt8) : Event := frameEventWith crc32 payload trailer

/-- One byte, under the checksum `crc`. -/
def pushWith (crc : List UInt8 → UInt32) (d : Decoder) (byte : UInt8) : Decoder × Option Event :=
  match d.state with
  | .header =>
    let header := if d.headerLen = 0 then (byte, d.header.2) else (d.header.1, byte)
    if d.headerLen + 1 = 2 then
      let len := beNat [header.1, header.2]
      if 0 < len ∧ len ≤ MAX_PAYLOAD then
        ({ state := .payload, header, headerLen := 2, payloadLen := len, buf := [] }, none)
      else
        -- implausible length: shift one byte, keep hunting
        ({ d with header := (header.2, header.2), headerLen := 1 }, none)
    else
      ({ d with header, headerLen := d.headerLen + 1 }, none)
  | .payload =>
    let buf := d.buf ++ [byte]
    if buf.length < d.payloadLen + 4 then
      ({ d with buf }, none)
    else
      ({ d with state := .header, headerLen := 0, buf },
        some (frameEventWith crc (buf.take d.payloadLen) (buf.drop d.payloadLen)))

def push (d : Decoder) (byte : UInt8) : Decoder × Option Event := d.pushWith crc32 byte

/-- Bytes one after the other up to the first event; the bytes behind it are not looked at. -/
def feed (d : Decoder) : List UInt8 → Decoder × Option Event
  | [] => (d, none)
  | b :: bs =>
    match d.push b with
    | (d', some e) => (d', some e)
    | (d', none) => feed d' bs

/-! ## Feeding one frame -/

theorem feed_append {d d' : Decoder} {bs : List UInt8} (h : d.feed bs = (d', none))
    (cs : List UInt8) : d.feed (bs ++ cs) = d'.feed cs := by
  induction bs generalizing d with
  | nil =>
    obtain rfl : d = d' := by simpa [feed] using h
    rfl
  | cons b bs ih =>
    simp only [feed, List.cons_append] at h ⊢
    split at h
    · simp at h
    · exact ih h

theorem feed_append_event {d d' : Decoder} {bs : List UInt8} {e : Event}
    (h : d.feed bs = (d', some e)) (cs : List UInt8) : d.feed (bs ++ cs) = (d', some e) := by
  induction bs generalizing d with
  | nil => simp [feed] at h
  | cons b bs ih =>
    simp only [feed, List.cons_append] at h ⊢
    split at h
    · exact h
    · exact ih h

/-- The decoder inside a frame of `len` payload bytes, `buf` of them and of the trailer read. -/
def inPayload (h l : UInt8) (len : ℕ) (buf : List UInt8) : Decoder where
  state := .payload
  header := (h, l)
  headerLen := 2
  payloadLen := len
  buf := buf

theorem feed_header {h l : UInt8} (h0 : 0 < beNat [h, l]) (hmax : beNat [h, l] ≤ MAX_PAYLOAD) :
    new.feed [h, l] = (inPayload h l (beNat [h, l]) [], none) := by
  simp [feed, push, pushWith, new, inPayload, h0, hmax]

theorem feed_inPayload (h l : UInt8) (len : ℕ) (buf bs : List UInt8)
    (hlt : buf.length + bs.length < len + 4) :
    (inPayload h l len buf).feed bs = (inPayload h l len (buf ++ bs), none) := by
  induction bs generalizing buf with
  | nil => simp [feed]
  | cons b bs ih =>
    simp only [List.length_cons] at hlt
    have hp : (inPayload h l len buf).push b = (inPayload h l len (buf ++ [b]), none) := by
      simp only [push, pushWith, inPayload, List.length_append, List.length_singleton]
      rw [if_pos (by omega)]
    rw [feed, hp]
    simp only [List.append_assoc, List.singleton_append,
      ih (buf ++ [b]) (by simp only [List.length_append, List.length_singleton]; omega)]

theorem feed_inPayload_last (h l : UInt8) (len : ℕ) (buf : List UInt8) (b : UInt8)
    (hlen : buf.length + 1 = len + 4) :
    ((inPayload h l len buf).feed [b]).2 =
      some (frameEvent ((buf ++ [b]).take len) ((buf ++ [b]).drop len)) := by
  simp only [feed, push, pushWith, inPayload, List.length_append, List.length_singleton]
  rw [if_neg (by omega)]
  rfl

/-! ## Frames on the wire -/

/-- The bytes of one frame on the wire: a plausible length and that many bytes with a trailer. -/
structure IsWire (w : List UInt8) : Prop where
  payload : 0 < beNat (w.take 2) ∧ beNat (w.take 2) ≤ MAX_PAYLOAD
  length : w.length = beNat (w.take 2) + 6

/-- What the decoder makes of a whole frame. -/
def verdict (w : List UInt8) : Event :=
  frameEvent ((w.drop 2).take (beNat (w.take 2))) ((w.drop 2).drop (beNat (w.take 2)))

theorem IsWire.cases {w : List UInt8} (hw : IsWire w) :
    ∃ h l body, w = h :: l :: body ∧ body.length = beNat [h, l] + 4 ∧ 0 < beNat [h, l] ∧
      beNat [h, l] ≤ MAX_PAYLOAD := by
  obtain ⟨⟨h0, hmax⟩, hlen⟩ := hw
  match w, h0, hmax, hlen with
  | h :: l :: body, h0, hmax, hlen =>
    simp only [List.take_succ_cons, List.take_zero, List.length_cons] at h0 hmax hlen
    exact ⟨h, l, body, rfl, by omega, h0, hmax⟩
  | [], _, _, hlen => simp at hlen
  | [_], _, _, hlen => simp at hlen

/-- **Part of a frame reports nothing.** -/
theorem feed_part {w u : List UInt8} (hw : IsWire w) (hu : u <+: w) (hlt : u.length < w.length) :
    (new.feed u).2 = none := by
  obtain ⟨h, l, body, rfl, hb, h0, hmax⟩ := hw.cases
  obtain ⟨v, hv⟩ := hu
  match u, hv, hlt with
  | [], _, _ => rfl
  | [a], hv, _ => simp [feed, push, pushWith, new]
  | a :: b :: u, hv, hlt =>
    obtain ⟨rfl, rfl, rfl⟩ : a = h ∧ b = l ∧ u ++ v = body := by simpa using hv
    simp only [List.length_cons, List.length_append] at hlt hb
    have := feed_append (feed_header h0 hmax) u
    rw [List.cons_append, List.singleton_append] at this
    rw [this, feed_inPayload _ _ _ _ _ (by simp only [List.length_nil]; omega)]

/-- **A whole frame reports its verdict.** -/
theorem feed_wire {w : List UInt8} (hw : IsWire w) : (new.feed w).2 = some (verdict w) := by
  obtain ⟨h, l, body, rfl, hb, h0, hmax⟩ := hw.cases
  have hne : body ≠ [] := by rintro rfl; simp at hb
  obtain ⟨init, b, rfl⟩ : ∃ init b, body = init ++ [b] :=
    ⟨body.dropLast, body.getLast hne, (List.dropLast_concat_getLast hne).symm⟩
  simp only [List.length_append, List.length_singleton] at hb
  have h1 := feed_append (feed_header h0 hmax) (init ++ [b])
  have h2 := feed_append (feed_inPayload h l (beNat [h, l]) [] init
    (by simp only [List.length_nil]; omega)) [b]
  rw [List.cons_append, List.singleton_append] at h1
  rw [h1, h2, List.nil_append, feed_inPayload_last _ _ _ _ _ (by omega)]
  rfl

end Decoder

/-! ## Encoded payloads -/

theorem take_two_encode (p : List UInt8) : (encode p).take 2 = beBytes 2 p.length := by
  rw [encode, encodeWith, List.append_assoc, List.take_append_of_le_length (by simp)]
  exact List.take_of_length_le (by simp)

theorem drop_two_encode (p : List UInt8) :
    (encode p).drop 2 = p ++ beBytes 4 (crc32 p).toNat := by
  rw [encode, encodeWith, List.append_assoc, List.drop_append_of_le_length (by simp)]
  simp [beBytes_two]

/-- A payload the decoder takes for plausible. -/
def Plausible (p : List UInt8) : Prop := p ≠ [] ∧ p.length ≤ MAX_PAYLOAD

theorem beNat_take_encode {p : List UInt8} (hp : Plausible p) :
    beNat ((encode p).take 2) = p.length := by
  rw [take_two_encode, beNat_beBytes]
  exact Nat.mod_eq_of_lt (by have := hp.2; unfold MAX_PAYLOAD at this; omega)

theorem isWire_encode {p : List UInt8} (hp : Plausible p) : Decoder.IsWire (encode p) := by
  have h0 : 0 < p.length := List.length_pos_iff.mpr hp.1
  refine ⟨?_, ?_⟩ <;> rw [beNat_take_encode hp]
  · exact ⟨h0, hp.2⟩
  · simp only [encode, encodeWith, List.length_append, length_beBytes]
    omega

theorem verdict_encode {p : List UInt8} (hp : Plausible p) :
    Decoder.verdict (encode p) = .frame p := by
  rw [Decoder.verdict, beNat_take_encode hp, drop_two_encode, List.take_left', List.drop_left']
  · rw [Decoder.frameEvent, Decoder.frameEventWith, beNat_beBytes, if_pos]
    exact (Nat.mod_eq_of_lt (by simpa using (crc32 p).toNat_lt)).symm
  all_goals rfl

end RustyTune.EcuProto
