import RustyTune.EcuProto.Envelope
import Mathlib.Data.List.Chain

/-!
# The decoder as a parser of the whole stream

`Decoder` is a byte-at-a-time machine with a two-byte header window. Here it is compared with a
parser that has the whole stream before it.

* `parse crc`: the declarative parse, under any checksum `crc`. `events crc`: the events of a
  decoder fed byte by byte.
* `Decoder.unread`: the bytes a decoder holds of the frame it is in, `Decoder.WF`: what holds of
  every decoder that has been fed. **`events_eq_parse`**: a decoder reports what parsing `unread`
  and the bytes to come yields.
* `parse_encode`, `parse_noise`: one encoded payload, and noise without a plausible length.
* **`decoder_parses`**: the decoder is the parser, encoded payloads come out as their frames, also
  behind noise, and no frame is empty.
-/

namespace RustyTune.EcuProto

variable (crc : List UInt8 → UInt32)

/-- A length header the decoder takes for a frame. -/
def PlausibleLength (h l : UInt8) : Prop := 0 < beNat [h, l] ∧ beNat [h, l] ≤ MAX_PAYLOAD

instance (h l : UInt8) : Decidable (PlausibleLength h l) :=
  inferInstanceAs (Decidable (_ ∧ _))

/-- The declarative parse: a length at the current position, one byte skipped where it is
implausible, else that many bytes and the trailer; an incomplete tail has no event. -/
def parse : List UInt8 → List Event
  | h :: l :: rest =>
    if PlausibleLength h l then
      if rest.length < beNat [h, l] + 4 then
        []
      else
        Decoder.frameEventWith crc (rest.take (beNat [h, l])) ((rest.drop (beNat [h, l])).take 4) ::
          parse (rest.drop (beNat [h, l] + 4))
    else
      parse (l :: rest)
  | _ => []
termination_by bs => bs.length
decreasing_by all_goals simp only [List.length_drop, List.length_cons]; omega

/-- The events of a decoder fed byte by byte. -/
def events (d : Decoder) : List UInt8 → List Event
  | [] => []
  | b :: bs => (d.pushWith crc b).2.toList ++ events (d.pushWith crc b).1 bs

/-- What a fresh decoder makes of a stream. -/
def decode (bs : List UInt8) : List Event := events crc Decoder.new bs

variable {crc}

/-! ## One event of the parse -/

@[simp] theorem parse_nil : parse crc [] = [] := by rw [parse]; simp

@[simp] theorem parse_singleton (b : UInt8) : parse crc [b] = [] := by rw [parse]; simp

theorem parse_skip {h l : UInt8} (hpl : ¬ PlausibleLength h l) (rest : List UInt8) :
    parse crc (h :: l :: rest) = parse crc (l :: rest) := by
  rw [parse, if_neg hpl]

theorem parse_incomplete {h l : UInt8} {rest : List UInt8} (hpl : PlausibleLength h l)
    (hlt : rest.length < beNat [h, l] + 4) : parse crc (h :: l :: rest) = [] := by
  rw [parse, if_pos hpl, if_pos hlt]

variable (crc) in
theorem parse_frame {h l : UInt8} {payload trailer : List UInt8} (hpl : PlausibleLength h l)
    (hp : payload.length = beNat [h, l]) (ht : trailer.length = 4) (rest : List UInt8) :
    parse crc (h :: l :: (payload ++ trailer ++ rest)) =
      Decoder.frameEventWith crc payload trailer :: parse crc rest := by
  have hdrop : (payload ++ trailer ++ rest).drop (beNat [h, l]) = trailer ++ rest := by
    rw [← hp, List.append_assoc, List.drop_left]
  have htake : (payload ++ trailer ++ rest).take (beNat [h, l]) = payload := by
    rw [← hp, List.append_assoc, List.take_left]
  rw [parse, if_pos hpl, if_neg (by simp only [List.length_append]; omega), htake, hdrop,
    ← List.drop_drop, hdrop, ← ht, List.take_left, List.drop_left]

/-! ## The decoder and the parse -/

namespace Decoder

/-- The bytes the decoder holds of the frame it is in. -/
def unread (d : Decoder) : List UInt8 :=
  match d.state with
  | .header => [d.header.1, d.header.2].take d.headerLen
  | .payload => d.header.1 :: d.header.2 :: d.buf

/-- What holds of a decoder between two bytes. -/
def WF (d : Decoder) : Prop :=
  match d.state with
  | .header => d.headerLen ≤ 1
  | .payload => PlausibleLength d.header.1 d.header.2 ∧ d.payloadLen = beNat [d.header.1, d.header.2] ∧
      d.buf.length < d.payloadLen + 4

theorem new_wf : new.WF := Nat.zero_le 1

variable (crc) in
/-- **One byte**: the decoder stays well formed, and what it reports with what it holds then is what
the parse makes of the bytes it held and this one. -/
theorem push_parse {d : Decoder} (hd : d.WF) (b : UInt8) (bs : List UInt8) :
    (d.pushWith crc b).1.WF ∧
      (d.pushWith crc b).2.toList ++ parse crc ((d.pushWith crc b).1.unread ++ bs) =
        parse crc (d.unread ++ b :: bs) := by
  obtain ⟨state, ⟨h, l⟩, headerLen, payloadLen, buf⟩ := d
  cases state with
  | header =>
    simp only [WF] at hd
    rcases Nat.le_one_iff_eq_zero_or_eq_one.mp hd with rfl | rfl
    · simp [pushWith, WF, unread]
    · by_cases hpl : PlausibleLength h b
      · have hpl' : 0 < beNat [h, b] ∧ beNat [h, b] ≤ MAX_PAYLOAD := hpl
        simp [pushWith, WF, unread, hpl, hpl']
      · -- the window moves on by one byte
        have hpl' : ¬ (0 < beNat [h, b] ∧ beNat [h, b] ≤ MAX_PAYLOAD) := hpl
        simp [pushWith, WF, unread, hpl', parse_skip hpl]
  | payload =>
    simp only [WF] at hd
    obtain ⟨hpl, rfl, hlt⟩ := hd
    by_cases hend : (buf ++ [b]).length < beNat [h, l] + 4
    · have hend' : buf.length + 1 < beNat [h, l] + 4 := by simpa using hend
      simp [pushWith, WF, unread, hpl, hend']
    · -- the last byte of the frame
      have hlen : (buf ++ [b]).length = beNat [h, l] + 4 := by
        simp only [List.length_append, List.length_singleton] at hend ⊢
        omega
      have hframe := parse_frame crc hpl
        (show ((buf ++ [b]).take (beNat [h, l])).length = beNat [h, l] by
          rw [List.length_take, hlen]; omega)
        (show ((buf ++ [b]).drop (beNat [h, l])).length = 4 by
          rw [List.length_drop, hlen]; omega) bs
      rw [List.take_append_drop, List.append_assoc, List.singleton_append] at hframe
      refine ⟨?_, ?_⟩
      · simp only [pushWith, if_neg hend]
        exact Nat.zero_le 1
      · simp only [pushWith, if_neg hend, unread, List.take_zero, List.nil_append,
          List.cons_append, hframe, Option.toList_some]

end Decoder

/-- **A decoder reports what the parse makes of the bytes it holds and those to come.** -/
theorem events_eq_parse {d : Decoder} (hd : d.WF) (bs : List UInt8) :
    events crc d bs = parse crc (d.unread ++ bs) := by
  induction bs generalizing d with
  | nil =>
    obtain ⟨state, ⟨h, l⟩, headerLen, payloadLen, buf⟩ := d
    cases state with
    | header =>
      simp only [Decoder.WF] at hd
      rcases Nat.le_one_iff_eq_zero_or_eq_one.mp hd with rfl | rfl <;>
        simp [events, Decoder.unread]
    | payload =>
      simp only [Decoder.WF] at hd
      obtain ⟨hpl, rfl, hlt⟩ := hd
      rw [events, Decoder.unread, List.append_nil, parse_incomplete hpl hlt]
  | cons b bs ih =>
    obtain ⟨hwf, hstep⟩ := Decoder.push_parse crc hd b bs
    rw [events, ih hwf, hstep]

/-! ## Encoded payloads and noise -/

theorem plausibleLength_of {p : List UInt8} (hp : Plausible p) :
    beNat (beBytes 2 p.length) = p.length := by
  rw [beNat_beBytes]
  exact Nat.mod_eq_of_lt (by have := hp.2; unfold MAX_PAYLOAD at this; omega)

/-- One encoded payload at the front of the stream is its frame. -/
theorem parse_encode {p : List UInt8} (hp : Plausible p) (rest : List UInt8) :
    parse crc (encodeWith crc p ++ rest) = .frame p :: parse crc rest := by
  have hlen := plausibleLength_of hp
  have hpos : 0 < p.length := List.length_pos_iff.mpr hp.1
  rw [beBytes_two] at hlen
  have hpl : PlausibleLength (UInt8.ofNat (p.length / 256)) (UInt8.ofNat p.length) := by
    rw [PlausibleLength, hlen]
    exact ⟨hpos, hp.2⟩
  have hcrc : (crc p).toNat = beNat (beBytes 4 (crc p).toNat) := by
    rw [beNat_beBytes]
    exact (Nat.mod_eq_of_lt (by simpa using (crc p).toNat_lt)).symm
  rw [encodeWith, beBytes_two]
  simp only [List.cons_append, List.nil_append]
  rw [parse_frame crc hpl hlen.symm (length_beBytes 4 _), Decoder.frameEventWith, if_pos hcrc]

theorem parse_encodes (payloads : List (List UInt8)) (hp : ∀ p ∈ payloads, Plausible p) :
    parse crc (payloads.map (encodeWith crc)).flatten = payloads.map .frame := by
  induction payloads with
  | nil => simp
  | cons p payloads ih =>
    rw [List.map_cons, List.flatten_cons, parse_encode (hp p List.mem_cons_self),
      ih fun q hq => hp q (List.mem_cons_of_mem p hq), List.map_cons]

/-- No two adjacent bytes of `noise` make a plausible length, nor does its last byte with the first
of the stream behind it. -/
def Noise (noise stream : List UInt8) : Prop :=
  List.IsChain (fun h l => ¬ PlausibleLength h l) (noise ++ stream.take 1)

instance (noise stream : List UInt8) : Decidable (Noise noise stream) :=
  inferInstanceAs (Decidable (List.IsChain _ _))

/-- Noise is skipped byte by byte. -/
theorem parse_noise {noise stream : List UInt8} (hn : Noise noise stream) :
    parse crc (noise ++ stream) = parse crc stream := by
  induction noise with
  | nil => rfl
  | cons h noise ih =>
    rw [Noise, List.cons_append] at hn
    have hrest : parse crc (noise ++ stream) = parse crc stream := ih hn.tail
    rw [List.cons_append]
    cases noise with
    | nil =>
      cases stream with
      | nil => simp
      | cons l stream =>
        rw [List.nil_append, List.take_succ_cons, List.isChain_cons_cons] at hn
        rw [List.nil_append, parse_skip hn.1]
    | cons l noise =>
      rw [List.cons_append, List.isChain_cons_cons] at hn
      rw [List.cons_append, parse_skip hn.1]
      exact hrest

theorem ne_nil_of_frame_mem_parse {p : List UInt8} (bs : List UInt8)
    (hmem : Event.frame p ∈ parse crc bs) : p ≠ [] := by
  induction bs using parse.induct with
  | case1 h l rest hpl hlt =>
    rw [parse_incomplete hpl hlt] at hmem
    exact absurd hmem List.not_mem_nil
  | case2 h l rest hpl hlt ih =>
    rw [parse, if_pos hpl, if_neg hlt, List.mem_cons] at hmem
    rcases hmem with heq | hmem
    · rw [Decoder.frameEventWith] at heq
      split_ifs at heq
      rw [Event.frame.inj heq, ← List.length_pos_iff, List.length_take]
      have := hpl.1
      omega
    · exact ih hmem
  | case3 h l rest hpl ih =>
    rw [parse_skip hpl] at hmem
    exact ih hmem
  | case4 bs hbs =>
    rcases bs with _ | ⟨h, _ | ⟨l, rest⟩⟩
    · simp at hmem
    · simp at hmem
    · exact absurd rfl (hbs h l rest)

/-! ## The decoder -/

/-- **The decoder parses.** Under any checksum its events on a stream are those of the declarative
parse; encoded payloads come out as exactly their frames in order, also behind noise; and no frame
is empty. -/
theorem decoder_parses (crc : List UInt8 → UInt32) :
    (∀ bs, decode crc bs = parse crc bs) ∧
    (∀ (noise : List UInt8) (payloads : List (List UInt8)), (∀ p ∈ payloads, Plausible p) →
      Noise noise (payloads.map (encodeWith crc)).flatten →
      decode crc (noise ++ (payloads.map (encodeWith crc)).flatten) = payloads.map .frame) ∧
    (∀ bs p, Event.frame p ∈ decode crc bs → p ≠ []) := by
  have hparse : ∀ bs, decode crc bs = parse crc bs := fun bs => events_eq_parse Decoder.new_wf bs
  refine ⟨hparse, fun noise payloads hp hn => ?_, fun bs p hmem => ?_⟩
  · rw [hparse, parse_noise hn, parse_encodes payloads hp]
  · rw [hparse] at hmem
    exact ne_nil_of_frame_mem_parse bs hmem

/-- An implausible length, then a frame. -/
theorem decoder_parses_resync :
    decode crc32 ([0xFF, 0xFE] ++ ([[RC_OK, 9]].map (encodeWith crc32)).flatten) =
      [.frame [RC_OK, 9]] :=
  (decoder_parses crc32).2.1 [0xFF, 0xFE] [[RC_OK, 9]]
    (by simp [Plausible, MAX_PAYLOAD]) (by decide +kernel)

end RustyTune.EcuProto
