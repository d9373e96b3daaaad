import RustyTune.EcuProto.Download
import RustyTune.Lib.Crc

/-!
# Answers hit on the line

* `crc32_burst`: payloads that differ within 32 bits have different checksums.
* `Hit`: a frame with a burst in its payload, or with another trailer; `Hit.garbles`: the decoder sees
  the mismatch.
* **`Session.Ready.request_wire`**: a frame read in time gives its verdict, and the session is ready again.
-/

namespace RustyTune.EcuProto

open Decoder

/-! ## The checksum -/

/-- The polynomial, its highest term at the lowest bit. -/
def crcPoly : BitVec 32 := 0xEDB88320

theorem toBitVec_crc32Bit (c : UInt32) : (crc32Bit c).toBitVec = Crc.step crcPoly c.toBitVec := by
  have hlow : c &&& 1 = 1 ↔ c.toBitVec.getLsbD 0 = true := by
    rw [← UInt32.toBitVec_inj, UInt32.toBitVec_and]
    change c.toBitVec &&& 1#32 = 1#32 ↔ _
    rw [BitVec.and_one_eq_setWidth_ofBool_getLsbD]
    cases c.toBitVec.getLsbD 0 <;> simp
  by_cases hbit : c &&& 1 = 1
  · rw [crc32Bit, Crc.step, if_pos hbit, if_pos (hlow.mp hbit)]
    rfl
  · rw [crc32Bit, Crc.step, if_neg hbit, if_neg (mt hlow.mpr hbit)]
    rfl

theorem toBitVec_crc32Byte (c : UInt32) (b : UInt8) :
    (crc32Byte c b).toBitVec = Crc.byte crcPoly c.toBitVec b := by
  have hiterate : ∀ (n : ℕ) (c : UInt32),
      (crc32Bit^[n] c).toBitVec = (Crc.step crcPoly)^[n] c.toBitVec := by
    intro n
    induction n with
    | zero => exact fun _ => rfl
    | succ n ih =>
      intro c
      rw [Function.iterate_succ_apply, Function.iterate_succ_apply, ih, toBitVec_crc32Bit]
  rw [crc32Byte, Crc.byte, hiterate, UInt32.toBitVec_xor]
  rfl

theorem toBitVec_crc32 (data : List UInt8) :
    (crc32 data).toBitVec = ~~~ Crc.register crcPoly (BitVec.allOnes 32) data := by
  have hfold : ∀ c : UInt32, (data.foldl crc32Byte c).toBitVec =
      Crc.register crcPoly c.toBitVec data := by
    induction data with
    | nil => exact fun _ => rfl
    | cons b data ih => exact fun c => (ih _).trans (by rw [toBitVec_crc32Byte]; rfl)
  rw [crc32, UInt32.toBitVec_not, hfold]
  rfl

/-- **A burst of at most four bytes changes the checksum.** -/
theorem crc32_burst {xs ys : List UInt8} (hlen : xs.length = ys.length) (hmax : xs.length ≤ 4)
    (hne : xs ≠ ys) (before after : List UInt8) :
    crc32 (before ++ xs ++ after) ≠ crc32 (before ++ ys ++ after) := by
  intro h
  have hbits := congrArg UInt32.toBitVec h
  rw [toBitVec_crc32, toBitVec_crc32] at hbits
  have hpoly : crcPoly.getLsbD (32 - 1) = true := by decide
  exact Crc.register_burst hpoly hlen (by omega) hne _ before after (BitVec.not_inj.mp hbits)

/-! ## Frames -/

/-- The frame of an answer that was hit on the line: up to four consecutive bytes of the payload differ,
or the trailer does. -/
inductive Hit : List UInt8 → List UInt8 → Prop
  | payload (before xs ys after : List UInt8) (hlen : xs.length = ys.length) (hmax : xs.length ≤ 4)
    (hne : xs ≠ ys) :
    Hit (before ++ xs ++ after) (beBytes 2 (before ++ xs ++ after).length ++ (before ++ ys ++ after) ++
      beBytes 4 (crc32 (before ++ xs ++ after)).toNat)
  | trailer (answer trailer : List UInt8) (hlen : trailer.length = 4)
    (hne : trailer ≠ beBytes 4 (crc32 answer).toNat) :
    Hit answer (beBytes 2 answer.length ++ answer ++ trailer)

theorem Hit.modify (answer : List UInt8) {k : ℕ} (h2 : 2 ≤ k) (hk : k < (encode answer).length)
    {f : UInt8 → UInt8} (hf : ∀ b, f b ≠ b) : Hit answer ((encode answer).modify k f) := by
  obtain ⟨j, rfl⟩ : ∃ j, k = j + 2 := ⟨k - 2, by omega⟩
  have hframe : (encode answer).modify (j + 2) f = beBytes 2 answer.length ++
      (answer ++ beBytes 4 (crc32 answer).toNat).modify j f := by
    rw [encode, encodeWith, beBytes_two]
    rfl
  rw [hframe]
  by_cases hj : j < answer.length
  · have hmodify : (answer ++ beBytes 4 (crc32 answer).toNat).modify j f =
        (answer.take j ++ [f answer[j]] ++ answer.drop (j + 1)) ++ beBytes 4 (crc32 answer).toNat := by
      rw [List.modify_eq_take_cons_drop (by rw [List.length_append]; omega),
        List.take_append_of_le_length (by omega), List.drop_append_of_le_length (by omega),
        List.getElem_append_left hj]
      simp
    have hsplit : answer.take j ++ [answer[j]] ++ answer.drop (j + 1) = answer := by simp
    have hhit := Hit.payload (answer.take j) [answer[j]] [f answer[j]] (answer.drop (j + 1)) rfl
      (Nat.le_of_ble_eq_true rfl) (fun h => hf _ (List.cons.inj h).1.symm)
    rw [hsplit] at hhit
    rw [hmodify, ← List.append_assoc]
    exact hhit
  · obtain ⟨i, rfl⟩ : ∃ i, j = answer.length + i := ⟨j - answer.length, by omega⟩
    set trailer := beBytes 4 (crc32 answer).toNat with htrailer
    have hi : i < trailer.length := by
      rw [encode, encodeWith, List.length_append, List.length_append, length_beBytes,
        length_beBytes] at hk
      rw [htrailer, length_beBytes]
      omega
    have hmodify : (answer ++ trailer).modify (answer.length + i) f = answer ++ trailer.modify i f := by
      rw [List.modify_eq_take_cons_drop (by rw [List.length_append]; omega),
        List.modify_eq_take_cons_drop hi, List.take_length_add_append, Nat.add_assoc,
        List.drop_length_add_append, List.getElem_append_right (by omega)]
      simp
    rw [hmodify, ← List.append_assoc]
    refine .trailer answer _ (by rw [List.length_modify, htrailer, length_beBytes]) fun h => ?_
    rw [← htrailer] at h
    have hbyte := congrArg (·[i]?) h
    simp only [List.getElem?_modify_eq, List.getElem?_eq_getElem hi] at hbyte
    exact hf _ (Option.some.inj hbyte)

theorem verdict_frame {payload trailer : List UInt8} {n : ℕ} (hn : payload.length = n)
    (h16 : n < 2 ^ 16) :
    verdict (beBytes 2 n ++ payload ++ trailer) = frameEvent payload trailer := by
  have hhead : (beBytes 2 n ++ payload ++ trailer).take 2 = beBytes 2 n := by
    rw [List.append_assoc, List.take_left' (length_beBytes 2 n)]
  have hbody : (beBytes 2 n ++ payload ++ trailer).drop 2 = payload ++ trailer := by
    rw [List.append_assoc, List.drop_left' (length_beBytes 2 n)]
  have hlen : beNat (beBytes 2 n) = payload.length := by
    rw [beNat_beBytes, hn]
    exact Nat.mod_eq_of_lt h16
  rw [verdict, hhead, hbody, hlen, List.take_left' rfl, List.drop_left' rfl]

theorem beNat_inj {bs bs' : List UInt8} (hlen : bs.length = bs'.length) (h : beNat bs = beNat bs') :
    bs = bs' :=
  List.reverse_injective (leNat_inj (by simpa using hlen) h)

/-- **The decoder sees that a frame was hit.** -/
theorem Hit.garbles {answer w : List UInt8} (h : Hit answer w) (hmax : answer.length ≤ MAX_PAYLOAD) :
    Garbles answer w := by
  unfold MAX_PAYLOAD at hmax
  cases h with
  | payload before xs ys after hlen hmax' hne =>
    have hys : (before ++ ys ++ after).length = (before ++ xs ++ after).length := by
      simp [hlen]
    refine ⟨?_, ?_, ?_⟩
    · rw [take_two_encode, List.append_assoc, List.take_left' (length_beBytes 2 _)]
    · simp only [encode, encodeWith, List.length_append, length_beBytes, hlen]
    · rw [verdict_frame hys (by omega), frameEvent, frameEventWith, if_neg]
      rw [beNat_beBytes, Nat.mod_eq_of_lt (by simpa using UInt32.toNat_lt _)]
      exact fun heq => crc32_burst hlen hmax' hne before after (UInt32.toNat_inj.mp heq.symm)
  | trailer _ trailer hlen hne =>
    refine ⟨?_, ?_, ?_⟩
    · rw [take_two_encode, List.append_assoc, List.take_left' (length_beBytes 2 _)]
    · simp only [encode, encodeWith, List.length_append, length_beBytes, hlen]
    · rw [verdict_frame rfl (by omega), frameEvent, frameEventWith, if_neg]
      intro heq
      refine hne (beNat_inj (by rw [hlen, length_beBytes]) ?_)
      rw [beNat_beBytes, Nat.mod_eq_of_lt (by simpa using UInt32.toNat_lt _), ← heq]

/-! ## Requests -/

/-- **A frame read in time gives its verdict**, and the session is ready again. -/
theorem Session.Ready.request_wire {s : Session} (hs : s.Ready) (c : Call) (hw : IsWire c.wire)
    (htime : InTime c.wire.length c.polls) :
    s.request c = ((wireResult c.ok c.wire).map List.tail,
      ⟨.primary, ⟨s.line.sent ++ [encode c.payload], [], []⟩⟩) := by
  obtain ⟨mode, sent, buffer, inFlight⟩ := s
  obtain ⟨rfl, rfl, rfl⟩ := hs
  have hline : (Line.arrive ⟨sent, [], []⟩ c.idle).write (encode c.payload) c.wire =
      ⟨sent ++ [encode c.payload], [], c.wire⟩ := by
    simp [Line.arrive, Line.write]
  have hread := readLoop_inTime hw rfl c.ok c.polls [] ⟨sent ++ [encode c.payload], [], c.wire⟩ rfl
    (by rw [hw.length]; simp) htime
  unfold Session.request
  simp only [ne_eq, not_true_eq_false, if_false, hline]
  rw [show (new.feed []).1 = new from rfl] at hread
  rw [hread, wireResult]
  cases eventResult c.ok (verdict c.wire) with
  | ok full => rfl
  | error e => rfl

end RustyTune.EcuProto
