import RustyTune.FakeEcu.Dispatch
import RustyTune.Lib.Framer

/-!
# The simulator on its line

The bytes arrive in reads of any size. The loop takes commands off the front of its buffer, skips a byte
that cannot start one, and drops a frame whose checksum is wrong.

* `unframe`: what stands at the front of the buffer; `handlePrimary`: one command consumed.
* `Device`, `serve`, `listen`: the loop over one read, and over many. `corrupt`: every `N`th response.
* `framer`: `unframe` needs no more than it takes. **`serve_eq`**: the loop answers the frames of its buffer.
* `Carries`: the commands in a stream, the declarative grammar. **`carries_iff`**.
* **`listen_carries`**: the simulator answers the commands that its stream carries.
-/

namespace RustyTune.FakeEcu

open EcuProto

/-! ## The front of the buffer -/

/-- The least and the greatest length of a payload. -/
def Command.lengths : Command → ℕ × ℕ
  | .realtime | .signature | .product | .test | .capabilities => (1, 1)
  | .och | .page .read | .tableCrc => (7, 7)
  | .page .write => (8, 7 + BLOCKING_FACTOR)
  | .page .burn | .page .crc => (3, 3)
  | .table => (8, 7 + TABLE_BLOCKING_FACTOR)

/-- Payload length constraints, by the first byte. -/
def CMD_LENGTHS (cmd : UInt8) : Option (ℕ × ℕ) := (command cmd).map Command.lengths

/-- A header that may start a command. -/
def Header (plen : ℕ) (cmd : UInt8) : Prop :=
  ∃ limits, CMD_LENGTHS cmd = some limits ∧ limits.1 ≤ plen ∧ plen ≤ limits.2

instance (plen : ℕ) (cmd : UInt8) : Decidable (Header plen cmd) :=
  match h : CMD_LENGTHS cmd with
  | none => isFalse fun ⟨_, hl, _⟩ => by rw [h] at hl; cases hl
  | some limits => decidable_of_iff (limits.1 ≤ plen ∧ plen ≤ limits.2)
      ⟨fun hl => ⟨limits, h, hl⟩, fun ⟨_, hl, hle⟩ => by rw [h] at hl; cases hl; exact hle⟩

/-- What stands at the front: none where the rest of a frame is awaited, else a command's payload, if
its checksum is right, and the bytes behind. -/
def unframe : List UInt8 → Option (Option (List UInt8) × List UInt8)
  | a :: b :: c :: body =>
    let plen := beNat [a, b]
    -- implausible header: resync one byte
    if ¬ Header plen c then some (none, b :: c :: body)
    else if (c :: body).length < plen + 4 then none
    else
      let payload := (c :: body).take plen
      let rest := (c :: body).drop plen
      if (crc32 payload).toNat = beNat (rest.take 4) then some (some payload, rest.drop 4)
      -- dropped, like the firmware
      else some (none, rest.drop 4)
  | _ => none

/-- Try to consume one enveloped command: the buffer, the response, if there is one, and the store;
none where no progress is made. -/
def handlePrimary (buf : List UInt8) (store : PageStore) (block : List UInt8) :
    Option (List UInt8 × Option (List UInt8) × PageStore) :=
  match unframe buf with
  | none => none
  | some (none, buf) => some (buf, none, store)
  | some (some payload, buf) =>
    some (buf, some (encode (dispatch payload store block).1), (dispatch payload store block).2)

/-- A payload that the header of its frame lets in. -/
def Admitted (payload : List UInt8) : Prop := Header payload.length (byteAt payload 0)

instance (payload : List UInt8) : Decidable (Admitted payload) :=
  inferInstanceAs (Decidable (Header _ _))

theorem lengths_bounds (c : Command) : 1 ≤ c.lengths.1 ∧ c.lengths.2 ≤ 263 := by
  cases c with
  | page c => cases c <;> decide
  | _ => decide

theorem Header.bounds {plen : ℕ} {cmd : UInt8} (h : Header plen cmd) : 1 ≤ plen ∧ plen ≤ 263 := by
  obtain ⟨limits, hlimits, hle, hge⟩ := h
  obtain ⟨c, -, rfl⟩ := Option.map_eq_some_iff.mp hlimits
  have := lengths_bounds c
  omega

theorem unframe_skip {a b c : UInt8} (h : ¬ Header (beNat [a, b]) c) (body : List UInt8) :
    unframe (a :: b :: c :: body) = some (none, b :: c :: body) := by
  rw [unframe, if_pos h]

/-- **A frame at the front**, whose checksum is right or not. -/
theorem unframe_frame {payload trailer : List UInt8} (hp : Admitted payload) (ht : trailer.length = 4)
    (rest : List UInt8) : unframe (beBytes 2 payload.length ++ payload ++ trailer ++ rest) =
      some (if (crc32 payload).toNat = beNat trailer then some payload else none, rest) := by
  obtain ⟨hpos, hmax⟩ := hp.bounds
  cases payload with
  | nil => exact absurd hpos (Nat.not_succ_le_zero 0)
  | cons c body =>
    have hplen : beNat (beBytes 2 (c :: body).length) = (c :: body).length := by
      rw [beNat_beBytes]
      exact Nat.mod_eq_of_lt (by omega)
    have hsplit : c :: (body ++ trailer ++ rest) = (c :: body) ++ (trailer ++ rest) := by simp
    rw [beBytes_two] at hplen ⊢
    simp only [List.cons_append, List.nil_append]
    rw [unframe]
    simp only [hplen, hsplit]
    rw [if_neg (not_not.mpr (show Header (c :: body).length c from hp)),
      if_neg (by simp only [List.length_append]; omega), List.take_left' rfl, List.drop_left' rfl,
      List.take_left' ht, List.drop_left' ht]
    split_ifs <;> rfl

/-- **What can stand at the front**: a byte that is skipped, or a frame. -/
theorem unframe_eq_some {buf rest : List UInt8} {o : Option (List UInt8)}
    (h : unframe buf = some (o, rest)) :
    (∃ a b c body, ¬ Header (beNat [a, b]) c ∧ buf = a :: b :: c :: body ∧ o = none ∧
      rest = b :: c :: body) ∨
    ∃ payload trailer, Admitted payload ∧ trailer.length = 4 ∧
      buf = beBytes 2 payload.length ++ payload ++ trailer ++ rest ∧
      o = if (crc32 payload).toNat = beNat trailer then some payload else none := by
  rcases buf with _ | ⟨a, _ | ⟨b, _ | ⟨c, body⟩⟩⟩
  · cases h
  · cases h
  · cases h
  · by_cases hheader : Header (beNat [a, b]) c
    · refine .inr ?_
      set plen := beNat [a, b] with hplen
      by_cases hlen : (c :: body).length < plen + 4
      · rw [unframe, if_neg (not_not.mpr hheader), if_pos hlen] at h
        cases h
      · set payload := (c :: body).take plen with hpayload
        set trailer := ((c :: body).drop plen).take 4 with htrailer
        have hpl : payload.length = plen := by
          rw [hpayload, List.length_take]
          omega
        have htl : trailer.length = 4 := by
          rw [htrailer, List.length_take, List.length_drop]
          omega
        have hhead : byteAt payload 0 = c := by
          obtain ⟨n, hn⟩ : ∃ n, plen = n + 1 := Nat.exists_eq_succ_of_ne_zero (by
            have := hheader.bounds
            omega)
          rw [hpayload, hn]
          rfl
        have hadmitted : Admitted payload := by
          rw [Admitted, hpl, hhead]
          exact hheader
        have htwo : beBytes 2 payload.length = [a, b] := by
          rw [hpl]
          exact beBytes_beNat [a, b]
        have hbuf : a :: b :: c :: body =
            beBytes 2 payload.length ++ payload ++ trailer ++ ((c :: body).drop plen).drop 4 := by
          rw [htwo, List.append_assoc, List.append_assoc, List.take_append_drop, List.take_append_drop]
          rfl
        rw [hbuf, unframe_frame hadmitted htl] at h
        obtain ⟨ho, hrest⟩ := Prod.mk.inj (Option.some.inj h)
        exact ⟨payload, trailer, hadmitted, htl, hrest ▸ hbuf, ho.symm⟩
    · rw [unframe_skip hheader] at h
      obtain ⟨rfl, rfl⟩ := Prod.mk.inj (Option.some.inj h)
      exact .inl ⟨a, b, c, body, hheader, rfl, rfl, rfl⟩

theorem unframe_shrinks {buf rest : List UInt8} {o : Option (List UInt8)}
    (h : unframe buf = some (o, rest)) : rest.length < buf.length := by
  rcases unframe_eq_some h with ⟨a, b, c, body, -, rfl, -, rfl⟩ | ⟨payload, trailer, -, ht, rfl, -⟩
  · exact Nat.lt_succ_self _
  · simp only [List.length_append, ht]
    omega

/-- What is taken off the front does not depend on what follows. -/
theorem unframe_stable {buf rest : List UInt8} {o : Option (List UInt8)}
    (h : unframe buf = some (o, rest)) (more : List UInt8) :
    unframe (buf ++ more) = some (o, rest ++ more) := by
  rcases unframe_eq_some h with ⟨a, b, c, body, hheader, rfl, rfl, rfl⟩ | ⟨payload, trailer, hp, ht, rfl, rfl⟩
  · exact unframe_skip hheader (body ++ more)
  · rw [List.append_assoc]
    exact unframe_frame hp ht (rest ++ more)

theorem handlePrimary_shrinks {buf buf' block : List UInt8} {store store' : PageStore}
    {resp : Option (List UInt8)} (h : handlePrimary buf store block = some (buf', resp, store')) :
    buf'.length < buf.length := by
  unfold handlePrimary at h
  cases hfront : unframe buf with
  | none =>
    rw [hfront] at h
    cases h
  | some front =>
    obtain ⟨o, rest⟩ := front
    have hlt := unframe_shrinks hfront
    rw [hfront] at h
    cases o <;> cases h <;> exact hlt

def framer : Framer UInt8 (List UInt8) where
  next := unframe
  shrinks := unframe_shrinks
  stable := unframe_stable

/-! ## The loop -/

/-- The simulator as it serves its line. -/
structure Device where
  store : PageStore
  /-- Commands answered. -/
  polls : ℕ
  buf : List UInt8

/-- `--corrupt-every`: one byte of every `N`th response. -/
def corrupt (corruptEvery polls : ℕ) (resp : List UInt8) : List UInt8 :=
  if corruptEvery ≠ 0 ∧ polls % corruptEvery = 0 then resp.modify (resp.length / 2) (· ^^^ 0xFF)
  else resp

section Loop

variable (corruptEvery : ℕ) (block : ℕ → List UInt8)

/-- `while buf`: what is written, and the simulator that waits for more. `block` is the telemetry at the
moment of each response. -/
def serve (d : Device) : List (List UInt8) × Device :=
  match _h : handlePrimary d.buf d.store (block d.polls) with
  | none => ([], d)
  | some (buf, none, store) => serve ⟨store, d.polls, buf⟩
  | some (buf, some resp, store) =>
    let rest := serve ⟨store, d.polls + 1, buf⟩
    (corrupt corruptEvery (d.polls + 1) resp :: rest.1, rest.2)
termination_by d.buf.length
decreasing_by all_goals exact handlePrimary_shrinks _h

/-- The loop over reads, each of which brings something. -/
def listen (d : Device) : List (List UInt8) → List (List UInt8) × Device
  | [] => ([], d)
  | data :: reads =>
    let served := serve corruptEvery block { d with buf := d.buf ++ data }
    let rest := listen served.2 reads
    (served.1 ++ rest.1, rest.2)

/-- One command answered: what is written, the store, and the count. -/
def respond (s : PageStore × ℕ) (payload : List UInt8) : List UInt8 × (PageStore × ℕ) :=
  let answer := dispatch payload s.1 (block s.2)
  (corrupt corruptEvery (s.2 + 1) (encode answer.1), answer.2, s.2 + 1)

/-- The simulator once it has answered commands one after the other; `rest` stays in its buffer. -/
def Device.answer (d : Device) (cmds : List (List UInt8)) (rest : List UInt8) :
    List (List UInt8) × Device :=
  let answered := answerAll (respond corruptEvery block) (d.store, d.polls) cmds
  (answered.1, ⟨answered.2.1, answered.2.2, rest⟩)

/-! ## The loop answers the frames -/

variable {corruptEvery block} {store : PageStore} {polls : ℕ} {buf rest payload : List UInt8}

theorem serve_wait (h : unframe buf = none) :
    serve corruptEvery block ⟨store, polls, buf⟩ = ([], ⟨store, polls, buf⟩) := by
  have hnone : handlePrimary buf store (block polls) = none := by rw [handlePrimary, h]
  rw [serve]
  split
  · rfl
  all_goals
    rename_i heq
    rw [hnone] at heq
    cases heq

theorem serve_skip (h : unframe buf = some (none, rest)) :
    serve corruptEvery block ⟨store, polls, buf⟩ = serve corruptEvery block ⟨store, polls, rest⟩ := by
  have hsome : handlePrimary buf store (block polls) = some (rest, none, store) := by
    rw [handlePrimary, h]
  rw [serve]
  split
  all_goals
    rename_i heq
    rw [hsome] at heq
    cases heq
  rfl

theorem serve_command (h : unframe buf = some (some payload, rest)) :
    serve corruptEvery block ⟨store, polls, buf⟩ =
      let r := respond corruptEvery block (store, polls) payload
      let served := serve corruptEvery block ⟨r.2.1, r.2.2, rest⟩
      (r.1 :: served.1, served.2) := by
  have hsome : handlePrimary buf store (block polls) =
      some (rest, some (encode (dispatch payload store (block polls)).1),
        (dispatch payload store (block polls)).2) := by rw [handlePrimary, h]
  rw [serve]
  split
  all_goals
    rename_i heq
    rw [hsome] at heq
    cases heq
  rfl

/-- **The loop answers the frames of its buffer.** -/
theorem serve_eq (store : PageStore) (polls : ℕ) (buf : List UInt8) :
    serve corruptEvery block ⟨store, polls, buf⟩ = Device.answer corruptEvery block ⟨store, polls, buf⟩
      (framer.frames buf).1 (framer.frames buf).2 := by
  induction buf using framer.frames_induction generalizing store polls with
  | wait buf h =>
    rw [serve_wait h, Framer.frames_wait h]
    rfl
  | take buf o rest h ih =>
    rw [Framer.frames_take h]
    cases o with
    | none =>
      rw [serve_skip h, ih]
      rfl
    | some payload =>
      rw [serve_command h]
      dsimp only
      rw [ih]
      rfl

/-- **How the stream is split into reads does not matter.** -/
theorem listen_eq (d : Device) (hd : unframe d.buf = none) (reads : List (List UInt8)) :
    listen corruptEvery block d reads = d.answer corruptEvery block
      (framer.frames (d.buf ++ reads.flatten)).1 (framer.frames (d.buf ++ reads.flatten)).2 := by
  induction reads generalizing d with
  | nil =>
    rw [listen, List.flatten_nil, List.append_nil, Framer.frames_wait hd]
    rfl
  | cons data reads ih =>
    have hleft : unframe (framer.frames (d.buf ++ data)).2 = none := framer.next_left (d.buf ++ data)
    have happend := framer.frames_append (d.buf ++ data) reads.flatten
    rw [listen, serve_eq, ih _ hleft, List.flatten_cons, ← List.append_assoc, happend]
    unfold Device.answer
    rw [answerAll_append]

end Loop

/-! ## The commands in a stream -/

/-- The rest of a frame is awaited, or of its header. -/
def Awaits (buf : List UInt8) : Prop :=
  buf.length < 3 ∨ ∃ a b c body, buf = a :: b :: c :: body ∧ Header (beNat [a, b]) c ∧
    (c :: body).length < beNat [a, b] + 4

/-- The commands that a stream carries, in order, before the bytes `rest`. -/
inductive Carries (rest : List UInt8) : List UInt8 → List (List UInt8) → Prop
  | rest (h : Awaits rest) : Carries rest rest []
  | command {payload bs : List UInt8} {cmds : List (List UInt8)} (hp : Admitted payload)
    (h : Carries rest bs cmds) : Carries rest (encode payload ++ bs) (payload :: cmds)
  /-- A frame with another checksum. -/
  | garbled {payload trailer bs : List UInt8} {cmds : List (List UInt8)} (hp : Admitted payload)
    (hlen : trailer.length = 4) (hne : beNat trailer ≠ (crc32 payload).toNat)
    (h : Carries rest bs cmds) :
    Carries rest (beBytes 2 payload.length ++ payload ++ trailer ++ bs) cmds
  /-- A byte at which no command starts. -/
  | noise {a b c : UInt8} {body : List UInt8} {cmds : List (List UInt8)}
    (hheader : ¬ Header (beNat [a, b]) c) (h : Carries rest (b :: c :: body) cmds) :
    Carries rest (a :: b :: c :: body) cmds

theorem unframe_eq_none {buf : List UInt8} : unframe buf = none ↔ Awaits buf := by
  rcases buf with _ | ⟨a, _ | ⟨b, _ | ⟨c, body⟩⟩⟩
  · exact iff_of_true rfl (.inl (by decide))
  · exact iff_of_true rfl (.inl (Nat.lt_of_sub_eq_succ rfl))
  · exact iff_of_true rfl (.inl (Nat.lt_of_sub_eq_succ rfl))
  · rw [unframe]
    constructor
    · intro h
      dsimp only at h
      split_ifs at h with hheader hlen
      exact .inr ⟨a, b, c, body, rfl, hheader, hlen⟩
    · rintro (hlen | ⟨a', b', c', body', heq, hheader, hlen⟩)
      · simp only [List.length_cons] at hlen
        omega
      · cases heq
        rw [if_neg (not_not.mpr hheader), if_pos hlen]

/-- **The grammar has one reading of every stream**, and it is what the loop finds. -/
theorem carries_iff {rest bs : List UInt8} {cmds : List (List UInt8)} :
    Carries rest bs cmds ↔ framer.frames bs = (cmds, rest) := by
  constructor
  · intro h
    induction h with
    | rest h => exact Framer.frames_wait (unframe_eq_none.mpr h)
    | @command payload bs cmds hp h ih =>
      have hfront := unframe_frame hp (length_beBytes 4 (crc32 payload).toNat) bs
      have hcrc : (crc32 payload).toNat = beNat (beBytes 4 (crc32 payload).toNat) := by
        rw [beNat_beBytes]
        exact (Nat.mod_eq_of_lt (by simpa using (crc32 payload).toNat_lt)).symm
      rw [if_pos hcrc] at hfront
      rw [encode, encodeWith, Framer.frames_take (f := framer) hfront, ih]
      rfl
    | @garbled payload trailer bs cmds hp hlen hne h ih =>
      have hfront := unframe_frame hp hlen bs
      rw [if_neg (Ne.symm hne)] at hfront
      rw [Framer.frames_take (f := framer) hfront, ih]
      rfl
    | @noise a b c body cmds hheader h ih =>
      have hfront : framer.next (a :: b :: c :: body) = some (none, b :: c :: body) :=
        unframe_skip hheader body
      rw [Framer.frames_take hfront, ih]
      rfl
  · intro h
    induction bs using framer.frames_induction generalizing cmds with
    | wait bs hwait =>
      rw [Framer.frames_wait hwait] at h
      cases h
      exact .rest (unframe_eq_none.mp hwait)
    | take bs o left htake ih =>
      rw [Framer.frames_take htake] at h
      obtain ⟨hcmds, hrest⟩ := Prod.mk.inj h
      have hleft := ih (Prod.ext rfl hrest)
      rcases unframe_eq_some htake with ⟨a, b, c, body, hheader, rfl, rfl, rfl⟩ |
        ⟨payload, trailer, hp, ht, rfl, rfl⟩
      · rw [← hcmds]
        exact .noise hheader hleft
      · split_ifs at hcmds with hcrc
        · have htrailer : trailer = beBytes 4 (crc32 payload).toNat := by
            rw [hcrc, ← ht, beBytes_beNat]
          rw [← hcmds, htrailer]
          exact .command hp hleft
        · rw [← hcmds]
          exact .garbled hp ht (Ne.symm hcrc) hleft

/-- **The simulator answers what its stream carries**: however the bytes are split into reads, the
commands in intact frames are answered once each and in order, each by `dispatch` on the store that the
commands before it have left; noise and frames with a wrong checksum leave no trace. -/
theorem listen_carries (corruptEvery : ℕ) (block : ℕ → List UInt8) (store : PageStore) (polls : ℕ)
    (reads : List (List UInt8)) :
    ∃ cmds rest, Carries rest reads.flatten cmds ∧
      (∀ cmds' rest', Carries rest' reads.flatten cmds' → cmds' = cmds ∧ rest' = rest) ∧
      listen corruptEvery block ⟨store, polls, []⟩ reads =
        Device.answer corruptEvery block ⟨store, polls, []⟩ cmds rest := by
  refine ⟨(framer.frames reads.flatten).1, (framer.frames reads.flatten).2, carries_iff.mpr rfl,
    fun cmds' rest' h => ?_, listen_eq ⟨store, polls, []⟩ rfl reads⟩
  rw [carries_iff.mp h]
  exact ⟨rfl, rfl⟩

end RustyTune.FakeEcu
