import RustyTune.EcuProto.Command
import RustyTune.EcuProto.Session
import RustyTune.Lib.Checked
import RustyTune.Lib.Run
import RustyTune.Lib.Slice

/-!
# Calibration tables

A reference table is sent in chunks, whose offsets and counts are big-endian; the last chunk saves to
EEPROM.

* `Calibration.commands`: the commands of a table, all of them built before the first is sent.
  **`commands_eq_ok_iff`**: they are built exactly when the layout, the identifier and the template
  are usable, and then they are the chunks in order (`chunkCommand`).
* `Calibration.write`: the transfer. `FirstError`: the first request that fails.
* `sendAll_of_firstError`: what is sent until then.
* **`write_complete`**: the transfer sends the chunks up to the first error, and nothing where
  something is unusable; all of them are the table.
-/

namespace RustyTune.EcuProto

/-- `swap_bytes` of `u16`. -/
def swapBytes (n : UInt16) : UInt16 := UInt16.ofNat (n.toNat % 256 * 256 + n.toNat / 256)

theorem leBytes_swapBytes {n : ℕ} (h : n < 2 ^ 16) :
    leBytes 2 (swapBytes (UInt16.ofNat n)).toNat = beBytes 2 n := by
  have hn : (UInt16.ofNat n).toNat = n := UInt16.toNat_ofNat_of_lt' h
  have hlt : n % 256 * 256 + n / 256 < 2 ^ 16 := by omega
  have hval : (swapBytes (UInt16.ofNat n)).toNat = n % 256 * 256 + n / 256 := by
    rw [swapBytes, hn]
    exact UInt16.toNat_ofNat_of_lt' hlt
  have hhi : UInt8.ofNat (n % 256 * 256 + n / 256) = UInt8.ofNat (n / 256) := by
    refine UInt8.toNat_inj.mp ?_
    rw [UInt8.toNat_ofNat', UInt8.toNat_ofNat']
    omega
  have hquot : (n % 256 * 256 + n / 256) / 256 = n % 256 := by omega
  have hlo : UInt8.ofNat ((n % 256 * 256 + n / 256) / 256) = UInt8.ofNat n := by
    refine UInt8.toNat_inj.mp ?_
    rw [hquot, UInt8.toNat_ofNat', UInt8.toNat_ofNat', Nat.mod_mod]
  rw [hval, beBytes_two, leBytes, leBytes, leBytes, hhi, hlo]

/-! ## The transfer -/

/-- What the ECU and the line do during a request. -/
structure Reply where
  answer : List UInt8
  wire : List UInt8
  idle : ℕ
  polls : List ℕ
  deriving DecidableEq, Repr

/-- A request to which the return code of success is expected. -/
def Reply.call (r : Reply) (cmd : List UInt8) : Call := ⟨cmd, [RC_OK], r.answer, r.wire, r.idle, r.polls⟩

/-- The requests one after the other, up to the first that fails. -/
def Session.sendAll (s : Session) : List Call → Except ProtoError Unit × Session
  | [] => (.ok (), s)
  | c :: calls =>
    match s.request c with
    | (.ok _, s) => s.sendAll calls
    | (.error e, s) => (.error e, s)

namespace Calibration

/-- `u8::try_from` of the identifier. -/
def identifier (id : UInt16) : Except ProtoError UInt8 :=
  if id.toNat < 256 then .ok (UInt8.ofNat id.toNat)
  else .error (.unsupported "calibration identifier exceeds one byte")

/-- The values of the command of chunk `i`. -/
def chunkArgs (canId id : UInt8) (blockingFactor : ℕ) (chunk : List UInt8) (i : ℕ) : Args where
  canId := canId
  pageId := some [id]
  offset := some (swapBytes (UInt16.ofNat (i * blockingFactor)))
  count := some (swapBytes (UInt16.ofNat chunk.length))
  value := some chunk

/-- The commands of `write`. -/
def commands (canId : UInt8) (template : String) (id : UInt16) (blockingFactor : ℕ)
    (data : List UInt8) : Except ProtoError (List (List UInt8)) := do
  if data.length ≠ 1024 ∨ blockingFactor = 0 ∨ 256 < blockingFactor ∨ blockingFactor % 32 ≠ 0 then
    throw (.unsupported "unsupported AFR calibration table layout")
  let id ← identifier id
  -- template errors do not leave a partial calibration
  let template ← Template.parse template
  (chunks blockingFactor data).zipIdx.mapM fun (chunk, i) =>
    template.build (chunkArgs canId id blockingFactor chunk i)

/-- `write`; `replies` is what the ECU and the line do during each request. -/
def write (s : Session) (canId : UInt8) (template : String) (id : UInt16) (blockingFactor : ℕ)
    (data : List UInt8) (replies : ℕ → Reply) : Except ProtoError Unit × Session :=
  match commands canId template id blockingFactor data with
  | .error e => (.error e, s)
  | .ok cmds => s.sendAll (cmds.zipIdx.map fun (cmd, i) => (replies i).call cmd)

/-! ## The commands -/

/-- What a transfer needs: a table, a blocking factor and an identifier of its size, and a template
that can be built. -/
structure Usable (template : String) (id : UInt16) (blockingFactor : ℕ) (data : List UInt8)
    (t : Template) : Prop where
  length : data.length = 1024
  pos : 0 < blockingFactor
  le : blockingFactor ≤ 256
  multiple : 32 ∣ blockingFactor
  id_lt : id.toNat < 256
  parse : Template.parse template = .ok t
  known : ∀ name, .var name ∈ t.parts → name = "tsCanId"

/-- A part of a command with its numbers in big-endian order. -/
def partBytes (canId id : UInt8) (c : ℕ × List UInt8) : Part → List UInt8
  | .literal bytes => bytes
  | .var _ => [canId]
  | .pageId => [id]
  | .offset => beBytes 2 c.1
  | .count => beBytes 2 c.2.length
  | .value => c.2

/-- The command of a chunk, which stands at its offset. -/
def chunkCommand (canId id : UInt8) (t : Template) (c : ℕ × List UInt8) : List UInt8 :=
  t.parts.flatMap (partBytes canId id c)

section Commands

variable {canId id : UInt8} {t : Template} {n i : ℕ} {chunk : List UInt8}

theorem known_chunkArgs :
    t.Known (chunkArgs canId id n chunk i) ↔ ∀ name, .var name ∈ t.parts → name = "tsCanId" := by
  constructor
  · intro h name hname
    exact h (.var name) hname
  · intro h p hp
    cases p with
    | var name => exact h name hp
    | literal bytes => trivial
    | pageId => rfl
    | offset => rfl
    | count => rfl
    | value => rfl

theorem buildPart_chunkArgs (hoff : i * n < 2 ^ 16) (hlen : chunk.length < 2 ^ 16) {p : Part}
    (hp : p.Known (chunkArgs canId id n chunk i)) :
    Template.buildPart (chunkArgs canId id n chunk i) p =
      .ok (partBytes canId id (i * n, chunk) p) := by
  cases p with
  | var name => exact if_pos hp
  | literal bytes => rfl
  | pageId => rfl
  | offset => exact congrArg Except.ok (leBytes_swapBytes hoff)
  | count => exact congrArg Except.ok (leBytes_swapBytes hlen)
  | value => rfl

/-- **The command of a chunk has its numbers in big-endian order.** -/
theorem build_chunkArgs (hoff : i * n < 2 ^ 16) (hlen : chunk.length < 2 ^ 16)
    (hknown : t.Known (chunkArgs canId id n chunk i)) :
    t.build (chunkArgs canId id n chunk i) = .ok (chunkCommand canId id t (i * n, chunk)) := by
  obtain ⟨parts⟩ := t
  unfold Template.build chunkCommand Template.Known at *
  induction parts with
  | nil => rfl
  | cons p parts ih =>
    obtain ⟨hp, hparts⟩ := List.forall_mem_cons.mp hknown
    rw [Template.buildParts_cons_eq_ok]
    exact ⟨_, _, buildPart_chunkArgs hoff hlen hp, ih hparts, List.flatMap_cons ..⟩

theorem chunk_lt {data : List UInt8} (hn : 0 < n) (hdata : data.length = 1024)
    (h : (chunk, i) ∈ (chunks n data).zipIdx) : i * n < 2 ^ 16 ∧ chunk.length < 2 ^ 16 := by
  have hmem : (i * n, chunk) ∈ chunksAt n 0 data := by
    rw [← map_zipIdx_chunks]
    exact List.mem_map_of_mem (f := fun ci : List UInt8 × ℕ => (ci.2 * n, ci.1)) h
  obtain ⟨-, hle, -⟩ := mem_chunksAt hn hmem
  omega

end Commands

section Usable

variable {canId : UInt8} {template : String} {id : UInt16} {n : ℕ} {data : List UInt8} {t : Template}

/-- **The commands of a usable table** are its chunks in order. -/
theorem Usable.commands (h : Usable template id n data t) (canId : UInt8) :
    commands canId template id n data =
      .ok ((chunksAt n 0 data).map (chunkCommand canId (UInt8.ofNat id.toNat) t)) := by
  have hlayout : ¬ (data.length ≠ 1024 ∨ n = 0 ∨ 256 < n ∨ n % 32 ≠ 0) := by
    have h1 := h.length
    have h2 := h.pos
    have h3 := h.le
    have h4 := Nat.mod_eq_zero_of_dvd h.multiple
    omega
  have hid : identifier id = .ok (UInt8.ofNat id.toNat) := if_pos h.id_lt
  have hbuilt : (chunks n data).zipIdx.mapM (fun (chunk, i) =>
      t.build (chunkArgs canId (UInt8.ofNat id.toNat) n chunk i)) =
        .ok ((chunks n data).zipIdx.map fun ci =>
          chunkCommand canId (UInt8.ofNat id.toNat) t (ci.2 * n, ci.1)) := by
    rw [except_mapM_eq_ok, List.forall₂_map_right_iff, List.forall₂_same]
    rintro ⟨chunk, i⟩ hmem
    obtain ⟨hoff, hlen⟩ := chunk_lt h.pos h.length hmem
    exact build_chunkArgs hoff hlen (known_chunkArgs.mpr h.known)
  rw [Calibration.commands, if_neg hlayout, hid, h.parse]
  refine hbuilt.trans ?_
  rw [← map_zipIdx_chunks, List.map_map]
  rfl

theorem usable_of_commands {cmds : List (List UInt8)}
    (h : commands canId template id n data = .ok cmds) : ∃ t, Usable template id n data t := by
  unfold commands at h
  split_ifs at h with hlayout
  · exact nomatch h
  simp only [not_or, not_not, Nat.not_lt] at hlayout
  obtain ⟨hlen, hpos, hle, hmul⟩ := hlayout
  obtain ⟨id8, hid, h⟩ := except_bind_eq_ok.mp h
  obtain ⟨t, ht, h⟩ := except_bind_eq_ok.mp h
  have hlt : id.toNat < 256 := by
    unfold identifier at hid
    split_ifs at hid with hlt
    exact hlt
  refine ⟨t, hlen, Nat.pos_of_ne_zero hpos, hle, Nat.dvd_of_mod_eq_zero hmul, hlt, ht, ?_⟩
  -- the template is built for the first chunk
  have hall := except_mapM_eq_ok.mp h
  cases hchunks : (chunks n data).zipIdx with
  | nil =>
    have hfirst : 0 < 0 + data.length := by omega
    obtain ⟨c, hc, -⟩ := chunksAt_cover (Nat.pos_of_ne_zero hpos) (Nat.zero_le 0) hfirst
    have hnil : chunks n data = [] := List.zipIdx_eq_nil_iff.mp hchunks
    rw [chunks, List.map_eq_nil_iff] at hnil
    exact absurd (hnil ▸ hc) List.not_mem_nil
  | cons ci rest =>
    rw [hchunks] at hall
    obtain ⟨bytes, -, hbuild, -, -⟩ := List.forall₂_cons_left_iff.mp hall
    exact known_chunkArgs.mp (Template.build_eq_ok.mp ⟨bytes, hbuild⟩)

end Usable

end Calibration

/-! ## The requests -/

namespace Session

variable {s : Session} {c : Call} {calls : List Call} {k : ℕ}

/-- The request is answered as is expected of it. -/
def Succeeds (s : Session) (c : Call) : Prop := ∃ data, (s.request c).1 = .ok data

/-- The requests before `k` succeed; request `k`, if there is one, does not. -/
structure FirstError (s : Session) (calls : List Call) (k : ℕ) : Prop where
  before : Along after Succeeds s (calls.take k)
  error : ∀ c, calls[k]? = some c → ¬ ((calls.take k).foldl after s).Succeeds c

theorem exists_firstError (s : Session) (calls : List Call) :
    ∃ k ≤ calls.length, s.FirstError calls k := by
  induction calls generalizing s with
  | nil => exact ⟨0, Nat.le_refl 0, trivial, fun c hc => nomatch hc⟩
  | cons c calls ih =>
    by_cases hc : s.Succeeds c
    · obtain ⟨k, hk, hbefore, herror⟩ := ih (s.after c)
      exact ⟨k + 1, Nat.succ_le_succ hk, ⟨hc, hbefore⟩, herror⟩
    · exact ⟨0, Nat.zero_le _, trivial, fun c' hc' => Option.some.inj hc' ▸ hc⟩

theorem sent_readLoop (ok : List UInt8) : ∀ (polls : List ℕ) (dec : Decoder) (line : Line),
    (readLoop ok dec line polls).2.sent = line.sent
  | [], _, _ => rfl
  | k :: polls, dec, line => by
    rw [readLoop]
    split_ifs
    · exact sent_readLoop ok polls _ _
    · split
      · rfl
      · rfl
      · exact sent_readLoop ok polls _ _

/-- **A request sends its command**, however it ends. -/
theorem after_primary (hs : s.mode = .primary) (c : Call) :
    (s.after c).mode = .primary ∧ (s.after c).line.sent = s.line.sent ++ [encode c.payload] := by
  have hsent := sent_readLoop c.ok c.polls Decoder.new
    ((s.line.arrive c.idle).write (encode c.payload) c.wire)
  unfold after request
  rw [if_neg (not_not.mpr hs)]
  dsimp only
  split
  · next full line heq => exact ⟨hs, by rw [heq] at hsent; exact hsent⟩
  · next e line heq => exact ⟨hs, by rw [heq] at hsent; exact hsent⟩

theorem sendAll_cons_of_succeeds (h : s.Succeeds c) :
    s.sendAll (c :: calls) = (s.after c).sendAll calls := by
  obtain ⟨data, hdata⟩ := h
  rw [sendAll, after]
  rcases hr : s.request c with ⟨r, s'⟩
  rw [hr] at hdata
  obtain rfl : r = .ok data := hdata
  rfl

theorem sendAll_cons_of_not_succeeds (h : ¬ s.Succeeds c) :
    ∃ e, s.sendAll (c :: calls) = (.error e, s.after c) := by
  rw [sendAll, after]
  rcases hr : s.request c with ⟨r, s'⟩
  cases r with
  | ok data => exact absurd ⟨data, by rw [hr]⟩ h
  | error e => exact ⟨e, rfl⟩

/-- **What is sent up to the first error** is the requests up to it, and the first error is what the
transfer ends in. -/
theorem sendAll_of_firstError (hs : s.mode = .primary) (h : s.FirstError calls k) :
    (s.sendAll calls).2.line.sent = s.line.sent ++ (calls.take (k + 1)).map (encode ·.payload) ∧
      ((s.sendAll calls).1 = .ok () ↔ calls.length ≤ k) := by
  induction calls generalizing s k with
  | nil => exact ⟨(List.append_nil _).symm, iff_of_true rfl (Nat.zero_le k)⟩
  | cons c calls ih =>
    obtain ⟨hmode, hsent⟩ := after_primary hs c
    cases k with
    | zero =>
      obtain ⟨e, he⟩ : ∃ e, s.sendAll (c :: calls) = (.error e, s.after c) :=
        sendAll_cons_of_not_succeeds (h.error c rfl)
      rw [he, hsent]
      exact ⟨rfl, iff_of_false (fun h => nomatch h) (Nat.not_succ_le_zero _)⟩
    | succ k =>
      obtain ⟨⟨hc, hbefore⟩, herror⟩ := h
      obtain ⟨hrest, hok⟩ := ih hmode ⟨hbefore, herror⟩
      rw [sendAll_cons_of_succeeds hc, hrest, hsent, List.append_assoc]
      exact ⟨rfl, hok.trans Nat.succ_le_succ_iff.symm⟩

theorem sendAll_secondary (hs : s.mode ≠ .primary) (hcalls : calls ≠ []) :
    ∃ e, s.sendAll calls = (.error e, s) := by
  cases calls with
  | nil => exact absurd rfl hcalls
  | cons c calls =>
    rw [sendAll, request, if_pos hs]
    exact ⟨_, rfl⟩

end Session

/-! ## The transfer is complete -/

namespace Calibration

def requests (canId : UInt8) (t : Template) (id : UInt16) (n : ℕ) (data : List UInt8)
    (replies : ℕ → Reply) : List Call :=
  ((chunksAt n 0 data).map (chunkCommand canId (UInt8.ofNat id.toNat) t)).zipIdx.map
    fun (cmd, i) => (replies i).call cmd

theorem payload_requests (canId : UInt8) (t : Template) (id : UInt16) (n : ℕ) (data : List UInt8)
    (replies : ℕ → Reply) : (requests canId t id n data replies).map Call.payload =
      (chunksAt n 0 data).map (chunkCommand canId (UInt8.ofNat id.toNat) t) := by
  rw [requests, List.map_map]
  exact (List.map_congr_left fun ci _ => rfl).trans (List.zipIdx_map_fst 0 _)

/-- **A transfer is complete, in order, and fails without a trace.** Where the table, the blocking
factor, the identifier or the template is not usable, or the port is the secondary one, it fails and
sends nothing. Otherwise a first request fails or none does, what is sent is the chunks up to it, and
it succeeds when none does. A receiver that reads the commands and appends those that stand where it
is ends with the table. -/
theorem write_complete (s : Session) (canId : UInt8) (template : String) (id : UInt16) (n : ℕ)
    (data : List UInt8) (replies : ℕ → Reply) :
    ((¬ ∃ t, Usable template id n data t) ∨ s.mode ≠ .primary →
      ∃ e, write s canId template id n data replies = (.error e, s)) ∧
    ∀ t, Usable template id n data t → s.mode = .primary →
      (∃ k ≤ (chunksAt n 0 data).length, s.FirstError (requests canId t id n data replies) k) ∧
      (∀ k, s.FirstError (requests canId t id n data replies) k →
        (write s canId template id n data replies).2.line.sent =
          s.line.sent ++ (((chunksAt n 0 data).take (k + 1)).map
            (chunkCommand canId (UInt8.ofNat id.toNat) t)).map encode ∧
        ((write s canId template id n data replies).1 = .ok () ↔
          (chunksAt n 0 data).length ≤ k)) ∧
      ∀ read : List UInt8 → Option (ℕ × List UInt8),
        (∀ c ∈ chunksAt n 0 data, read (chunkCommand canId (UInt8.ofNat id.toNat) t c) = some c) →
        (((chunksAt n 0 data).map (chunkCommand canId (UInt8.ofNat id.toNat) t)).filterMap
          read).foldl appendAt [] = data := by
  have hrequests (t : Template) : (requests canId t id n data replies).length =
      (chunksAt n 0 data).length := by
    rw [requests, List.length_map, List.length_zipIdx, List.length_map]
  have hrun {t : Template} (ht : Usable template id n data t) :
      write s canId template id n data replies = s.sendAll (requests canId t id n data replies) := by
    rw [write, ht.commands canId]
    rfl
  refine ⟨fun h => ?_, fun t ht hs => ⟨?_, fun k hk => ?_, fun read hread => ?_⟩⟩
  · cases hcmds : commands canId template id n data with
    | error e =>
      rw [write, hcmds]
      exact ⟨e, rfl⟩
    | ok cmds =>
      obtain ⟨t, ht⟩ := usable_of_commands hcmds
      have hmode := h.resolve_left (not_not.mpr ⟨t, ht⟩)
      rw [hrun ht]
      refine Session.sendAll_secondary hmode fun hnil => ?_
      have hempty : (chunksAt n 0 data).length = 0 := by rw [← hrequests t, hnil, List.length_nil]
      obtain ⟨c, hc, -⟩ := chunksAt_cover ht.pos (Nat.zero_le 0)
        (show 0 < 0 + data.length by rw [ht.length]; decide)
      exact List.not_mem_nil (List.length_eq_zero_iff.mp hempty ▸ hc)
  · rw [← hrequests t]
    exact s.exists_firstError _
  · obtain ⟨hsent, hok⟩ := Session.sendAll_of_firstError hs hk
    have hpayloads : ((requests canId t id n data replies).take (k + 1)).map (encode ·.payload) =
        (((chunksAt n 0 data).take (k + 1)).map
          (chunkCommand canId (UInt8.ofNat id.toNat) t)).map encode := by
      rw [List.map_take (f := chunkCommand canId _ t), ← payload_requests canId t id n data replies,
        ← List.map_take, List.map_map]
      rfl
    rw [hrun ht, hsent, hpayloads, hok, hrequests t]
    exact ⟨rfl, Iff.rfl⟩
  · have hall : ((chunksAt n 0 data).map (chunkCommand canId (UInt8.ofNat id.toNat) t)).filterMap
        read = chunksAt n 0 data := by
      rw [List.filterMap_map]
      exact (List.filterMap_congr fun c hc => hread c hc).trans List.filterMap_some
    rw [hall, foldl_appendAt_chunksAt ht.pos]

/-- The template of the AFR table. -/
def afrTemplate : Template :=
  ⟨[.literal [0x74], .var "tsCanId", .pageId, .offset, .count, .value]⟩

/-- The offset and the values of a command of that template, if it has as many as it counts. -/
def readCommand : List UInt8 → Option (ℕ × List UInt8)
  | _ :: _ :: _ :: o1 :: o2 :: c1 :: c2 :: values =>
    if values.length = beNat [c1, c2] then some (beNat [o1, o2], values) else none
  | _ => none

theorem readCommand_chunkCommand (canId id : UInt8) {c : ℕ × List UInt8} (hoff : c.1 < 2 ^ 16)
    (hlen : c.2.length < 2 ^ 16) : readCommand (chunkCommand canId id afrTemplate c) = some c := by
  have hvalue {n : ℕ} (h : n < 2 ^ 16) : beNat [UInt8.ofNat (n / 256), UInt8.ofNat n] = n := by
    rw [← beBytes_two, beNat_beBytes]
    exact Nat.mod_eq_of_lt h
  have hcmd : chunkCommand canId id afrTemplate c = 0x74 :: canId :: id :: UInt8.ofNat (c.1 / 256) ::
      UInt8.ofNat c.1 :: UInt8.ofNat (c.2.length / 256) :: UInt8.ofNat c.2.length :: c.2 := by
    simp [chunkCommand, afrTemplate, partBytes, beBytes_two]
  rw [hcmd, readCommand, hvalue hoff, hvalue hlen, if_pos rfl]

/-- A table of the source, and an ECU that is silent. -/
def afrTable : List UInt8 := List.replicate 1024 147

def silent : Reply := ⟨[], [], 0, []⟩

theorem usable_afrTable : Usable "t\\$tsCanId%2i%2o%2c%v" 2 256 afrTable afrTemplate where
  length := List.length_replicate
  pos := by decide
  le := by decide
  multiple := by decide
  id_lt := by decide
  parse := by decide +kernel
  known := by
    intro name h
    simpa [afrTemplate] using h

theorem write_complete_afrTable :
    (write .fresh 0 "t\\$tsCanId%2i%2o%2c%v" 2 256 afrTable fun _ => silent).2.line.sent =
        (((chunksAt 256 0 afrTable).take (0 + 1)).map (chunkCommand 0 2 afrTemplate)).map encode ∧
      (((chunksAt 256 0 afrTable).map (chunkCommand 0 2 afrTemplate)).filterMap
        readCommand).foldl appendAt [] = afrTable := by
  obtain ⟨-, hsent, hreceived⟩ := (write_complete .fresh 0 "t\\$tsCanId%2i%2o%2c%v" 2 256 afrTable
    fun _ => silent).2 afrTemplate usable_afrTable rfl
  refine ⟨(hsent 0 ⟨trivial, fun c hc hok => ?_⟩).1.trans (List.nil_append _),
    hreceived readCommand fun c hc => ?_⟩
  · -- the first request ends in a timeout
    obtain ⟨data, hdata⟩ := hok
    have hpolls : c.polls = [] := by
      obtain ⟨ci, -, rfl⟩ := List.mem_map.mp (List.mem_of_getElem? hc)
      rfl
    rw [List.take_zero, List.foldl_nil, Session.request, if_neg (by decide), hpolls] at hdata
    exact nomatch hdata
  · obtain ⟨-, hle, -⟩ := mem_chunksAt (show 0 < 256 by decide) hc
    have hlen : afrTable.length = 1024 := List.length_replicate
    exact readCommand_chunkCommand 0 2 (by omega) (by omega)

end Calibration

end RustyTune.EcuProto
