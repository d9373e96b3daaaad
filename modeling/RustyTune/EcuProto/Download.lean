import RustyTune.EcuProto.Command
import Mathlib.Data.List.Forall2

/-!
# Downloading a page over the session

`CommandSet.readPage` asks for the chunks of a page with commands built from the page's template,
through `Session.request` and the decoder. At the other end stands a `Responder`, which may do
anything; a `Serves` responder answers every read with the bytes asked for, in time.

* `drained`: the bytes that a list of polls reads. **`readLoop_inTime`**: an answer that is drained
  in time is read whole, and nothing stays on the line.
* `Tiles a b chunks`: the chunks follow one another from `a` to `b`.
* **`readPage_exact`**: from a serving responder the page's content comes back, by requests that
  tile the page; from any responder a page that comes back has the page's size.
-/

namespace RustyTune.EcuProto

open Decoder

/-! ## Answers in time -/

/-- The bytes that the polls read, with `buffered` bytes arrived and `inFlight` under way. -/
def drained : ℕ → ℕ → List ℕ → ℕ
  | _, _, [] => 0
  | buffered, inFlight, k :: polls =>
    let arrived := buffered + min k inFlight
    min 256 arrived + drained (arrived - min 256 arrived) (inFlight - min k inFlight) polls

/-- An answer of `n` bytes is read before the deadline. -/
def InTime (n : ℕ) (polls : List ℕ) : Prop := n ≤ drained 0 n polls

instance (n : ℕ) (polls : List ℕ) : Decidable (InTime n polls) := inferInstanceAs (Decidable (_ ≤ _))

namespace Line

@[simp] theorem length_buffer_arrive (l : Line) (k : ℕ) :
    (l.arrive k).buffer.length = l.buffer.length + min k l.inFlight.length := by
  simp [arrive, List.length_take]

@[simp] theorem length_inFlight_arrive (l : Line) (k : ℕ) :
    (l.arrive k).inFlight.length = l.inFlight.length - min k l.inFlight.length := by
  simp only [arrive, List.length_drop]
  omega

end Line

/-- **An answer that the polls drain is read whole**, and nothing stays on the line. `u` is what
earlier polls have read of it. -/
theorem readLoop_inTime {w : List UInt8} (hw : IsWire w) {e : Event} (hver : verdict w = e)
    (ok : List UInt8) :
    ∀ (polls : List ℕ) (u : List UInt8) (line : Line), u ++ line.pending = w →
      u.length < w.length →
      line.pending.length ≤ drained line.buffer.length line.inFlight.length polls →
      readLoop ok (new.feed u).1 line polls =
        (eventResult ok e, ⟨line.sent, [], []⟩)
  | [], u, line, hu, hlt, hd => by
    have : u.length + line.pending.length = w.length := by rw [← hu, List.length_append]
    simp only [drained] at hd
    omega
  | k :: polls, u, line, hu, hlt, hd => by
    have hlen : u.length + line.pending.length = w.length := by rw [← hu, List.length_append]
    have hnone := feed_part hw ⟨line.pending, hu⟩ hlt
    have hpend : u ++ (line.arrive k).pending = w := by rw [Line.pending_arrive, hu]
    simp only [drained, ← Line.length_buffer_arrive, ← Line.length_inFlight_arrive] at hd
    rw [show line.sent = (line.arrive k).sent from rfl]
    rw [← Line.pending_arrive line k] at hd hlen
    unfold readLoop
    set line' := line.arrive k
    by_cases hb : line'.buffer = []
    · simp only [hb, if_true]
      refine readLoop_inTime hw hver ok polls u line' hpend hlt ?_
      simpa [hb] using hd
    · simp only [hb, if_false]
      set chunk := line'.buffer.take 256 with hchunk
      have hclen : chunk.length = min 256 line'.buffer.length := List.length_take
      have hfeed : (new.feed u).1.feed chunk = new.feed (u ++ chunk) :=
        (feed_append (Prod.ext rfl hnone) chunk).symm
      have hsplit : (u ++ chunk) ++ line'.afterRead.pending = w := by
        rw [List.append_assoc, hchunk, Line.pending_afterRead, hpend]
      have hrest : chunk.length + line'.afterRead.pending.length = line'.pending.length := by
        rw [← Line.pending_afterRead line', List.length_append]
      by_cases hlt' : (u ++ chunk).length < w.length
      · -- still inside the frame
        have hpart := feed_part hw ⟨_, hsplit⟩ hlt'
        rw [hfeed, show new.feed (u ++ chunk) = ((new.feed (u ++ chunk)).1, none) from
          Prod.ext rfl hpart]
        refine readLoop_inTime hw hver ok polls (u ++ chunk) line'.afterRead hsplit hlt' ?_
        have hbuf : line'.afterRead.buffer.length =
            line'.buffer.length - min 256 line'.buffer.length := by
          simp only [Line.afterRead, List.length_drop]
          omega
        rw [hbuf, show line'.afterRead.inFlight = line'.inFlight from rfl]
        omega
      · -- the frame ends in this chunk, and the line with it
        have hnil : line'.afterRead.pending = [] := by
          rw [← List.length_eq_zero_iff]
          have := congrArg List.length hsplit
          rw [List.length_append] at this
          omega
        rw [hnil, List.append_nil] at hsplit
        have hev : new.feed (u ++ chunk) = ((new.feed w).1, some e) := by
          rw [hsplit]
          exact Prod.ext rfl ((feed_wire hw).trans (congrArg some hver))
        obtain ⟨hbuf, hflight⟩ := List.append_eq_nil_iff.mp hnil
        rw [hfeed, hev]
        simp only [Line.afterRead] at hbuf hflight ⊢
        cases e with
        | frame payload => simp only [hbuf, hflight]
        | crcMismatch => simp only [Line.flushInput, hflight, eventResult]

/-- A session with nothing on its line. -/
structure Session.Ready (s : Session) : Prop where
  primary : s.mode = .primary
  clean : s.line.buffer = [] ∧ s.line.inFlight = []

/-- **A request answered in time with success**: its data comes back, the command has been written,
and the session is ready again. -/
theorem Session.Ready.request {s : Session} (hs : s.Ready) (c : Call) (rc : UInt8)
    (data : List UInt8) (hrc : c.ok.contains rc) (hmax : data.length < MAX_PAYLOAD)
    (hwire : c.wire = encode (rc :: data)) (htime : InTime (encode (rc :: data)).length c.polls) :
    s.request c = (.ok data, ⟨.primary, ⟨s.line.sent ++ [encode c.payload], [], []⟩⟩) := by
  have hp : Plausible (rc :: data) := ⟨List.cons_ne_nil _ _, hmax⟩
  obtain ⟨mode, sent, buffer, inFlight⟩ := s
  obtain ⟨rfl, rfl, rfl⟩ := hs
  have hread := readLoop_inTime (isWire_encode hp) (verdict_encode hp) c.ok c.polls []
    ⟨sent ++ [encode c.payload], [], encode (rc :: data)⟩ rfl
    (by rw [(isWire_encode hp).length]; simp) htime
  have hline : (Line.arrive ⟨sent, [], []⟩ c.idle).write (encode c.payload) c.wire =
      ⟨sent ++ [encode c.payload], [], encode (rc :: data)⟩ := by
    simp [Line.arrive, Line.write, hwire]
  unfold Session.request
  simp only [ne_eq, not_true_eq_false, if_false, hline]
  rw [show (new.feed []).1 = new from rfl] at hread
  rw [hread, eventResult, List.headD_cons, if_pos hrc]
  rfl

/-! ## The other end -/

/-- What stands at the other end of the line: a state and, for every command written, the answer,
its bytes on the line and when they arrive. -/
structure Responder (ρ : Type) where
  answer : ρ → List UInt8 → List UInt8
  wire : ρ → List UInt8 → List UInt8
  idle : ρ → List UInt8 → ℕ
  polls : ρ → List UInt8 → List ℕ
  next : ρ → List UInt8 → ρ

variable {ρ : Type}

/-- One call of `request` against the responder. -/
def Session.exchange (r : Responder ρ) (s : Session × ρ) (payload ok : List UInt8) :
    Except ProtoError (List UInt8) × (Session × ρ) :=
  let cmd := encode payload
  let res := s.1.request
    ⟨payload, ok, r.answer s.2 cmd, r.wire s.2 cmd, r.idle s.2 cmd, r.polls s.2 cmd⟩
  (res.1, (res.2, r.next s.2 cmd))

namespace CommandSet

def readChunk (set : CommandSet) (r : Responder ρ) (page : PageDef) (s : Session × ρ)
    (offset count : ℕ) : Except ProtoError (List UInt8) × (Session × ρ) :=
  match page.read.build (set.readArgs page offset count) with
  | .error e => (.error e, s)
  | .ok cmd => Session.exchange r s cmd [RC_OK]

/-- `read_page`: download a whole page, chunked by the blocking factor. -/
def readPage (set : CommandSet) (r : Responder ρ) (pageIdx : ℕ) (s : Session × ρ) :
    Except ProtoError (List UInt8) × (Session × ρ) :=
  match set.pages[pageIdx]? with
  | none => (.error (set.commands.outOfRange pageIdx), s)
  | some page =>
    readFrom (set.readChunk r page) page.size.toNat set.blockingFactor page.size.toNat 0 [] s

end CommandSet

/-! ## The requests of a download -/

/-- The chunks (offset and count) follow one another from `a` to `b`, none of them empty. -/
def Tiles : ℕ → ℕ → List (ℕ × ℕ) → Prop
  | a, b, [] => a = b
  | a, b, (offset, count) :: chunks => offset = a ∧ 0 < count ∧ Tiles (a + count) b chunks

theorem Tiles.append_one {a b count : ℕ} {chunks : List (ℕ × ℕ)} (h : Tiles a b chunks)
    (hpos : 0 < count) : Tiles a (b + count) (chunks ++ [(b, count)]) := by
  induction chunks generalizing a with
  | nil =>
    obtain rfl : a = b := h
    exact ⟨rfl, hpos, rfl⟩
  | cons c chunks ih =>
    obtain ⟨h1, h2, h3⟩ := h
    exact ⟨h1, h2, ih h3⟩

section Loop

variable {σ : Type} (request : σ → ℕ → ℕ → Except ProtoError (List UInt8) × σ)

/-- **A page that is returned has the page's size**, whatever is asked and answered. -/
theorem readFrom_length {size bf : ℕ} (hbf : 0 < bf) : ∀ (fuel offset : ℕ) (out : List UInt8)
    (s : σ), out.length = offset → offset ≤ size → size ≤ offset + fuel →
      ∀ bytes, (readFrom request size bf fuel offset out s).1 = .ok bytes → bytes.length = size := by
  intro fuel
  induction fuel with
  | zero =>
    intro offset out s hout hoff hfuel bytes hb
    rw [← Except.ok.inj hb]
    omega
  | succ fuel ih =>
    intro offset out s hout hoff hfuel
    rw [readFrom]
    split_ifs with hlt
    · rcases hreq : request s (wireOffset offset) (min (size - offset) bf) with ⟨r, s'⟩
      simp only [hreq]
      cases r with
      | error e =>
        intro bytes hb
        cases hb
      | ok data =>
        dsimp only
        split_ifs with hshort
        · intro bytes hb
          cases hb
        · rw [ne_eq, not_not] at hshort
          refine ih _ _ s' ?_ (by omega) (by omega)
          rw [List.length_append, hshort, hout]
    · intro bytes hb
      rw [← Except.ok.inj hb]
      omega

end Loop

/-- **A responder that serves the page from `ram`**: it answers every read command of the page with
the return code and the bytes asked for, and its answers are read in time. -/
structure Serves (set : CommandSet) (page : PageDef) (ram : List UInt8) (r : Responder ρ) : Prop where
  answer : ∀ e offset count cmd, offset < 2 ^ 16 → count ≤ set.blockingFactor →
    offset + count ≤ ram.length → page.read.build (set.readArgs page offset count) = .ok cmd →
    r.answer e (encode cmd) = RC_OK :: slice ram offset count
  wire : ∀ e cmd, r.wire e cmd = encode (r.answer e cmd)
  inTime : ∀ e cmd, InTime (r.wire e cmd).length (r.polls e cmd)

/-- The read template of the page asks only for what a read gives it. -/
def CommandSet.Readable (set : CommandSet) (page : PageDef) : Prop :=
  page.read.Known (set.readArgs page 0 0)

instance (set : CommandSet) (page : PageDef) : Decidable (set.Readable page) :=
  inferInstanceAs (Decidable (Template.Known _ _))

theorem CommandSet.known_readArgs {set : CommandSet} {page : PageDef} {offset count : ℕ} :
    page.read.Known (set.readArgs page offset count) ↔ set.Readable page :=
  forall₂_congr fun p _ => by cases p <;> rfl

/-- What a download of a served page has done when it has come to `offset`: its requests, built from
the template, tile the page so far, and the line is ready for the next. -/
def Downloaded (set : CommandSet) (page : PageDef) (sent : List (List UInt8)) (offset : ℕ)
    (s : Session) : Prop :=
  ∃ chunks cmds, Tiles 0 offset chunks ∧ (∀ c ∈ chunks, c.2 ≤ set.blockingFactor) ∧
    List.Forall₂ (fun c cmd => page.read.build (set.readArgs page c.1 c.2) = .ok cmd) chunks cmds ∧
    s = ⟨.primary, ⟨sent ++ cmds.map encode, [], []⟩⟩

theorem Serves.readChunk {set : CommandSet} {page : PageDef} {ram : List UInt8} {r : Responder ρ}
    (hr : Serves set page ram r) (h16 : ram.length ≤ 2 ^ 16) (hbf : set.blockingFactor < MAX_PAYLOAD)
    (hread : set.Readable page) {sent : List (List UInt8)} {s : Session × ρ} {offset : ℕ}
    (hs : Downloaded set page sent offset s.1) (hlt : offset < ram.length) :
    let count := min (ram.length - offset) set.blockingFactor
    (set.readChunk r page s (wireOffset offset) count).1 = .ok (slice ram offset count) ∧
      Downloaded set page sent (offset + count)
        (set.readChunk r page s (wireOffset offset) count).2.1 := by
  intro count
  have hpos := set.blockingFactor_pos
  obtain ⟨chunks, cmds, htiles, hcount, hcmds, hsess⟩ := hs
  have hoff : wireOffset offset = offset := Nat.mod_eq_of_lt (by omega)
  obtain ⟨cmd, hcmd⟩ : ∃ cmd, page.read.build (set.readArgs page offset count) = .ok cmd :=
    Template.build_eq_ok.mpr (CommandSet.known_readArgs.mpr hread)
  have hans := hr.answer s.2 offset count cmd (by omega) (by omega) (by omega) hcmd
  have hready : s.1.Ready := by rw [hsess]; exact ⟨rfl, rfl, rfl⟩
  have hlen : (slice ram offset count).length = count := slice_length (by omega)
  have hreq := hready.request ⟨cmd, [RC_OK], r.answer s.2 (encode cmd), r.wire s.2 (encode cmd),
      r.idle s.2 (encode cmd), r.polls s.2 (encode cmd)⟩ RC_OK (slice ram offset count) (by simp)
    (by omega) (by rw [hr.wire, hans]) (by rw [← hans, ← hr.wire]; exact hr.inTime s.2 _)
  rw [CommandSet.readChunk, hoff, hcmd]
  simp only [Session.exchange, hreq]
  refine ⟨trivial, chunks ++ [(offset, count)], cmds ++ [cmd], htiles.append_one (by omega), ?_,
    List.rel_append hcmds (List.Forall₂.cons hcmd .nil), ?_⟩
  · intro c hc
    rcases List.mem_append.mp hc with hc | hc
    · exact hcount c hc
    · obtain rfl := List.mem_singleton.mp hc
      exact Nat.min_le_right _ _
  · rw [hsess, List.map_append, List.map_singleton, List.append_assoc]

/-- **Page download is exact.** From a responder that serves the page, a ready session gets the
page's content, by requests that tile it, built from its template; and from any responder a page
that comes back has exactly the page's size. -/
theorem readPage_exact (set : CommandSet) (pageIdx : ℕ) (page : PageDef)
    (hpage : set.pages[pageIdx]? = some page) (hsize : page.size.toNat ≤ 65536)
    (hbf : set.blockingFactor ≤ 2047) :
    (∀ (ram : List UInt8) (r : Responder ρ) (s : Session) (e : ρ),
      ram.length = page.size.toNat → set.Readable page → Serves set page ram r → s.Ready →
      (set.readPage r pageIdx (s, e)).1 = .ok ram ∧
      ∃ chunks cmds, Tiles 0 page.size.toNat chunks ∧
        List.Forall₂ (fun c cmd => page.read.build (set.readArgs page c.1 c.2) = .ok cmd)
          chunks cmds ∧
        (set.readPage r pageIdx (s, e)).2.1.line.sent = s.line.sent ++ cmds.map encode) ∧
    (∀ (r : Responder ρ) (s : Session) (e : ρ) (bytes : List UInt8),
      (set.readPage r pageIdx (s, e)).1 = .ok bytes → bytes.length = page.size.toNat) := by
  simp only [CommandSet.readPage, hpage]
  constructor
  · rintro ram r ⟨mode, sent, buffer, inFlight⟩ e hram hread hr ⟨rfl, rfl, rfl⟩
    rw [← hram]
    obtain ⟨hok, hdone⟩ := readFrom_run (set.readChunk r page) ram
      set.blockingFactor_pos (fun offset s => Downloaded set page sent offset s.1)
      (fun s offset hs hlt =>
        hr.readChunk (by omega) (by unfold MAX_PAYLOAD; omega) hread hs hlt)
      ram.length 0 (⟨.primary, ⟨sent, [], []⟩⟩, e)
      ⟨[], [], rfl, by simp, .nil, by simp⟩ (Nat.zero_le _) (by omega)
    obtain ⟨chunks, cmds, htiles, -, hcmds, hsess⟩ := hdone
    exact ⟨hok, chunks, cmds, htiles, hcmds, congrArg (·.line.sent) hsess⟩
  · intro r s e bytes hb
    exact readFrom_length _ set.blockingFactor_pos _ 0 [] (s, e) rfl (Nat.zero_le _) (by omega) bytes hb

/-- A page of six bytes, read in chunks of four. -/
def sixBytes : PageDef :=
  ⟨[0, 1], ⟨[.literal [0x70], .pageId, .offset, .count]⟩,
    ⟨[.literal [0x4D], .pageId, .offset, .count, .value]⟩, ⟨[.literal [0x64], .pageId]⟩,
    ⟨[.literal [0x62], .pageId]⟩, 6⟩

def sixByteSet : CommandSet := ⟨[sixBytes], 4, by decide, 0⟩

/-- The set is what the command texts of the tests give. -/
example : CommandSet.new ⟨["\\$tsCanId\\x01"], ["p%2i%2o%2c"], ["M%2i%2o%2c%v"], ["d%2i"], ["b%2i"], [6],
    4, 0⟩ = .ok sixByteSet := by decide +kernel

/-- A responder that takes offset and count from their places in the command, and answers at
once. -/
def honest (ram : List UInt8) : Responder Unit :=
  let answer (cmd : List UInt8) := RC_OK :: slice ram (leNat (slice cmd 5 2)) (leNat (slice cmd 7 2))
  { answer := fun _ => answer
    wire := fun _ cmd => encode (answer cmd)
    idle := fun _ _ => 0
    polls := fun _ cmd => [(encode (answer cmd)).length]
    next := fun _ _ => () }

theorem honest_serves {ram : List UInt8} (hlen : ram.length ≤ 249) :
    Serves sixByteSet sixBytes ram (honest ram) where
  answer := by
    intro _ offset count cmd hoff hcount hin hcmd
    obtain rfl : [0x70] ++ ([0, 1] ++ (leBytes 2 (UInt16.ofNat offset).toNat ++
        (leBytes 2 (UInt16.ofNat count).toNat ++ []))) = cmd := Except.ok.inj hcmd
    have h1 : (UInt16.ofNat offset).toNat = offset := by
      rw [UInt16.toNat_ofNat']; exact Nat.mod_eq_of_lt hoff
    have h2 : (UInt16.ofNat count).toNat = count := by
      rw [UInt16.toNat_ofNat']; exact Nat.mod_eq_of_lt (by omega)
    have h3 : leNat (leBytes 2 offset) = offset := by
      rw [leNat_leBytes]; exact Nat.mod_eq_of_lt (by omega)
    have h4 : leNat (leBytes 2 count) = count := by
      rw [leNat_leBytes]; exact Nat.mod_eq_of_lt (by omega)
    rw [h1, h2]
    change RC_OK :: slice ram (leNat (leBytes 2 offset)) (leNat (leBytes 2 count)) = _
    rw [h3, h4]
  wire _ _ := rfl
  inTime := by
    intro _ cmd
    have hs : (slice ram (leNat (slice cmd 5 2)) (leNat (slice cmd 7 2))).length ≤ ram.length := by
      simp only [slice, List.length_take, List.length_drop]
      omega
    have hw : (encode (RC_OK :: slice ram (leNat (slice cmd 5 2)) (leNat (slice cmd 7 2)))).length ≤
        256 := by
      simp only [encode, encodeWith, List.length_append, length_beBytes, List.length_cons]
      omega
    simp only [InTime, honest, drained]
    omega

theorem readPage_exact_sixBytes :
    (sixByteSet.readPage (honest [1, 2, 3, 4, 5, 6]) 0 (.fresh, ())).1 = .ok [1, 2, 3, 4, 5, 6] :=
  ((readPage_exact sixByteSet 0 sixBytes rfl (by decide) (by decide)).1 [1, 2, 3, 4, 5, 6]
    (honest [1, 2, 3, 4, 5, 6]) .fresh () rfl (by decide) (honest_serves (by decide))
    ⟨rfl, rfl, rfl⟩).1

end RustyTune.EcuProto
