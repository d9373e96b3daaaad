import RustyTune.EcuProto.Download
import RustyTune.Lib.XRat
import RustyTune.Server.Comms
import RustyTune.TuneModel.Sized
import Mathlib.Algebra.Order.BigOperators.Group.List

/-!
# The configured geometry and the wire

Page sizes and blocking factor come from the definition; offset, count and envelope length go out
with 16 bits, and the decoder takes answers of `MAX_PAYLOAD` bytes at most.

* `pageCommands`: the page command set of a header.
* `readChunks`: the chunks a download asks for. `readFrom_asks`: no download asks for another, and
  one whose chunks all come asks for each of them.
* `ReadFits`, `WriteFits`: nothing of a request is cut, and its answer is not taken for noise.
* **`wireFits_iff`**: exactly which accepted headers keep every request of every download and of
  every flush within these limits.
-/

namespace RustyTune.Server

open TsIni TuneModel EcuProto

/-- Build the page command set from the header; the blocking factor is cast to 16 bits. -/
def pageCommands (h : ConstantsHeader) : Except ProtoError CommandSet :=
  CommandSet.new
    { identifiers := h.pageIdentifiers
      pageRead := h.pageReadCommand
      chunkWrite := h.pageChunkWrite
      crcCheck := h.crc32CheckCommand
      burn := h.burnCommand
      sizes := h.pageSizes
      blockingFactor := (h.blockingFactor.getD 251).toUInt16
      canId := 0 }

/-! ## What a download asks for -/

/-- The chunks from `offset` on, `fuel` of them at most. -/
def readChunksFrom (size bf : ℕ) : ℕ → ℕ → List (ℕ × ℕ)
  | 0, _ => []
  | fuel + 1, offset =>
    if offset < size then
      (offset, min (size - offset) bf) :: readChunksFrom size bf fuel (offset + min (size - offset) bf)
    else []

/-- The chunks (offset and count) a download of a page asks for, one after the other. -/
def readChunks (size bf : ℕ) : List (ℕ × ℕ) := readChunksFrom size bf size 0

section Asked

variable {σ : Type} (request : σ → ℕ → ℕ → Except ProtoError (List UInt8) × σ)

/-- The request, with a record of what has been asked for. -/
def recorded (s : σ × List (ℕ × ℕ)) (offset count : ℕ) :
    Except ProtoError (List UInt8) × (σ × List (ℕ × ℕ)) :=
  ((request s.1 offset count).1, ((request s.1 offset count).2, s.2 ++ [(offset, count)]))

/-- **What a download asks for**: an initial part of the chunks, their offsets cast to 16 bits; all of
them, if every request yields a chunk of its length. -/
theorem readFrom_asks (size bf : ℕ) : ∀ (fuel offset : ℕ) (out : List UInt8)
    (s : σ × List (ℕ × ℕ)),
    ∃ chunks, chunks <+: readChunksFrom size bf fuel offset ∧
      (readFrom (recorded request) size bf fuel offset out s).2.2 =
        s.2 ++ chunks.map (fun c => (wireOffset c.1, c.2)) ∧
      ((∀ s offset count, ∃ data, (request s offset count).1 = .ok data ∧ data.length = count) →
        chunks = readChunksFrom size bf fuel offset) := by
  intro fuel
  induction fuel with
  | zero => exact fun offset out s => ⟨[], List.nil_prefix, by simp [readFrom], fun _ => rfl⟩
  | succ fuel ih =>
    intro offset out s
    rw [readFrom, readChunksFrom]
    split_ifs with hlt
    · set count := min (size - offset) bf
      simp only [recorded]
      rcases hreq : request s.1 (wireOffset offset) count with ⟨r, s'⟩
      cases r with
      | error e =>
        refine ⟨[(offset, count)], ⟨_, rfl⟩, by simp, fun hall => ?_⟩
        obtain ⟨data, hdata, -⟩ := hall s.1 (wireOffset offset) count
        rw [hreq] at hdata
        cases hdata
      | ok data =>
        by_cases hshort : data.length = count
        · simp only [hshort, ne_eq, not_true_eq_false, if_false]
          obtain ⟨chunks, hpre, hrun, hall⟩ := ih
            (offset + count) (out ++ data) (s', s.2 ++ [(wireOffset offset, count)])
          refine ⟨(offset, count) :: chunks, List.cons_prefix_cons.mpr ⟨rfl, hpre⟩, ?_, fun h => ?_⟩
          · rw [List.map_cons, hrun, List.append_assoc, List.singleton_append]
          · rw [hall h]
        · refine ⟨[(offset, count)], ⟨_, rfl⟩, by simp [hshort], fun hall => ?_⟩
          obtain ⟨data', hdata', hlen⟩ := hall s.1 (wireOffset offset) count
          rw [hreq] at hdata'
          rw [Except.ok.inj hdata'] at hshort
          exact absurd hlen hshort
    · exact ⟨[], List.nil_prefix, by simp, fun _ => rfl⟩

end Asked

theorem mem_readChunksFrom {size bf : ℕ} (hbf : 0 < bf) : ∀ {fuel offset : ℕ} {c : ℕ × ℕ},
    c ∈ readChunksFrom size bf fuel offset →
      (∃ k, c.1 = offset + k * bf) ∧ c.1 < size ∧ c.2 ≤ min size bf
  | 0, offset, c, h => by simp [readChunksFrom] at h
  | fuel + 1, offset, c, h => by
    rw [readChunksFrom] at h
    split_ifs at h with hlt
    · rcases List.mem_cons.mp h with rfl | h
      · exact ⟨⟨0, by simp⟩, hlt, by dsimp only; omega⟩
      · by_cases hlast : size - offset ≤ bf
        · -- the last chunk ends the page
          obtain ⟨-, hlt', -⟩ := mem_readChunksFrom hbf h
          obtain ⟨⟨k, hk⟩, -, -⟩ := mem_readChunksFrom hbf h
          omega
        · rw [Nat.min_eq_right (by omega)] at h
          obtain ⟨⟨k, hk⟩, hlt', hle⟩ := mem_readChunksFrom hbf h
          exact ⟨⟨k + 1, by rw [hk, Nat.add_mul]; omega⟩, hlt', hle⟩
    · simp at h

theorem first_mem_readChunks {size : ℕ} (hpos : 0 < size) (bf : ℕ) :
    (0, min size bf) ∈ readChunks size bf := by
  obtain ⟨n, rfl⟩ : ∃ n, size = n + 1 := ⟨size - 1, by omega⟩
  rw [readChunks, readChunksFrom, if_pos hpos]
  exact List.mem_cons_self

/-- Every multiple of the blocking factor inside the page is asked for. -/
theorem mem_readChunksFrom_of_lt (size : ℕ) {bf : ℕ} (hbf : 0 < bf) : ∀ (k fuel offset : ℕ),
    offset + k * bf < size → size ≤ offset + fuel →
      ∃ count, (offset + k * bf, count) ∈ readChunksFrom size bf fuel offset
  | k, 0, offset, hlt, hf => by omega
  | 0, fuel + 1, offset, hlt, hf => by
    rw [readChunksFrom, if_pos (by omega), Nat.zero_mul, Nat.add_zero]
    exact ⟨_, List.mem_cons_self⟩
  | k + 1, fuel + 1, offset, hlt, hf => by
    rw [Nat.add_mul, Nat.one_mul] at hlt ⊢
    rw [readChunksFrom, if_pos (by omega), Nat.min_eq_right (by omega)]
    obtain ⟨count, hmem⟩ := mem_readChunksFrom_of_lt size hbf k fuel (offset + bf) (by omega)
      (by omega)
    refine ⟨count, List.mem_cons_of_mem _ ?_⟩
    rwa [show offset + (k * bf + bf) = offset + bf + k * bf by omega]

/-! ## What is cut -/

/-- The number goes out with 16 bits as it is. -/
def Fits16 (n : ℕ) : Prop := n % 2 ^ 16 = n

instance (n : ℕ) : Decidable (Fits16 n) := inferInstanceAs (Decidable (_ = _))

theorem fits16_iff {n : ℕ} : Fits16 n ↔ n < 2 ^ 16 :=
  ⟨fun h => h ▸ Nat.mod_lt _ (by norm_num), Nat.mod_eq_of_lt⟩

/-- Nothing of the read of the chunk `c` by the command `cmd` is cut, and its answer is one the
decoder takes. -/
structure ReadFits (c : ℕ × ℕ) (cmd : List UInt8) : Prop where
  offset : Fits16 c.1
  count : Fits16 c.2
  envelope : Fits16 cmd.length
  answer : 1 + c.2 ≤ MAX_PAYLOAD

/-- Nothing of the write of the piece `w` by the command `cmd` is cut. -/
structure WriteFits (w : ℕ × List UInt8) (cmd : List UInt8) : Prop where
  offset : Fits16 w.1
  count : Fits16 w.2.length
  envelope : Fits16 cmd.length

variable {F : Type}

/-- Every read of every download fits, and every write of every flush: of any state of the tune, for
any page, any of its chunks. -/
structure WireFits (df : IniDef F) (set : CommandSet) : Prop where
  reads : ∀ page ∈ set.pages, ∀ c ∈ readChunks page.size.toNat set.blockingFactor, ∀ cmd,
    page.read.build (set.readArgs page c.1 c.2) = .ok cmd → ReadFits c cmd
  writes : ∀ t : Tune F, t.df = df → t.Sized → t.loaded → ∀ i page, set.pages[i]? = some page →
    ∀ w ∈ chunkWrites set.commands (t.dirtySpans i SPAN_MERGE_GAP), ∀ cmd,
      page.chunkWrite.build (set.writeArgs page w.1 w.2) = .ok cmd → WriteFits w cmd

/-- The write template of the page asks only for what a write gives it. -/
def Writable (set : CommandSet) (page : PageDef) : Prop :=
  page.chunkWrite.Known (set.writeArgs page 0 [])

theorem known_writeArgs {set : CommandSet} {page : PageDef} {offset : ℕ} {values : List UInt8} :
    page.chunkWrite.Known (set.writeArgs page offset values) ↔ Writable set page :=
  forall₂_congr fun p _ => by cases p <;> rfl

/-- The bytes of a read command. -/
def readWidth (set : CommandSet) (page : PageDef) : ℕ := page.read.width (set.readArgs page 0 0)

/-- The bytes of a write command with `n` values. -/
def writeWidth (set : CommandSet) (page : PageDef) (n : ℕ) : ℕ :=
  page.chunkWrite.width (set.writeArgs page 0 (List.replicate n 0))

theorem width_readArgs {set : CommandSet} {page : PageDef} {offset count : ℕ} :
    page.read.width (set.readArgs page offset count) = readWidth set page :=
  congrArg List.sum (List.map_congr_left fun p _ => by cases p <;> rfl)

theorem width_writeArgs {set : CommandSet} {page : PageDef} {offset : ℕ} {values : List UInt8} :
    page.chunkWrite.width (set.writeArgs page offset values) =
      writeWidth set page values.length :=
  congrArg List.sum (List.map_congr_left fun p _ => by
    cases p <;> simp [Part.width, CommandSet.writeArgs])

theorem writeWidth_mono {set : CommandSet} {page : PageDef} {m n : ℕ} (h : m ≤ n) :
    writeWidth set page m ≤ writeWidth set page n := by
  refine List.sum_le_sum fun p _ => ?_
  cases p <;> simp [Part.width, CommandSet.writeArgs, h]

/-- **The limits of a page**: the last chunk of a download starts within 16 bits, the longest one has
an answer the decoder takes, the longest commands fit an envelope, and a write reaches the last byte
of the page. A template that cannot be built sends nothing. -/
structure Within (set : CommandSet) (page : PageDef) : Prop where
  lastRead : set.Readable page → (page.size.toNat - 1) / set.blockingFactor * set.blockingFactor < 2 ^ 16
  answer : set.Readable page → min page.size.toNat set.blockingFactor < MAX_PAYLOAD
  readEnvelope : set.Readable page → readWidth set page < 2 ^ 16
  lastWrite : Writable set page → page.size.toNat ≤ 2 ^ 16
  writeEnvelope : Writable set page →
    writeWidth set page (min page.size.toNat set.blockingFactor) < 2 ^ 16

/-! ## Spans of a page -/

theorem foldl_spanStep_equal (gap n : ℕ) (a : UInt8) : ∀ (start : ℕ) (spans : List (ℕ × ℕ)),
    ((List.replicate n (a, a)).zipIdx start).foldl (spanStep gap) spans = spans := by
  induction n with
  | zero => exact fun _ _ => rfl
  | succ n ih =>
    intro start spans
    have hstep : spanStep gap spans ((a, a), start) = spans := by simp [spanStep]
    rw [List.replicate_succ, List.zipIdx_cons, List.foldl_cons, hstep, ih]

theorem foldl_spanStep_run (gap n : ℕ) {a b : UInt8} (hab : a ≠ b) (start : ℕ) : ∀ stop : ℕ,
    ((List.replicate n (a, b)).zipIdx stop).foldl (spanStep gap) [(start, stop)] =
      [(start, stop + n)] := by
  induction n with
  | zero => exact fun _ => rfl
  | succ n ih =>
    intro stop
    have hstep : spanStep gap [(start, stop)] ((a, b), stop) = [(start, stop + 1)] := by
      simp [spanStep, hab]
    rw [List.replicate_succ, List.zipIdx_cons, List.foldl_cons, hstep, ih, Nat.add_assoc,
      Nat.add_comm 1 n]

theorem dirtySpans_tail (gap m n : ℕ) (burned : List UInt8) :
    PageState.dirtySpans ⟨List.replicate m 0 ++ List.replicate (n + 1) 1, List.replicate (m + (n + 1)) 0,
      burned⟩ gap = [(m, List.replicate (n + 1) 1)] := by
  have hzip : (List.replicate m (0 : UInt8) ++ List.replicate (n + 1) 1).zip
      (List.replicate (m + (n + 1)) (0 : UInt8)) =
        List.replicate m (0, 0) ++ (1, 0) :: List.replicate n (1, 0) := by
    have hzeros : List.replicate (m + (n + 1)) (0 : UInt8) =
        List.replicate m 0 ++ List.replicate (n + 1) 0 := List.replicate_append_replicate.symm
    rw [hzeros, List.zip_append (by simp), List.zip_replicate', List.zip_replicate',
      ← List.replicate_succ]
  have hspans : PageState.spans ⟨List.replicate m 0 ++ List.replicate (n + 1) 1,
      List.replicate (m + (n + 1)) 0, burned⟩ gap = [(m, m + 1 + n)] := by
    rw [PageState.spans, hzip, List.zipIdx_append, List.foldl_append, foldl_spanStep_equal,
      List.zipIdx_cons, List.foldl_cons, List.length_replicate, Nat.zero_add]
    have hfirst : spanStep gap [] (((1 : UInt8), (0 : UInt8)), m) = [(m, m + 1)] := by
      simp [spanStep]
    rw [hfirst, foldl_spanStep_run gap n (by decide)]
    rfl
  rw [PageState.dirtySpans, hspans, List.map_singleton]
  simp [slice, show m + 1 + n - m = n + 1 by omega]

/-! ## The pages of an accepted header -/

theorem size_of_newPage {cfg : PagesConfig} {size : UInt32} {i : ℕ} {page : PageDef}
    (h : CommandSet.newPage cfg size i = .ok page) : page.size = size := by
  unfold CommandSet.newPage at h
  simp only [bind, Except.bind, pure, Except.pure] at h
  repeat' split at h
  all_goals cases h
  rfl

/-- **The set has the header's pages.** -/
theorem sizes_of_pageCommands {h : ConstantsHeader} {set : CommandSet}
    (hset : pageCommands h = .ok set) : set.pages.map (·.size) = h.pageSizes := by
  unfold pageCommands CommandSet.new at hset
  simp only [bind, Except.bind, pure, Except.pure] at hset
  split at hset
  · exact nomatch hset
  next pages hpages =>
    cases hset
    have hall := except_mapM_eq_ok.mp hpages
    refine List.ext_getElem? fun i => ?_
    have hlen : h.pageSizes.length = pages.length := by
      rw [← hall.length_eq, List.length_zipIdx]
    change (pages.map (·.size))[i]? = _
    rw [List.getElem?_map]
    by_cases hi : i < h.pageSizes.length
    · have hpage := hall.get (i := i) (by simpa using hi) (by omega)
      simp only [List.get_eq_getElem, List.getElem_zipIdx] at hpage
      rw [List.getElem?_eq_getElem hi, List.getElem?_eq_getElem (by omega), Option.map_some,
        size_of_newPage hpage]
    · rw [List.getElem?_eq_none (by omega), List.getElem?_eq_none (by omega), Option.map_none]

theorem blockingFactor_lt {h : ConstantsHeader} {set : CommandSet}
    (hset : pageCommands h = .ok set) : set.blockingFactor < 2 ^ 16 := by
  unfold pageCommands CommandSet.new at hset
  simp only [bind, Except.bind, pure, Except.pure] at hset
  split at hset
  · exact nomatch hset
  · cases hset
    have := UInt16.toNat_lt (h.blockingFactor.getD 251).toUInt16
    dsimp only
    omega

/-! ## Reads -/

/-- The reads of a page fit exactly when it is within the read limits. -/
theorem readsFit_iff {set : CommandSet} {page : PageDef} (hpos : 0 < page.size.toNat) :
    (∀ c ∈ readChunks page.size.toNat set.blockingFactor, ∀ cmd,
        page.read.build (set.readArgs page c.1 c.2) = .ok cmd → ReadFits c cmd) ↔
      (set.Readable page →
        (page.size.toNat - 1) / set.blockingFactor * set.blockingFactor < 2 ^ 16 ∧
        min page.size.toNat set.blockingFactor < MAX_PAYLOAD ∧ readWidth set page < 2 ^ 16) := by
  have hbf := set.blockingFactor_pos
  have hdiv := Nat.div_mul_le_self (page.size.toNat - 1) set.blockingFactor
  constructor
  · intro hfit hread
    have hbuild (c : ℕ × ℕ) : ∃ cmd, page.read.build (set.readArgs page c.1 c.2) = .ok cmd :=
      Template.build_eq_ok.mpr (CommandSet.known_readArgs.mpr hread)
    -- the first chunk is the longest, the last one starts furthest
    obtain ⟨cmd, hcmd⟩ := hbuild (0, min page.size.toNat set.blockingFactor)
    have hfirst := hfit _ (first_mem_readChunks hpos set.blockingFactor) cmd hcmd
    obtain ⟨count, hlast⟩ := mem_readChunksFrom_of_lt page.size.toNat hbf
      ((page.size.toNat - 1) / set.blockingFactor) page.size.toNat 0 (by omega) (by omega)
    rw [Nat.zero_add] at hlast
    obtain ⟨cmd', hcmd'⟩ := hbuild (_, count)
    refine ⟨fits16_iff.mp (hfit _ hlast cmd' hcmd').offset, ?_, ?_⟩
    · have := hfirst.answer
      dsimp only at this
      omega
    · rw [← width_readArgs, ← Template.length_build hcmd]
      exact fits16_iff.mp hfirst.envelope
  · rintro hlim ⟨offset, count⟩ hc cmd hcmd
    have hread : set.Readable page :=
      CommandSet.known_readArgs.mp (Template.build_eq_ok.mp ⟨cmd, hcmd⟩)
    obtain ⟨hlast, hans, henv⟩ := hlim hread
    obtain ⟨⟨k, hk⟩, hlt, hcount⟩ := mem_readChunksFrom hbf hc
    simp only [Nat.zero_add] at hk hlt hcount
    have hk' : k ≤ (page.size.toNat - 1) / set.blockingFactor :=
      (Nat.le_div_iff_mul_le hbf).mpr (by omega)
    have hmul := Nat.mul_le_mul_right set.blockingFactor hk'
    unfold MAX_PAYLOAD at hans
    refine ⟨fits16_iff.mpr (by dsimp only; omega), fits16_iff.mpr (by dsimp only; omega),
      fits16_iff.mpr ?_, by unfold MAX_PAYLOAD; dsimp only; omega⟩
    rw [Template.length_build hcmd, width_readArgs]
    exact henv

/-! ## Writes -/

section Writes

variable [F64 F]

/-- A loaded tune whose page `i` differs from the ECU's in its last `n` bytes, `m` before them. -/
def tailEdited (df : IniDef F) (i m n : ℕ) : Tune F :=
  ((Tune.new df).setLoaded true).modifyPage i fun _ =>
    ⟨List.replicate m 0 ++ List.replicate n 1, List.replicate (m + n) 0, List.replicate (m + n) 0⟩

theorem tailEdited_sized {df : IniDef F} {i m n : ℕ} {size : UInt32}
    (hi : df.header.pageSizes[i]? = some size) (hsize : size.toNat = m + n) :
    (tailEdited df i m n).Sized := by
  refine ((Tune.sized_new df).setLoaded true).modifyPage i fun size' p hs hp => ?_
  obtain rfl : size = size' := Option.some.inj (hi.symm.trans hs)
  exact ⟨by simp [hsize], by simp [hsize], by simp [hsize]⟩

/-- Its flush starts with a write at `m`, of `n` bytes or as many as a chunk takes. -/
theorem chunkWrites_tailEdited {df : IniDef F} {i m n : ℕ} {size : UInt32} (pages : PageCommands)
    (hi : df.header.pageSizes[i]? = some size) :
    (m, (List.replicate (n + 1) 1).take pages.blockingFactor) ∈
      chunkWrites pages ((tailEdited df i m (n + 1)).dirtySpans i SPAN_MERGE_GAP) := by
  have hpage : (tailEdited df i m (n + 1)).page i =
      some ⟨List.replicate m 0 ++ List.replicate (n + 1) 1, List.replicate (m + (n + 1)) 0,
        List.replicate (m + (n + 1)) 0⟩ := by
    rw [tailEdited, Tune.page_modifyPage, if_pos rfl]
    simp [Tune.page, Tune.setLoaded, Tune.new, hi]
  rw [Tune.dirtySpans, hpage, Option.map_some, Option.getD_some, dirtySpans_tail, chunkWrites,
    List.flatMap_singleton]
  exact List.mem_cons_self

/-- The writes of a page fit exactly when it is within the write limits. -/
theorem writesFit_iff {df : IniDef F} {set : CommandSet} {i : ℕ} {page : PageDef}
    (hbf : set.blockingFactor < 2 ^ 16) (hi : df.header.pageSizes[i]? = some page.size) (hpos : 0 < page.size.toNat) :
    (∀ t : Tune F, t.df = df → t.Sized → t.loaded →
        ∀ w ∈ chunkWrites set.commands (t.dirtySpans i SPAN_MERGE_GAP), ∀ cmd,
          page.chunkWrite.build (set.writeArgs page w.1 w.2) = .ok cmd → WriteFits w cmd) ↔
      (Writable set page → page.size.toNat ≤ 2 ^ 16 ∧
        writeWidth set page (min page.size.toNat set.blockingFactor) < 2 ^ 16) := by
  constructor
  · intro hfit hwrite
    have hbuild (w : ℕ × List UInt8) :
        ∃ cmd, page.chunkWrite.build (set.writeArgs page w.1 w.2) = .ok cmd :=
      Template.build_eq_ok.mpr (known_writeArgs.mpr hwrite)
    have htail (m n : ℕ) (hmn : page.size.toNat = m + (n + 1)) :
        ∃ cmd, page.chunkWrite.build (set.writeArgs page m
            ((List.replicate (n + 1) 1).take set.blockingFactor)) = .ok cmd ∧
          WriteFits (m, (List.replicate (n + 1) 1).take set.blockingFactor) cmd := by
      obtain ⟨cmd, hcmd⟩ := hbuild (m, (List.replicate (n + 1) 1).take set.blockingFactor)
      exact ⟨cmd, hcmd, hfit (tailEdited df i m (n + 1)) rfl (tailEdited_sized hi hmn) rfl _
        (chunkWrites_tailEdited set.commands hi) cmd hcmd⟩
    -- an edit of the last byte alone, and one of the whole page
    obtain ⟨cmd, -, hlast⟩ := htail (page.size.toNat - 1) 0 (by omega)
    obtain ⟨cmd', hcmd', hall⟩ := htail 0 (page.size.toNat - 1) (by omega)
    have hoff := fits16_iff.mp hlast.offset
    have henv := fits16_iff.mp hall.envelope
    rw [Template.length_build hcmd', width_writeArgs, List.length_take, List.length_replicate,
      Nat.min_comm, Nat.sub_add_cancel hpos] at henv
    exact ⟨by dsimp only at hoff; omega, henv⟩
  · rintro hlim t rfl ht - ⟨offset, values⟩ hw cmd hcmd
    obtain ⟨hsize, henv⟩ := hlim (known_writeArgs.mp (Template.build_eq_ok.mp ⟨cmd, hcmd⟩))
    -- a chunk of a span lies in the page
    obtain ⟨⟨start, bytes⟩, hspan, hchunk⟩ := List.mem_flatMap.mp hw
    obtain ⟨h1, h2, h3, h4, -⟩ := mem_chunksAt set.blockingFactor_pos hchunk
    have hin : start + bytes.length ≤ page.size.toNat := by
      rw [Tune.dirtySpans] at hspan
      cases hp : t.page i with
      | none => rw [hp] at hspan; simp at hspan
      | some p =>
        rw [hp, Option.map_some, Option.getD_some] at hspan
        obtain ⟨size, hs, hpsize⟩ := ht.page hp
        obtain rfl : page.size = size := Option.some.inj (hi.symm.trans hs)
        rw [← hpsize.data]
        exact (p.dirtySpans_pieces SPAN_MERGE_GAP (hpsize.data.trans hpsize.ecu.symm) _ hspan).1
    have hmono : writeWidth set page values.length ≤
        writeWidth set page (min page.size.toNat set.blockingFactor) := writeWidth_mono (by omega)
    refine ⟨fits16_iff.mpr (by dsimp only; omega), fits16_iff.mpr (by dsimp only; omega),
      fits16_iff.mpr ?_⟩
    rw [Template.length_build hcmd, width_writeArgs]
    dsimp only
    omega

/-- **The configured geometry fits the wire exactly when every page that holds a byte is within the
limits.** -/
theorem wireFits_iff (df : IniDef F) (set : CommandSet) (hset : pageCommands df.header = .ok set) :
    WireFits df set ↔ ∀ page ∈ set.pages, 0 < page.size.toNat → Within set page := by
  have hsizes := sizes_of_pageCommands hset
  have hsize {i : ℕ} {page : PageDef} (hi : set.pages[i]? = some page) :
      df.header.pageSizes[i]? = some page.size := by
    rw [← hsizes, List.getElem?_map, hi, Option.map_some]
  constructor
  · intro hfit page hpage hpos
    obtain ⟨i, hi⟩ := List.mem_iff_getElem?.mp hpage
    have hreads := (readsFit_iff hpos).mp (hfit.reads page hpage)
    have hwrites := (writesFit_iff (blockingFactor_lt hset) (hsize hi) hpos).mp
      fun t hdf ht hl => hfit.writes t hdf ht hl i page hi
    exact ⟨fun hr => (hreads hr).1, fun hr => (hreads hr).2.1, fun hr => (hreads hr).2.2,
      fun hw => (hwrites hw).1, fun hw => (hwrites hw).2⟩
  · intro hlim
    constructor
    · intro page hpage c hc
      have hpos : 0 < page.size.toNat :=
        Nat.zero_lt_of_lt (mem_readChunksFrom set.blockingFactor_pos hc).2.1
      obtain ⟨h1, h2, h3, -, -⟩ := hlim page hpage hpos
      exact (readsFit_iff hpos).mpr (fun hr => ⟨h1 hr, h2 hr, h3 hr⟩) c hc
    · intro t hdf ht hl i page hi w hw
      by_cases hpos : 0 < page.size.toNat
      · obtain ⟨-, -, -, h4, h5⟩ := hlim page (List.mem_of_getElem? hi) hpos
        exact (writesFit_iff (blockingFactor_lt hset) (hsize hi) hpos).mpr
          (fun hw => ⟨h4 hw, h5 hw⟩) t hdf ht hl w hw
      · -- an empty page has no spans
        rw [Tune.dirtySpans] at hw
        cases hp : t.page i with
        | none => simp [hp, chunkWrites] at hw
        | some p =>
          obtain ⟨size, hs, hpsize⟩ := ht.page hp
          rw [hdf, hsize hi] at hs
          obtain rfl : page.size = size := Option.some.inj hs
          have hnil : p.data = [] := List.length_eq_zero_iff.mp (by rw [hpsize.data]; omega)
          simp [hp, PageState.dirtySpans, PageState.spans, hnil, chunkWrites] at hw

end Writes

/-- A definition with one page and the usual command texts. -/
def onePageDef (size blockingFactor : UInt32) : IniDef XRat where
  signature := ""
  header :=
    { pageSizes := [size]
      pageIdentifiers := ["\\$tsCanId\\x01"]
      pageReadCommand := ["p%2i%2o%2c"]
      pageChunkWrite := ["M%2i%2o%2c%v"]
      crc32CheckCommand := ["d%2i"]
      burnCommand := ["b%2i"]
      blockingFactor := some blockingFactor }
  pcVariables := ∅
  constants := ∅
  requiresPowerCycle := []
  defaultValues := []
  outputChannels := ∅

def onePage (size : UInt32) : PageDef :=
  ⟨[0, 1], ⟨[.literal [0x70], .pageId, .offset, .count]⟩,
    ⟨[.literal [0x4D], .pageId, .offset, .count, .value]⟩, ⟨[.literal [0x64], .pageId]⟩,
    ⟨[.literal [0x62], .pageId]⟩, size⟩

theorem wireFits_smallChunks : WireFits (onePageDef 288 251) ⟨[onePage 288], 251, by decide, 0⟩ := by
  refine (wireFits_iff (onePageDef 288 251) _ (by decide +kernel)).mpr fun page hpage _ => ?_
  obtain rfl := List.mem_singleton.mp hpage
  constructor <;> intro _ <;> decide +kernel

/-- Pages read in chunks of 4096 bytes: the answer to the first read has 4097. -/
theorem bigChunks_not_fit : ¬ ∀ (df : IniDef XRat) (set : CommandSet),
    pageCommands df.header = .ok set → WireFits df set := by
  intro h
  have hfit := h (onePageDef 4096 4096) ⟨[onePage 4096], 4096, by decide, 0⟩ (by decide +kernel)
  have hread := hfit.reads (onePage 4096) List.mem_cons_self (0, 4096)
    (first_mem_readChunks (by decide) 4096) [0x70, 0, 1, 0, 0, 0, 16] (by decide)
  exact absurd hread.answer (by decide)

end RustyTune.Server
