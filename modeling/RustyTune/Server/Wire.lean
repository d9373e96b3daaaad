import RustyTune.FakeEcu.Link
import RustyTune.Server.Chunks
import RustyTune.Server.Interleaving
import RustyTune.Server.Program

/-!
# The comms thread on the line

The programs of the comms thread over the serial line to the simulator: every request is a command built from
its template, framed, read in pieces, dispatched, and answered with a frame of its own.

* `Wired`: tune, session and simulator. `Wired.handle`: the line's answers.
* `Allowed`: the requests within a page, which the simulator does not refuse; `CommsProgram.safe_doBurn`
  and the other programs ask no others.
* `Stands`: `World` stands for the line. **`wired_refines`**: one request on the line is one of `World`,
  answered, or failed though executed where the simulator corrupts its response.
* `run_on_line`: a program on the line runs as in `World`, for some fates of its requests. **`comms_on_line`**:
  download, flush and burn.
-/

namespace RustyTune.Server

open TuneModel EcuProto FakeEcu

variable {F : Type}

/-! ## The line -/

/-- The comms thread at the line, and the simulator at its other end. -/
structure Wired (F : Type) where
  tune : Tune F
  session : Session
  device : Device
  lastError : Option String
  locks : ℕ

namespace Wired

def onLine {α : Type} (x : Wired F) (op : Session × Device → α × (Session × Device)) : α × Wired F :=
  let res := op (x.session, x.device)
  (res.1, { x with session := res.2.1, device := res.2.2 })

def readChunk (link : Link) (pageIdx offset count : ℕ) (s : Session × Device) :
    Except ProtoError (List UInt8) × (Session × Device) :=
  match speeduino.page pageIdx with
  | .error e => (.error e, s)
  | .ok page => speeduino.readChunk link.responder page s offset count

/-- What the line answers; `edits` is what clients do before the lock is taken for the `n`-th time. -/
def handle (link : Link) (edits : ℕ → List Edit) : (q : CommsQuery F) → Wired F → q.Answer × Wired F
  | .read pageIdx offset count, x => x.onLine (readChunk link pageIdx offset count)
  | .write pageIdx offset values, x => x.onLine (speeduino.writeChunk link.responder pageIdx offset values)
  | .crc pageIdx, x => x.onLine (speeduino.pageCrc link.responder pageIdx)
  | .burn pageIdx, x => x.onLine (speeduino.burn link.responder pageIdx)
  | .lock, x =>
    let tune := (edits x.locks).foldl Edit.apply x.tune
    (tune, { x with tune, locks := x.locks + 1 })
  | .modify f, x => ((), { x with tune := f x.tune })
  | .setError text, x => ((), { x with lastError := some text })

end Wired

/-! ## Requests within a page -/

/-- The tune has the simulator's pages. -/
structure Fitting (t : Tune F) : Prop where
  count : t.pages.length = PAGE_SIZES.length
  size : ∀ (n : PageNum) p, t.page n.val = some p → p.data.length = n.size ∧ p.ecu.length = n.size

/-- What the simulator does not refuse, and changes that keep the sizes of the pages. -/
def Allowed : CommsQuery F → Prop
  | .read pageIdx offset count => ∃ n : PageNum, pageIdx = n.val ∧ offset + count ≤ n.size
  | .write pageIdx offset values => ∃ n : PageNum, pageIdx = n.val ∧ offset + values.length ≤ n.size ∧
    0 < values.length ∧ values.length ≤ BLOCKING_FACTOR
  | .crc pageIdx | .burn pageIdx => ∃ n : PageNum, pageIdx = n.val
  | .modify f => ∀ t, Fitting t → Fitting (f t)
  | .lock | .setError _ => True

/-- The tune that is answered has the simulator's pages. -/
def Promised : (q : CommsQuery F) → q.Answer → Prop
  | .lock, t => Fitting t
  | .read .., _ | .write .., _ | .crc _, _ | .burn _, _ | .modify _, _ | .setError _, _ => True

theorem Fitting.modifyPage {t : Tune F} (h : Fitting t) (i : ℕ) {f : PageState → PageState}
    (hf : ∀ (n : PageNum) p, i = n.val → p.data.length = n.size → p.ecu.length = n.size →
      (f p).data.length = n.size ∧ (f p).ecu.length = n.size) : Fitting (t.modifyPage i f) := by
  refine ⟨by rw [Tune.pages_modifyPage, List.length_modify, h.count], fun n p hp => ?_⟩
  rw [Tune.page_modifyPage] at hp
  split_ifs at hp with hi
  · obtain ⟨q, hq, rfl⟩ := Option.map_eq_some_iff.mp hp
    obtain ⟨hdata, hecu⟩ := h.size n q hq
    exact hf n q hi hdata hecu
  · exact h.size n p hp

theorem Fitting.edited {t t' : Tune F} (h : Fitting t) (he : Edited t t') : Fitting t' := by
  refine ⟨he.count.trans h.count, fun n p' hp' => ?_⟩
  obtain ⟨p, hp, hecu, -, hdata⟩ := he.page n.val p' hp'
  obtain ⟨h1, h2⟩ := h.size n p hp
  exact ⟨hdata.trans h1, by rw [hecu, h2]⟩

theorem Fitting.exists_page {t : Tune F} (h : Fitting t) (n : PageNum) : ∃ p, t.page n.val = some p :=
  ⟨_, List.getElem?_eq_getElem (by rw [h.count]; exact n.isLt)⟩

theorem commands_sizes : speeduino.commands.sizes = PAGE_SIZES := by decide

theorem page_of_size {i size : ℕ} (h : speeduino.commands.sizes[i]? = some size) :
    ∃ n : PageNum, i = n.val ∧ size = n.size := by
  rw [commands_sizes] at h
  obtain ⟨hi, hsize⟩ := List.getElem?_eq_some_iff.mp h
  exact ⟨⟨i, hi⟩, rfl, hsize.symm⟩

namespace CommsProgram

/-- The parts of the comms thread that ask only what is allowed. -/
abbrev Asks {α : Type} (post : α → Prop) (p : CommsProgram F α) : Prop := p.Safe Allowed Promised post

/-- The bytes of a page, if there are any, are as many as it has. -/
def WholePage (pageIdx : ℕ) (r : Except ProtoError (List UInt8)) : Prop :=
  ∀ (n : PageNum) bytes, pageIdx = n.val → r = .ok bytes → bytes.length = n.size

theorem safe_readFrom (n : PageNum) {bf : ℕ} (hbf : 0 < bf) : ∀ (fuel offset : ℕ) (out : List UInt8),
    out.length = offset → offset ≤ n.size → n.size ≤ offset + fuel →
      Asks (WholePage n.val) (readFrom (F := F) n.val n.size bf fuel offset out) := by
  have hsize := size_le n
  intro fuel
  induction fuel with
  | zero =>
    intro offset out hout hoff hfuel m bytes hm hbytes
    cases hbytes
    rw [← Fin.ext hm]
    omega
  | succ fuel ih =>
    intro offset out hout hoff hfuel
    rw [readFrom]
    split_ifs with hlt
    · refine ⟨⟨n, rfl, ?_⟩, fun r _ => ?_⟩
      · rw [wireOffset, Nat.mod_eq_of_lt (by omega)]
        omega
      · cases r with
        | error e => exact fun m bytes _ h => by cases h
        | ok data =>
          dsimp only
          split_ifs with hshort
          · exact fun m bytes _ h => by cases h
          · rw [ne_eq, not_not] at hshort
            exact ih _ _ (by rw [List.length_append, hshort, hout]) (by omega) (by omega)
    · intro m bytes hm hbytes
      cases hbytes
      rw [← Fin.ext hm]
      omega

theorem safe_readPage (pageIdx : ℕ) :
    Asks (WholePage pageIdx) (readPage (F := F) speeduino.commands pageIdx) := by
  unfold readPage
  cases h : speeduino.commands.sizes[pageIdx]? with
  | none => exact fun m bytes _ h => by cases h
  | some size =>
    obtain ⟨n, rfl, rfl⟩ := page_of_size h
    exact safe_readFrom n speeduino.blockingFactor_pos n.size 0 [] rfl (Nat.zero_le _) (by omega)

theorem safe_downloadOnce (n : PageNum) {again : UInt32 → UInt32 → CommsProgram F (Except ProtoError Unit)}
    (hagain : ∀ a b, Asks (fun _ => True) (again a b)) :
    Asks (fun _ => True) (downloadOnce speeduino.commands n.val again) := by
  refine (safe_readPage n.val).bind fun r hr => ?_
  cases r with
  | error e => trivial
  | ok bytes =>
    refine ⟨⟨n, rfl⟩, fun r _ => ?_⟩
    cases r with
    | error e => trivial
    | ok crc =>
      dsimp only
      split_ifs
      · refine ⟨trivial, fun t _ => ⟨fun t ht => ht.modifyPage n.val fun m p hm _ _ => ?_, fun _ _ => trivial⟩⟩
        have hlen := hr m bytes hm rfl
        exact ⟨hlen, hlen⟩
      · exact hagain crc (crc32 bytes)

theorem safe_downloadPage (n : PageNum) (retries : ℕ) :
    Asks (fun _ => True) (downloadPage (F := F) speeduino.commands n.val retries) := by
  induction retries with
  | zero => exact safe_downloadOnce n fun _ _ => trivial
  | succ retries ih => exact safe_downloadOnce n fun _ _ => ih

theorem safe_downloadTune : Asks (fun _ => True) (downloadTune (F := F) speeduino.commands) := by
  have hall : ∀ is : List ℕ, (∀ i ∈ is, i < PAGE_SIZES.length) →
      Asks (fun _ => True) (downloadPages (F := F) speeduino.commands is) := by
    intro is
    induction is with
    | nil => exact fun _ => trivial
    | cons i is ih =>
      intro his
      refine (safe_downloadPage ⟨i, his i List.mem_cons_self⟩ 1).bind fun r _ => ?_
      cases r with
      | error e => trivial
      | ok u => exact ih fun j hj => his j (List.mem_cons_of_mem i hj)
  refine hall _ fun i hi => ?_
  rw [PageCommands.pageCount, commands_sizes] at hi
  exact List.mem_range.mp hi

theorem safe_sendChunks (n : PageNum) (writes : List (ℕ × List UInt8))
    (hw : ∀ c ∈ writes, c.1 + c.2.length ≤ n.size ∧ 0 < c.2.length ∧ c.2.length ≤ BLOCKING_FACTOR) :
    Asks (fun _ => True) (sendChunks (F := F) n.val writes) := by
  induction writes with
  | nil => trivial
  | cons c writes ih =>
    obtain ⟨hin, hpos, hmax⟩ := hw c List.mem_cons_self
    refine ⟨⟨n, rfl, hin, hpos, hmax⟩, fun r _ => ?_⟩
    cases r with
    | error e => exact ⟨trivial, fun _ _ => trivial⟩
    | ok u =>
      refine ⟨trivial, fun t _ => ⟨fun t ht => ht.modifyPage n.val fun m p hm hdata hecu => ?_, fun _ _ =>
        ih fun c' hc' => hw c' (List.mem_cons_of_mem c hc')⟩⟩
      obtain ⟨h1, h2, -⟩ : (sent c.1 c.2.length p).data.length = p.data.length ∧
        (sent c.1 c.2.length p).ecu.length = p.ecu.length ∧ _ := sent_sizes (hdata.trans hecu.symm)
      exact ⟨h1.trans hdata, h2.trans hecu⟩

theorem safe_resyncPage (pageIdx : ℕ) :
    Asks (fun _ => True) (resyncPage (F := F) speeduino.commands pageIdx) := by
  refine (safe_readPage pageIdx).bind fun r hr => ?_
  cases r with
  | error e => exact ⟨trivial, fun _ _ => trivial⟩
  | ok bytes =>
    exact ⟨trivial, fun t _ => ⟨fun t ht => ht.modifyPage pageIdx fun m p hm hdata _ =>
      ⟨hdata, hr m bytes hm rfl⟩, fun _ _ => ⟨trivial, fun _ _ => trivial⟩⟩⟩

theorem safe_verifyPage (n : PageNum) :
    Asks (fun _ => True) (verifyPage (F := F) speeduino.commands n.val) := by
  refine ⟨trivial, fun t _ => ⟨⟨n, rfl⟩, fun r _ => ?_⟩⟩
  cases r with
  | error e => trivial
  | ok crc =>
    rw [checkPage]
    split_ifs
    · trivial
    · exact safe_resyncPage n.val

theorem writes_within {t : Tune F} (ht : Fitting t) (n : PageNum) :
    ∀ c ∈ chunkWrites speeduino.commands (t.dirtySpans n.val SPAN_MERGE_GAP),
      c.1 + c.2.length ≤ n.size ∧ 0 < c.2.length ∧ c.2.length ≤ BLOCKING_FACTOR := by
  intro c hc
  obtain ⟨hpos, hmax⟩ := mem_chunkWrites hc
  refine ⟨?_, hpos, hmax⟩
  obtain ⟨p, hp⟩ := ht.exists_page n
  obtain ⟨hdata, hecu⟩ := ht.size n p hp
  have hpieces : Pieces p.data (chunkWrites speeduino.commands (t.dirtySpans n.val SPAN_MERGE_GAP)) := by
    refine chunkWrites_pieces _ ?_
    rw [Tune.dirtySpans, hp, Option.map_some, Option.getD_some]
    exact p.dirtySpans_pieces _ (hdata.trans hecu.symm)
  rw [← hdata]
  exact (hpieces c hc).1

theorem safe_flushPages (is : List ℕ) (his : ∀ i ∈ is, i < PAGE_SIZES.length) :
    Asks (fun _ => True) (flushPages (F := F) speeduino.commands is) := by
  induction is with
  | nil => trivial
  | cons i is ih =>
    refine ⟨trivial, fun t ht => ?_⟩
    set n : PageNum := ⟨i, his i List.mem_cons_self⟩
    refine (safe_sendChunks n _ (writes_within ht n)).bind fun sent _ => ?_
    cases sent with
    | false => trivial
    | true => exact (safe_verifyPage n).bind fun _ _ => ih fun j hj => his j (List.mem_cons_of_mem i hj)

theorem lt_of_mem_pages {t : Tune F} (ht : Fitting t) {q : ℕ → Bool} :
    ∀ i ∈ (List.range t.pageCount).filter q, i < PAGE_SIZES.length := by
  intro i hi
  rw [← ht.count]
  exact List.mem_range.mp (List.mem_of_mem_filter hi)

theorem safe_flushDirty : Asks (fun _ => True) (flushDirty (F := F) speeduino.commands) := by
  refine ⟨trivial, fun t _ => ?_⟩
  dsimp only
  split_ifs
  · trivial
  · exact ⟨trivial, fun t ht => safe_flushPages _ (lt_of_mem_pages ht)⟩

theorem safe_burnPages (is burned : List ℕ) (his : ∀ i ∈ is, i < PAGE_SIZES.length) :
    Asks (fun _ => True) (burnPages (F := F) is burned) := by
  induction is generalizing burned with
  | nil => trivial
  | cons i is ih =>
    refine ⟨⟨⟨i, his i List.mem_cons_self⟩, rfl⟩, fun r _ => ?_⟩
    cases r with
    | error e => trivial
    | ok u =>
      exact ⟨trivial, fun t _ => ⟨fun t ht => ht.modifyPage i fun m p _ hdata hecu => ⟨hdata, hecu⟩,
        fun _ _ => ih _ fun j hj => his j (List.mem_cons_of_mem i hj)⟩⟩

/-- **A burn asks only what is allowed**, whatever is answered and edited meanwhile. -/
theorem safe_doBurn : Asks (fun _ => True) (doBurn (F := F) (some speeduino.commands)) := by
  refine ⟨trivial, fun t _ => ?_⟩
  dsimp only
  split_ifs
  · trivial
  · exact safe_flushDirty.bind fun _ _ => ⟨trivial, fun t ht => safe_burnPages _ _ (lt_of_mem_pages ht)⟩

end CommsProgram

/-! ## `World` stands for the line -/

def ecuPages (store : PageStore) : List EcuPage :=
  (List.finRange PAGE_SIZES.length).map fun n => ⟨store.working.page n, store.burned.page n⟩

/-- `World` has what is on the line, which is idle. -/
structure Stands (x : Wired F) (w : World F) : Prop where
  tune : w.tune = x.tune
  ecu : w.ecu = ecuPages x.device.store
  lastError : w.lastError = x.lastError
  locks : w.locks = x.locks
  ready : x.session.Ready
  idle : x.device.buf = []
  fitting : Fitting x.tune

namespace Wired

variable {x : Wired F}

/-- Nothing is under way on the line, and the tune has the simulator's pages. -/
structure AtRest (x : Wired F) : Prop where
  ready : x.session.Ready
  idle : x.device.buf = []
  fitting : Fitting x.tune

/-- `World` as it stands for a line at rest. -/
def world (x : Wired F) : World F :=
  ⟨x.tune, ecuPages x.device.store, x.lastError, fun _ => 0, x.locks⟩

theorem AtRest.stands (h : x.AtRest) : Stands x x.world :=
  ⟨rfl, rfl, rfl, rfl, h.ready, h.idle, h.fitting⟩

end Wired

theorem Stands.atRest {x : Wired F} {w : World F} (h : Stands x w) : x.AtRest := ⟨h.ready, h.idle, h.fitting⟩

theorem ecuPages_get (store : PageStore) (n : PageNum) :
    (ecuPages store)[n.val]? = some ⟨store.working.page n, store.burned.page n⟩ := by
  rw [ecuPages, List.getElem?_map, List.getElem?_eq_getElem (by rw [List.length_finRange]; exact n.isLt),
    Option.map_some, List.getElem_finRange]
  rfl

theorem length_ecuPages (store : PageStore) : (ecuPages store).length = PAGE_SIZES.length := by
  rw [ecuPages, List.length_map, List.length_finRange]

theorem ecuPages_modify {store store' : PageStore} {n : PageNum} {f : EcuPage → EcuPage}
    (hn : (⟨store'.working.page n, store'.burned.page n⟩ : EcuPage) =
      f ⟨store.working.page n, store.burned.page n⟩)
    (hrest : ∀ k, k ≠ n → store'.working.page k = store.working.page k ∧
      store'.burned.page k = store.burned.page k) :
    ecuPages store' = (ecuPages store).modify n.val f := by
  refine List.ext_getElem? fun i => ?_
  rw [List.getElem?_modify]
  by_cases hi : i < PAGE_SIZES.length
  · have hk := ecuPages_get store ⟨i, hi⟩
    have hk' := ecuPages_get store' ⟨i, hi⟩
    dsimp only at hk hk'
    rw [hk, hk', Option.map_eq_map, Option.map_some]
    split_ifs with heq
    · obtain rfl : n = ⟨i, hi⟩ := Fin.ext heq
      rw [hn]
    · obtain ⟨h1, h2⟩ := hrest ⟨i, hi⟩ fun h => heq (by rw [← h])
      rw [h1, h2]
  · rw [List.getElem?_eq_none (by rw [length_ecuPages]; omega),
      List.getElem?_eq_none (by rw [length_ecuPages]; omega)]
    rfl

theorem ecuPages_write {store store' : PageStore} {n : PageNum} {offset : ℕ} {values : List UInt8}
    (hin : offset + values.length ≤ n.size) (h : store.write n offset values = some store') :
    ecuPages store' = (ecuPages store).modify n.val (EcuPage.write (wireOffset offset) values) := by
  have hsize := size_le n
  unfold PageStore.write at h
  rw [dif_pos hin] at h
  obtain rfl := Option.some.inj h
  refine ecuPages_modify ?_ fun k hk => ?_
  · dsimp only
    rw [EcuPage.write, if_pos, Memory.page_set_self, wireOffset, Nat.mod_eq_of_lt (by omega)]
    rw [wireOffset, Nat.mod_eq_of_lt (by omega), store.working.size]
    exact hin
  · dsimp only
    exact ⟨Memory.page_set_of_ne _ _ _ hk, rfl⟩

theorem ecuPages_persist (store : PageStore) : ecuPages store.persist = ecuPages store := by
  unfold PageStore.persist
  split_ifs <;> rfl

theorem ecuPages_burn (store : PageStore) (n : PageNum) :
    ecuPages (store.burn n) = (ecuPages store).modify n.val fun p => { p with eeprom := p.ram } := by
  rw [PageStore.burn, ecuPages_persist]
  refine ecuPages_modify ?_ fun k hk => ?_
  · dsimp only
    rw [Memory.page_set_self]
  · dsimp only
    exact ⟨rfl, Memory.page_set_of_ne _ _ _ hk⟩

/-! ## One request -/

/-- What becomes of the requests on a line: answered, or executed with a corrupted response. -/
structure Fates (link : Link) where
  fate : Request → ℕ → Fate
  cases : ∀ k n, fate k n = .answered ∨ link.corruptEvery ≠ 0 ∧ fate k n = .failed true .crcMismatch

namespace Fates

variable {link : Link} {edits : ℕ → List Edit}

def env (f : Fates link) (edits : ℕ → List Edit) : Env UInt32 := ⟨f.fate, edits, crc32⟩

def answered (link : Link) : Fates link := ⟨fun _ _ => .answered, fun _ _ => .inl rfl⟩

/-- The fate of the `n`-th request of a kind is that of a request to the simulator. -/
def set (f : Fates link) (k : Request) (n : ℕ) (d : Device) : Fates link where
  fate k' n' :=
    if k' = k ∧ n' = n then if link.Corrupts d then .failed true .crcMismatch else .answered
    else f.fate k' n'
  cases := by
    intro k' n'
    split_ifs with _ hcorrupts
    · exact .inr ⟨hcorrupts.1, rfl⟩
    · exact .inl rfl
    · exact f.cases k' n'

/-- The fates of the requests made so far are kept. -/
def Kept (w : World F) (f f' : Fates link) : Prop := ∀ k n, n < w.issued k → f'.fate k n = f.fate k n

theorem kept_set (f : Fates link) (w : World F) (k : Request) (d : Device) :
    Kept w f (f.set k (w.issued k) d) := by
  intro k' n hn
  refine if_neg ?_
  rintro ⟨rfl, rfl⟩
  exact absurd hn (Nat.lt_irrefl _)

section Request

variable {w : World F} {k : Request} {exec : World F → World F} {α : Type} {answer : World F → α}

theorem issued_request {env : Env UInt32} (hexec : ∀ w, (exec w).issued = w.issued) :
    (w.request env k exec answer).2.issued = Function.update w.issued k (w.issued k + 1) := by
  unfold World.request
  split
  · exact hexec _
  · exact hexec _
  · rfl

theorem kept_request {f f' : Fates link} (hexec : ∀ w, (exec w).issued = w.issued)
    (h : Kept (w.request (f.env edits) k exec answer).2 f f') :
    Kept w f f' ∧ w.request (f'.env edits) k exec answer = w.request (f.env edits) k exec answer := by
  have hissued : (w.request (f.env edits) k exec answer).2.issued =
      Function.update w.issued k (w.issued k + 1) := issued_request hexec
  have hle : ∀ k', w.issued k' ≤ (w.request (f.env edits) k exec answer).2.issued k' := by
    intro k'
    rw [hissued]
    by_cases hk : k' = k
    · rw [hk, Function.update_self]
      exact Nat.le_succ _
    · rw [Function.update_of_ne hk]
  have hfate : (f'.env edits).fate k (w.issued k) = (f.env edits).fate k (w.issued k) := by
    refine h k (w.issued k) ?_
    rw [hissued, Function.update_self]
    exact Nat.lt_succ_self _
  refine ⟨fun k' n hn => h k' n (Nat.lt_of_lt_of_le hn (hle k')), ?_⟩
  unfold World.request
  rw [hfate]

theorem request_set (f : Fates link) (d : Device) :
    w.request ((f.set k (w.issued k) d).env edits) k exec answer =
      (link.result d (answer w), exec (w.ask k)) := by
  have hfate : ((f.set k (w.issued k) d).env edits).fate k (w.issued k) =
      if link.Corrupts d then .failed true .crcMismatch else .answered := if_pos ⟨rfl, rfl⟩
  unfold World.request
  rw [hfate, Link.result]
  by_cases hcorrupts : link.Corrupts d
  · rw [if_pos hcorrupts, if_pos hcorrupts]
  · rw [if_neg hcorrupts, if_neg hcorrupts]

end Request

end Fates

theorem Stands.request {link : Link} {x : Wired F} {w : World F} (h : Stands x w)
    (edits : ℕ → List Edit) (k : Request) {α : Type} (exec : World F → World F) (answer : World F → α)
    {op : Session × Device → Except ProtoError α × (Session × Device)} {a : α} {s' : Session}
    {store' : PageStore} (hs' : s'.Ready)
    (hop : op (x.session, x.device) = (link.result x.device a, s', ⟨store', x.device.polls + 1, []⟩))
    (hanswer : answer w = a)
    (hecu : (exec (w.ask k)).ecu = ecuPages store')
    (hexec : exec (w.ask k) = { w.ask k with ecu := (exec (w.ask k)).ecu }) (f : Fates link) :
    ∃ f', Fates.Kept w f f' ∧ (w.request (f'.env edits) k exec answer).1 = (x.onLine op).1 ∧
      Stands (x.onLine op).2 (w.request (f'.env edits) k exec answer).2 := by
  refine ⟨f.set k (w.issued k) x.device, f.kept_set w k x.device, ?_⟩
  rw [Fates.request_set, Wired.onLine, hop, hanswer]
  refine ⟨rfl, ?_⟩
  dsimp only
  rw [hexec]
  exact ⟨h.tune, hecu, h.lastError, h.locks, hs', rfl, h.fitting⟩

theorem Fitting.locked {t : Tune F} (h : Fitting t) (edits : List Edit) : Fitting (edits.foldl Edit.apply t) :=
  List.foldlRecOn edits (motive := Fitting) Edit.apply h fun t ht e _ => ht.edited (edited_apply t e)

/-- **One request on the line is one of `World`**, answered, or failed though executed. -/
theorem wired_refines {link : Link} (hlink : link.Prompt) (edits : ℕ → List Edit) :
    HandlerRefines (Allowed (F := F)) Promised (Wired.handle link edits)
      (fun f : Fates link => World.handle (f.env edits)) Stands Fates.Kept where
  refl _ _ := fun _ _ _ => rfl
  trans h h' := fun k n hn => (h' k n hn).trans (h k n hn)
  used := by
    intro q w f f' _ h
    cases q with
    | read pageIdx offset count => exact Fates.kept_request (fun _ => rfl) h
    | write pageIdx offset values =>
      have hexec : ∀ w : World F,
          (w.modifyEcu pageIdx (EcuPage.write (wireOffset offset) values)).issued = w.issued := fun _ => rfl
      exact Fates.kept_request hexec h
    | crc pageIdx => exact Fates.kept_request (fun _ => rfl) h
    | burn pageIdx =>
      have hexec : ∀ w : World F, (w.modifyEcu pageIdx fun p => { p with eeprom := p.ram }).issued =
          w.issued := fun _ => rfl
      exact Fates.kept_request hexec h
    | lock => exact ⟨h, rfl⟩
    | modify g => exact ⟨h, rfl⟩
    | setError text => exact ⟨h, rfl⟩
  choose := by
    intro q x w f hq h
    cases q with
    | read pageIdx offset count =>
      obtain ⟨n, rfl, hin⟩ := hq
      obtain ⟨s', hs', hop⟩ := Link.readChunk_link hlink h.ready h.idle hin
      have hpage : Wired.readChunk link n.val offset count (x.session, x.device) =
          (link.result x.device (slice (x.device.store.working.page n) offset count), s',
            ⟨x.device.store, x.device.polls + 1, []⟩) := by
        rw [Wired.readChunk, speeduino_page]
        exact hop
      have hram : w.ram n.val = x.device.store.working.page n := by
        rw [World.ram, h.ecu, ecuPages_get]
        rfl
      obtain ⟨f', hkept, hanswer, hstands⟩ := h.request edits .read id
        (fun w => slice (w.ram n.val) offset count) hs' hpage (by rw [hram]) h.ecu rfl f
      exact ⟨f', hkept, trivial, hanswer, hstands⟩
    | write pageIdx offset values =>
      obtain ⟨n, rfl, hin, hpos, hmax⟩ := hq
      obtain ⟨s', store', hs', hstore, hop⟩ := Link.writeChunk_link hlink h.ready h.idle hin hpos hmax
      obtain ⟨f', hkept, hanswer, hstands⟩ := h.request edits .write
        (fun w => w.modifyEcu n.val (EcuPage.write (wireOffset offset) values)) (fun _ => ()) hs' hop rfl
        (by rw [ecuPages_write hin hstore, ← h.ecu]; rfl) rfl f
      exact ⟨f', hkept, trivial, hanswer, hstands⟩
    | crc pageIdx =>
      obtain ⟨n, rfl⟩ := hq
      obtain ⟨s', hs', hop⟩ := Link.pageCrc_link (n := n) hlink h.ready h.idle
      have hram : w.ram n.val = x.device.store.working.page n := by
        rw [World.ram, h.ecu, ecuPages_get]
        rfl
      obtain ⟨f', hkept, hanswer, hstands⟩ := h.request edits .crc id
        (fun w => crc32 (w.ram n.val)) hs' hop (by rw [hram]) h.ecu rfl f
      exact ⟨f', hkept, trivial, hanswer, hstands⟩
    | burn pageIdx =>
      obtain ⟨n, rfl⟩ := hq
      obtain ⟨s', hs', hop⟩ := Link.burn_link (n := n) hlink h.ready h.idle
      obtain ⟨f', hkept, hanswer, hstands⟩ := h.request edits .burn
        (fun w => w.modifyEcu n.val fun p => { p with eeprom := p.ram }) (fun _ => ()) hs' hop rfl
        (by rw [ecuPages_burn, ← h.ecu]; rfl) rfl f
      exact ⟨f', hkept, trivial, hanswer, hstands⟩
    | lock =>
      have htune : (edits w.locks).foldl Edit.apply w.tune = (edits x.locks).foldl Edit.apply x.tune := by
        rw [h.tune, h.locks]
      have hfitting := h.fitting.locked (edits x.locks)
      refine ⟨f, fun _ _ _ => rfl, hfitting, htune, ?_⟩
      exact ⟨htune, h.ecu, h.lastError, congrArg (· + 1) h.locks, h.ready, h.idle, hfitting⟩
    | modify g =>
      refine ⟨f, fun _ _ _ => rfl, trivial, rfl, ?_⟩
      exact ⟨congrArg g h.tune, h.ecu, h.lastError, h.locks, h.ready, h.idle, hq _ h.fitting⟩
    | setError text =>
      exact ⟨f, fun _ _ _ => rfl, trivial, rfl, h.tune, h.ecu, rfl, h.locks, h.ready, h.idle, h.fitting⟩

/-- **A program on the line runs as in `World`**, with the same result, for some fates of its requests: each is
answered, or fails though executed where the simulator corrupts its responses. -/
theorem run_on_line {link : Link} (hlink : link.Prompt) (edits : ℕ → List Edit) {α : Type}
    {p : CommsProgram F α} (hp : CommsProgram.Asks (fun _ => True) p) {x : Wired F} {w : World F}
    (h : Stands x w) :
    ∃ f : Fates link, (p.run (World.handle (f.env edits)) w).1 = (p.run (Wired.handle link edits) x).1 ∧
      Stands (p.run (Wired.handle link edits) x).2 (p.run (World.handle (f.env edits)) w).2 := by
  obtain ⟨f, -, hresult, hstands, -⟩ := (wired_refines hlink edits).run hp h (Fates.answered link)
  exact ⟨f, hresult, hstands⟩

/-! ## Download, flush and burn -/

/-- **Download, flush and burn on the line are those of `World`**, whatever clients edit meanwhile: they end
alike, with the same tune, the same error shown and the simulator's pages, for some fates of the requests,
each of which is answered, or fails though executed where the simulator corrupts responses. -/
theorem comms_on_line {link : Link} (hlink : link.Prompt) (edits : ℕ → List Edit) {x : Wired F}
    (hx : x.AtRest) :
    (∃ f : Fates link,
      (downloadTune (f.env edits) speeduino.commands UInt32.toNat x.world).1 =
        ((CommsProgram.downloadTune speeduino.commands).run (Wired.handle link edits) x).1 ∧
      Stands ((CommsProgram.downloadTune speeduino.commands).run (Wired.handle link edits) x).2
        (downloadTune (f.env edits) speeduino.commands UInt32.toNat x.world).2) ∧
    (∃ f : Fates link,
      Stands ((CommsProgram.flushDirty speeduino.commands).run (Wired.handle link edits) x).2
        (flushDirty (f.env edits) speeduino.commands x.world)) ∧
    ∃ f : Fates link,
      (doBurn (f.env edits) (some speeduino.commands) x.world).1 =
        ((CommsProgram.doBurn (some speeduino.commands)).run (Wired.handle link edits) x).1 ∧
      Stands ((CommsProgram.doBurn (some speeduino.commands)).run (Wired.handle link edits) x).2
        (doBurn (f.env edits) (some speeduino.commands) x.world).2 := by
  refine ⟨?_, ?_, ?_⟩
  · obtain ⟨f, hresult, hstands⟩ := run_on_line hlink edits CommsProgram.safe_downloadTune hx.stands
    rw [CommsProgram.run_downloadTune rfl] at hresult hstands
    exact ⟨f, hresult, hstands⟩
  · obtain ⟨f, -, hstands⟩ := run_on_line hlink edits CommsProgram.safe_flushDirty hx.stands
    rw [CommsProgram.run_flushDirty rfl] at hstands
    exact ⟨f, hstands⟩
  · obtain ⟨f, hresult, hstands⟩ := run_on_line hlink edits CommsProgram.safe_doBurn hx.stands
    rw [CommsProgram.run_doBurn rfl] at hresult hstands
    exact ⟨f, hresult, hstands⟩

namespace Wired

/-- A tune of zeros, and a simulator that has just started. -/
def start : Wired ℕ where
  tune := ⟨bareDef ℕ (PAGE_SIZES.map UInt32.ofNat), PAGE_SIZES.map fun size =>
    ⟨List.replicate size 0, List.replicate size 0, List.replicate size 0⟩, ∅, false⟩
  session := Session.fresh
  device := ⟨PageStore.blank, 0, []⟩
  lastError := none
  locks := 0

theorem atRest_start : start.AtRest := by
  refine ⟨⟨rfl, rfl, rfl⟩, rfl, List.length_map _, fun n p hp => ?_⟩
  rw [Tune.page, start, List.getElem?_map, List.getElem?_eq_getElem n.isLt, Option.map_some] at hp
  obtain rfl := Option.some.inj hp
  exact ⟨List.length_replicate, List.length_replicate⟩

/-- The same with a loaded tune, in which page 1 has a byte that the simulator does not have yet. -/
def edited : Wired ℕ :=
  { start with tune := { start.tune with
      loaded := true
      pages := start.tune.pages.modify 1 fun p => { p with data := p.data.set 3 7 } } }

theorem atRest_edited : edited.AtRest := by
  refine ⟨⟨rfl, rfl, rfl⟩, rfl, (List.length_modify _ _ _).trans (List.length_map _), fun n p hp => ?_⟩
  have hpages : edited.tune.pages = start.tune.pages.modify 1 fun p => { p with data := p.data.set 3 7 } := rfl
  rw [Tune.page, hpages, List.getElem?_modify] at hp
  obtain ⟨q, hq, rfl⟩ := Option.map_eq_some_iff.mp hp
  obtain ⟨hdata, hecu⟩ := atRest_start.fitting.size n q hq
  split_ifs with hn
  · exact ⟨List.length_set.trans hdata, hecu⟩
  · exact ⟨hdata, hecu⟩

end Wired

/-- A client that puts a byte of page 0 in front of the second lock. -/
def oneEdit : ℕ → List Edit
  | 1 => [⟨0, 9 :: List.replicate 127 0⟩]
  | _ => []

/-- A simulator that corrupts every third response, and a tune with an edit to be written. -/
theorem comms_on_line_edited :
    (∃ f : Fates (Link.direct 3 fun _ => []),
      (downloadTune (f.env oneEdit) speeduino.commands UInt32.toNat Wired.edited.world).1 =
        ((CommsProgram.downloadTune speeduino.commands).run
          (Wired.handle (Link.direct 3 fun _ => []) oneEdit) Wired.edited).1 ∧
      Stands ((CommsProgram.downloadTune speeduino.commands).run
          (Wired.handle (Link.direct 3 fun _ => []) oneEdit) Wired.edited).2
        (downloadTune (f.env oneEdit) speeduino.commands UInt32.toNat Wired.edited.world).2) ∧
    (∃ f : Fates (Link.direct 3 fun _ => []),
      Stands ((CommsProgram.flushDirty speeduino.commands).run
          (Wired.handle (Link.direct 3 fun _ => []) oneEdit) Wired.edited).2
        (flushDirty (f.env oneEdit) speeduino.commands Wired.edited.world)) ∧
    ∃ f : Fates (Link.direct 3 fun _ => []),
      (doBurn (f.env oneEdit) (some speeduino.commands) Wired.edited.world).1 =
        ((CommsProgram.doBurn (some speeduino.commands)).run
          (Wired.handle (Link.direct 3 fun _ => []) oneEdit) Wired.edited).1 ∧
      Stands ((CommsProgram.doBurn (some speeduino.commands)).run
          (Wired.handle (Link.direct 3 fun _ => []) oneEdit) Wired.edited).2
        (doBurn (f.env oneEdit) (some speeduino.commands) Wired.edited.world).2 :=
  comms_on_line (Link.prompt_direct 3 _) oneEdit Wired.atRest_edited

end RustyTune.Server
