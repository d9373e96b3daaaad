import RustyTune.Server.Api

/-!
# One connection, whatever the ECU answers

The comms thread of a primary connection from its download on. It takes the tune's lock for one section
at a time and asks the ECU in between; the answers may be anything, and clients edit the tune whenever
the lock is free.

* `Phase`: what the thread does next, with the values it holds. `Input`, `step`: its next section, the
  answer to its next request, an edit.
* `Verified s k`: of the first `k` pages all three copies agree, and their CRC is the last one the ECU
  answered for the page.
* `Inv`: what every step keeps (`Inv.step`).
* **`connection_verified`**: in every state of a connection every buffer has the size of its page, and
  the step that sets the tune loaded sets a verified tune loaded.
-/

namespace RustyTune.Server

open TsIni TuneModel EcuProto

variable {F : Type}

/-- What the comms thread does next. -/
inductive Phase
  /-- Read the page; so many retries are left. -/
  | reading (pageIdx retries : ℕ)
  /-- Ask for the CRC of the bytes read. -/
  | checking (pageIdx retries : ℕ) (bytes : List UInt8)
  /-- Install the verified bytes. -/
  | storing (pageIdx : ℕ) (bytes : List UInt8)
  /-- Set the tune loaded. -/
  | finishing
  | polling
  /-- Collect the dirty pages. -/
  | collecting
  /-- Take the spans of the next page. -/
  | flushing (pages : List ℕ)
  /-- Send the next write, or take the CRC of the shadow when all are sent. -/
  | writing (pageIdx : ℕ) (writes : List (ℕ × List UInt8)) (pages : List ℕ)
  /-- Mark a write as sent. -/
  | marking (pageIdx offset len : ℕ) (writes : List (ℕ × List UInt8)) (pages : List ℕ)
  /-- Compare the ECU's CRC of the page. -/
  | comparing (pageIdx : ℕ) (expected : UInt32) (pages : List ℕ)
  /-- Read the page again. -/
  | rereading (pageIdx : ℕ) (pages : List ℕ)
  /-- Install what was read as the shadow. -/
  | resyncing (pageIdx : ℕ) (bytes : List UInt8) (pages : List ℕ)
  /-- Collect the pages to burn. -/
  | burnCollecting
  | burning (pages : List ℕ)
  /-- Mark the page as burned. -/
  | burnMarking (pageIdx : ℕ) (pages : List ℕ)
  | ended

/-- A connection: the shared tune, the thread, and the last CRC the ECU answered for each page during the
download. -/
structure Conn (F : Type) where
  tune : Tune F
  phase : Phase
  crcs : ℕ → Option UInt32

/-- What happens next. -/
inductive Input (F : Type)
  /-- A client's edit takes the lock. -/
  | edit (msq : Option (String × Msq.MsqFile F)) (e : TuneEdit F)
  /-- The thread takes the lock for its next section. -/
  | lock
  /-- The answers to the requests of a page read, in order. -/
  | read (answers : List (Except ProtoError (List UInt8)))
  | crc (answer : Except ProtoError UInt32)
  /-- The answer to a write or a burn. -/
  | ack (answer : Except ProtoError Unit)
  | flush
  | burn
  /-- The thread leaves its loop: told to, or after an error. -/
  | exit
  /-- The thread leaves its loop with the engine stopped. -/
  | engineShutdown

/-- A request of a page read, answered by the next answer. -/
def nextAnswer (answers : List (Except ProtoError (List UInt8))) (_ _ : ℕ) :
    Except ProtoError (List UInt8) × List (Except ProtoError (List UInt8)) :=
  match answers with
  | [] => (.error .timeout, [])
  | a :: rest => (a, rest)

variable [F64 F] (m : Machine) (df : IniDef F) (pages : PageCommands)

/-- The download goes on with page `k`. -/
def downloadNext (k : ℕ) : Phase := if k < pages.pageCount then .reading k 1 else .finishing

/-- A connection as connecting leaves it. -/
def connect (previous : Tune F) : Conn F where
  tune := freshTune df previous
  phase := downloadNext pages 0
  crcs := fun _ => none

namespace Conn

/-- The thread's next section under the tune's lock. -/
def lock (s : Conn F) : Conn F :=
  match s.phase with
  | .storing k bytes => { s with tune := s.tune.loadPage k bytes, phase := downloadNext pages (k + 1) }
  | .finishing => { s with tune := s.tune.setLoaded true, phase := .polling }
  | .collecting =>
    { s with phase := .flushing ((List.range s.tune.pageCount).filter s.tune.pageDirty) }
  | .flushing [] => { s with phase := .polling }
  | .flushing (k :: rest) =>
    { s with phase := .writing k (chunkWrites pages (s.tune.dirtySpans k SPAN_MERGE_GAP)) rest }
  | .writing k [] rest =>
    { s with phase := .comparing k (crc32 (((s.tune.page k).map (·.ecu)).getD [])) rest }
  | .marking k offset len writes rest =>
    { s with tune := s.tune.markSent k offset len, phase := .writing k writes rest }
  | .resyncing k bytes rest => { s with tune := s.tune.resyncEcu k bytes, phase := .flushing rest }
  | .burnCollecting =>
    { s with phase := .burning ((List.range s.tune.pageCount).filter s.tune.pageBurnPending) }
  | .burning [] => { s with phase := .polling }
  | .burnMarking k rest => { s with tune := s.tune.markBurned k, phase := .burning rest }
  | _ => s

/-- The page read the thread makes, with what the ECU answers. -/
def read (s : Conn F) (answers : List (Except ProtoError (List UInt8))) : Conn F :=
  match s.phase with
  | .reading k retries =>
    match (readPage nextAnswer pages k answers).1 with
    | .ok bytes => { s with phase := .checking k retries bytes }
    -- the download has failed; the tune stays unloaded
    | .error _ => { s with phase := .polling }
  | .rereading k rest =>
    match (readPage nextAnswer pages k answers).1 with
    | .ok bytes => { s with phase := .resyncing k bytes rest }
    | .error _ => { s with phase := .flushing rest }
  | _ => s

/-- The ECU's answer to a CRC request. -/
def crc (s : Conn F) (answer : Except ProtoError UInt32) : Conn F :=
  match s.phase, answer with
  | .checking k retries bytes, .ok c =>
    let s := { s with crcs := Function.update s.crcs k (some c) }
    if c = crc32 bytes then { s with phase := .storing k bytes }
    else
      match retries with
      | 0 => { s with phase := .polling }
      | retries + 1 => { s with phase := .reading k retries }
  | .checking _ _ _, .error _ => { s with phase := .polling }
  | .comparing k expected rest, .ok c =>
    if c = expected then { s with phase := .flushing rest } else { s with phase := .rereading k rest }
  | .comparing _ _ rest, .error _ => { s with phase := .flushing rest }
  | _, _ => s

/-- The ECU's answer to a write or a burn. -/
def ack (s : Conn F) (answer : Except ProtoError Unit) : Conn F :=
  match s.phase, answer with
  | .writing k ((offset, values) :: writes) rest, .ok () =>
    { s with phase := .marking k offset values.length writes rest }
  | .writing _ (_ :: _) _, .error _ => { s with phase := .polling }
  | .burning (k :: rest), .ok () => { s with phase := .burnMarking k rest }
  | .burning (_ :: _), .error _ => { s with phase := .polling }
  | _, _ => s

def step (s : Conn F) : Input F → Conn F
  | .edit msq e =>
    match performEdit m df msq s.tune e with
    | .ok (_, t) => { s with tune := t }
    -- the request aborts with the lock in hand: no one gets the lock again
    | .error _ => { s with phase := .ended }
  | .lock => s.lock pages
  | .read answers => s.read pages answers
  | .crc answer => s.crc answer
  | .ack answer => s.ack answer
  | .flush =>
    match s.phase with
    | .polling => if s.tune.loaded then { s with phase := .collecting } else s
    | _ => s
  | .burn =>
    match s.phase with
    | .polling => if s.tune.loaded then { s with phase := .burnCollecting } else s
    | _ => s
  | .exit =>
    match s.phase with
    | .polling => { s with tune := s.tune.setLoaded false, phase := .ended }
    | _ => s
  | .engineShutdown =>
    match s.phase with
    | .polling => { s with phase := .ended }
    | _ => s

/-! ## The invariant -/

/-- Of the first `k` pages all three copies agree, and their CRC is the one the ECU answered last. -/
def Verified (s : Conn F) (k : ℕ) : Prop :=
  ∀ j < k, ∃ p, s.tune.page j = some p ∧ p.ecu = p.data ∧ p.burned = p.data ∧
    s.crcs j = some (crc32 p.data)

/-- The bytes have the size of the page. -/
def HasSize (k : ℕ) (bytes : List UInt8) : Prop :=
  ∀ size, df.header.pageSizes[k]? = some size → bytes.length = size.toNat

/-- What holds of the values the thread has in hand. -/
def PhaseInv (s : Conn F) : Prop :=
  match s.phase with
  | .reading k _ => s.tune.loaded = false ∧ s.Verified k
  | .checking k _ bytes =>
    s.tune.loaded = false ∧ s.Verified k ∧ HasSize df k bytes ∧ k < pages.pageCount
  | .storing k bytes =>
    s.tune.loaded = false ∧ s.Verified k ∧ HasSize df k bytes ∧ k < pages.pageCount ∧
      s.crcs k = some (crc32 bytes)
  | .finishing => s.tune.loaded = false ∧ s.Verified pages.pageCount
  | .resyncing k bytes _ => HasSize df k bytes
  | _ => True

/-- **The invariant of a connection.** -/
structure Inv (s : Conn F) : Prop where
  sized : s.tune.Sized
  ofDf : s.tune.df = df
  inHand : s.PhaseInv df pages

variable {m} {df} {pages} {s : Conn F}

omit [F64 F] in
theorem phaseInv_downloadNext {k : ℕ} (hphase : s.phase = downloadNext pages k)
    (hloaded : s.tune.loaded = false) (hk : k ≤ pages.pageCount) (hv : s.Verified k) :
    s.PhaseInv df pages := by
  unfold PhaseInv
  rw [hphase, downloadNext]
  split_ifs with hlt
  · exact ⟨hloaded, hv⟩
  · obtain rfl : k = pages.pageCount := by omega
    exact ⟨hloaded, hv⟩

omit [F64 F] in
/-- An answer for page `k` says nothing of the pages before. -/
theorem Verified.update {k : ℕ} (hv : s.Verified k) (c : Option UInt32) :
    Verified { s with crcs := Function.update s.crcs k c } k := by
  intro j hj
  obtain ⟨p, hp, hecu, hburned, hcrc⟩ := hv j hj
  refine ⟨p, hp, hecu, hburned, ?_⟩
  change Function.update s.crcs k c j = _
  rw [Function.update_of_ne (by omega)]
  exact hcrc

omit [F64 F] in
theorem Verified.loadPage {k : ℕ} {bytes : List UInt8} (hv : s.Verified k)
    (hk : k < s.tune.pages.length) (hcrc : s.crcs k = some (crc32 bytes)) :
    Verified { s with tune := s.tune.loadPage k bytes } (k + 1) := by
  intro j hj
  change ∃ p, (s.tune.modifyPage k _).page j = some p ∧ _
  rw [Tune.page_modifyPage]
  split_ifs with hkj
  · subst hkj
    have hpage : s.tune.page k = some s.tune.pages[k] := List.getElem?_eq_getElem hk
    rw [hpage]
    exact ⟨_, rfl, rfl, rfl, hcrc⟩
  · exact hv j (by omega)

omit [F64 F] in
theorem hasSize_readPage (hsizes : pages.sizes = df.header.pageSizes.map (·.toNat)) {k : ℕ}
    {answers : List (Except ProtoError (List UInt8))} {bytes : List UInt8}
    (h : (readPage nextAnswer pages k answers).1 = .ok bytes) :
    HasSize df k bytes ∧ k < pages.pageCount := by
  unfold readPage at h
  split at h
  · exact nomatch h
  next size hsize =>
    refine ⟨fun size' hsize' => ?_, (List.getElem?_eq_some_iff.mp hsize).1⟩
    rw [hsizes, List.getElem?_map, hsize'] at hsize
    obtain rfl := Option.some.inj hsize
    exact readFrom_length nextAnswer pages.blockingFactor_pos _ 0 [] answers rfl (Nat.zero_le _)
      (Nat.le_add_left _ _) bytes h

/-! ## Steps -/

theorem inv_connect (previous : Tune F) : (connect df pages previous).Inv df pages :=
  ⟨Tune.sized_new df, rfl,
    phaseInv_downloadNext rfl rfl (Nat.zero_le _) fun j hj => absurd hj (Nat.not_lt_zero j)⟩

omit [F64 F] in
theorem Inv.crc (h : s.Inv df pages) (answer : Except ProtoError UInt32) :
    (s.crc answer).Inv df pages := by
  obtain ⟨hsized, hdf, hphase⟩ := id h
  unfold Conn.crc
  unfold PhaseInv at hphase
  split
  next k retries bytes c hp =>
    rw [hp] at hphase
    obtain ⟨hloaded, hv, hsize, hk⟩ := hphase
    have hv' := hv.update (some c)
    dsimp only
    split_ifs with hc
    · refine ⟨hsized, hdf, hloaded, hv', hsize, hk, ?_⟩
      change Function.update s.crcs k (some c) k = _
      rw [Function.update_self, hc]
    · cases retries with
      | zero => exact ⟨hsized, hdf, trivial⟩
      | succ retries => exact ⟨hsized, hdf, hloaded, hv'⟩
  · exact ⟨hsized, hdf, trivial⟩
  · split_ifs
    · exact ⟨hsized, hdf, trivial⟩
    · exact ⟨hsized, hdf, trivial⟩
  · exact ⟨hsized, hdf, trivial⟩
  · exact h

omit [F64 F] in
theorem Inv.ack (h : s.Inv df pages) (answer : Except ProtoError Unit) :
    (s.ack answer).Inv df pages := by
  unfold Conn.ack
  split
  · exact ⟨h.sized, h.ofDf, trivial⟩
  · exact ⟨h.sized, h.ofDf, trivial⟩
  · exact ⟨h.sized, h.ofDf, trivial⟩
  · exact ⟨h.sized, h.ofDf, trivial⟩
  · exact h

/-- An edit during the download changes nothing, and one after it no size. -/
theorem Inv.edit (h : s.Inv df pages) {msq : Option (String × Msq.MsqFile F)} {e : TuneEdit F}
    {r : Except ApiError Unit} {t : Tune F} (he : performEdit m df msq s.tune e = .ok (r, t)) :
    Inv df pages { s with tune := t } := by
  obtain ⟨hrew, hsame⟩ := performEdit_rewrites he
  refine ⟨hrew.sized h.sized, hrew.df.trans h.ofDf, ?_⟩
  by_cases hloaded : s.tune.loaded = false
  · rw [hsame hloaded]
    exact h.inHand
  · have hphase := h.inHand
    unfold PhaseInv at hphase ⊢
    split at hphase <;> simp_all

/-! ## Setting the tune loaded -/

/-- Only the last section of the download sets the tune loaded. -/
theorem finishing_of_loads (i : Input F) (hload : s.tune.loaded = false)
    (hload' : (s.step m df pages i).tune.loaded = true) : s.phase = .finishing ∧ i = .lock := by
  cases i with
  | edit msq e =>
    simp only [step] at hload'
    split at hload'
    next he =>
      rw [(performEdit_rewrites he).1.loaded, hload] at hload'
      exact nomatch hload'
    · exact nomatch hload.symm.trans hload'
  | lock =>
    simp only [step, lock] at hload'
    split at hload'
    case h_2 hp => exact ⟨hp, rfl⟩
    all_goals exact nomatch hload.symm.trans hload'
  | read answers =>
    simp only [step, read] at hload'
    repeat' split at hload'
    all_goals exact nomatch hload.symm.trans hload'
  | crc answer =>
    simp only [step, crc] at hload'
    repeat' split at hload'
    all_goals exact nomatch hload.symm.trans hload'
  | ack answer =>
    simp only [step, ack] at hload'
    split at hload'
    all_goals exact nomatch hload.symm.trans hload'
  | flush | burn | engineShutdown =>
    simp only [step] at hload'
    repeat' split at hload'
    all_goals exact nomatch hload.symm.trans hload'
  | exit =>
    simp only [step] at hload'
    split at hload'
    · exact nomatch hload'
    · exact nomatch hload.symm.trans hload'

/-- **A tune that is set loaded is verified.** -/
theorem Inv.loads (h : s.Inv df pages) (i : Input F) (hload : s.tune.loaded = false)
    (hload' : (s.step m df pages i).tune.loaded = true) :
    (s.step m df pages i).Verified pages.pageCount := by
  obtain ⟨hp, rfl⟩ := finishing_of_loads i hload hload'
  have hphase := h.inHand
  unfold PhaseInv at hphase
  rw [hp] at hphase
  simp only [step, lock, hp]
  exact hphase.2

/-! ## Every run -/

variable (hsizes : pages.sizes = df.header.pageSizes.map (·.toNat))

include hsizes

omit [F64 F] in
theorem Inv.pageCount (h : s.Inv df pages) : s.tune.pages.length = pages.pageCount := by
  have hcount := h.sized.pageCount
  rw [h.ofDf] at hcount
  rw [PageCommands.pageCount, hsizes, List.length_map, ← hcount, Tune.pageCount]

omit [F64 F] in
theorem Inv.lock (h : s.Inv df pages) : (s.lock pages).Inv df pages := by
  obtain ⟨hsized, hdf, hphase⟩ := id h
  unfold Conn.lock
  unfold PhaseInv at hphase
  match hp : s.phase with
  | .storing k bytes =>
    rw [hp] at hphase
    obtain ⟨hloaded, hv, hsize, hk, hcrc⟩ := hphase
    refine ⟨hsized.loadPage (hdf.symm ▸ hsize), hdf, ?_⟩
    exact phaseInv_downloadNext rfl hloaded hk
      (hv.loadPage (by rw [h.pageCount hsizes]; exact hk) hcrc)
  | .finishing => exact ⟨hsized.setLoaded true, hdf, trivial⟩
  | .collecting => exact ⟨hsized, hdf, trivial⟩
  | .flushing [] => exact ⟨hsized, hdf, trivial⟩
  | .flushing (k :: rest) => exact ⟨hsized, hdf, trivial⟩
  | .writing k [] rest => exact ⟨hsized, hdf, trivial⟩
  | .marking k offset len writes rest => exact ⟨hsized.markSent k offset len, hdf, trivial⟩
  | .resyncing k bytes rest =>
    rw [hp] at hphase
    exact ⟨hsized.resyncEcu (hdf.symm ▸ hphase), hdf, trivial⟩
  | .burnCollecting => exact ⟨hsized, hdf, trivial⟩
  | .burning [] => exact ⟨hsized, hdf, trivial⟩
  | .burnMarking k rest => exact ⟨hsized.markBurned k, hdf, trivial⟩
  | .reading _ _ | .checking _ _ _ | .polling | .writing _ (_ :: _) _ | .comparing _ _ _
  | .rereading _ _ | .burning (_ :: _) | .ended => exact h

omit [F64 F] in
theorem Inv.read (h : s.Inv df pages) (answers : List (Except ProtoError (List UInt8))) :
    (s.read pages answers).Inv df pages := by
  obtain ⟨hsized, hdf, hphase⟩ := id h
  unfold Conn.read
  unfold PhaseInv at hphase
  split
  next k retries hp =>
    rw [hp] at hphase
    split
    next bytes hread =>
      obtain ⟨hsize, hk⟩ := hasSize_readPage hsizes hread
      exact ⟨hsized, hdf, hphase.1, hphase.2, hsize, hk⟩
    · exact ⟨hsized, hdf, trivial⟩
  next k rest hp =>
    split
    next bytes hread => exact ⟨hsized, hdf, (hasSize_readPage hsizes hread).1⟩
    · exact ⟨hsized, hdf, trivial⟩
  · exact h

/-- **Every step keeps the invariant.** -/
theorem Inv.step (h : s.Inv df pages) (i : Input F) : (s.step m df pages i).Inv df pages := by
  cases i with
  | edit msq e =>
    simp only [Conn.step]
    split
    next he => exact h.edit he
    · exact ⟨h.sized, h.ofDf, trivial⟩
  | lock => exact h.lock hsizes
  | read answers => exact h.read hsizes answers
  | crc answer => exact h.crc answer
  | ack answer => exact h.ack answer
  | flush | burn =>
    simp only [Conn.step]
    split
    · split_ifs
      · exact ⟨h.sized, h.ofDf, trivial⟩
      · exact h
    · exact h
  | exit =>
    simp only [Conn.step]
    split
    · exact ⟨h.sized.setLoaded false, h.ofDf, trivial⟩
    · exact h
  | engineShutdown =>
    simp only [Conn.step]
    split
    · exact ⟨h.sized, h.ofDf, trivial⟩
    · exact h

end Conn

/-- **In every state of a connection the buffers have the sizes of the pages, and the step that sets the
tune loaded sets loaded a tune whose copies agree and have the CRC the ECU answered.** -/
theorem connection_verified (set : CommandSet) (hset : pageCommands df.header = .ok set)
    (previous : Tune F) (inputs : List (Input F)) :
    let s := inputs.foldl (Conn.step m df set.commands) (connect df set.commands previous)
    s.tune.Sized ∧ ∀ i, s.tune.loaded = false → (s.step m df set.commands i).tune.loaded = true →
      (s.step m df set.commands i).Verified set.commands.pageCount := by
  intro s
  have hsizes : set.commands.sizes = df.header.pageSizes.map (·.toNat) := by
    rw [← sizes_of_pageCommands hset, List.map_map]
    rfl
  have hs : s.Inv df set.commands := by
    refine List.foldlRecOn inputs _ (Conn.inv_connect previous) fun s hs i _ => hs.step hsizes i
  exact ⟨hs.sized, fun i hload hload' => hs.loads i hload hload'⟩

/-- One page of four bytes. -/
def fourBytes : CommandSet := ⟨[onePage 4], 4, sixByteSet.blockingFactor_pos, 0⟩

theorem connection_verified_fourBytes :
    let step := Conn.step ⟨.release, 8⟩ (onePageDef 4 4) fourBytes.commands
    let inputs := [.read [.ok [1, 2, 3, 4]], .crc (.ok (crc32 [1, 2, 3, 4])), .lock]
    let s := inputs.foldl step
      (connect (onePageDef 4 4) fourBytes.commands (Tune.new (onePageDef 4 4)))
    s.tune.loaded = false ∧ (step s .lock).tune.loaded = true ∧ (step s .lock).Verified 1 := by
  have hverified := (connection_verified ⟨.release, 8⟩ (onePageDef 4 4) fourBytes (by decide +kernel)
    (Tune.new (onePageDef 4 4)) [.read [.ok [1, 2, 3, 4]], .crc (.ok (crc32 [1, 2, 3, 4])), .lock]).2
      .lock (by decide +kernel) (by decide +kernel)
  exact ⟨by decide +kernel, by decide +kernel, hverified⟩

end RustyTune.Server
