import RustyTune.Lib.Run
import RustyTune.EcuProto.Envelope
import RustyTune.Server.Bytes

/-!
# Edits and flushes under faults

A write may be executed although its answer is lost. The shadow is then behind the ECU, and as long
as the local data differs from the shadow there, the byte stays to be sent.

* `Tracked`: wherever RAM differs from the shadow, the local data differs from the shadow too.
* **`downloadTune_loaded`**: after a successful download all copies of a page are the ECU's RAM.
* `Tracked.flush`: a flush keeps `Tracked`, whatever becomes of its requests. `Tracked.edit`: so does
  an edit that sets no byte back to the shadow where RAM has moved on.
* **`synced_of_keepsTrack`**: in a run of such edits and of flushes every page that is not dirty has
  the bytes of RAM. **`revert_not_synced`**: setting a byte back hides it.
-/

namespace RustyTune.Server

open TuneModel EcuProto World

variable {F κ : Type} {env : Env κ} {pages : PageCommands} {w w' : World F}

/-- No edit falls between two locks of the comms thread. -/
def Env.Quiet (env : Env κ) : Prop := ∀ n, env.edits n = []

theorem Env.Quiet.on (h : env.Quiet) (a b : ℕ) : env.QuietOn a b := fun n _ _ => h n

theorem Env.Quiet.lock_tune (h : env.Quiet) (w : World F) : (w.lock env).tune = w.tune := by
  rw [lock_of_quiet (h _)]

/-! ## Download -/

/-- Every copy of a page is the ECU's RAM. -/
structure Loaded (w : World F) : Prop where
  count : w.tune.pages.length = w.ecu.length
  page : ∀ j p e, w.tune.page j = some p → w.ecu[j]? = some e → p = ⟨e.ram, e.ram, e.ram⟩

section Download

variable [DecidableEq κ] {crcNat : κ → ℕ}

/-- An attempt at a page that leads to success has the page verified, or is followed by another. -/
theorem downloadPage_cases (ha : pages.Addressable) {i retries : ℕ} (hf : Fits pages w)
    (h : downloadPage env pages crcNat i retries w = (.ok (), w')) :
    (∃ w₂, Asked w w₂ ∧ w' = (w₂.lock env).modifyTune (·.loadPage i (w.ram i))) ∨
    ∃ n w₂, retries = n + 1 ∧ Asked w w₂ ∧ downloadPage env pages crcNat i n w₂ = (.ok (), w') := by
  rw [downloadPage.eq_def] at h
  have hread := readPage_asked env pages i w
  match hr : w.readPage env pages i with
  | (.error e, w₁) => rw [hr] at h; simp at h
  | (.ok bytes, w₁) =>
    rw [hr] at h hread
    obtain rfl := readPage_ram hf ha (congrArg Prod.fst hr)
    dsimp only at h
    have hcrc := pageCrc_asked env w₁ i
    match hc : w₁.pageCrc env i with
    | (.error e, w₂) => rw [hc] at h; simp at h
    | (.ok ecuCrc, w₂) =>
      rw [hc] at h hcrc
      dsimp only at h
      have hasked := hread.trans hcrc
      split_ifs at h with heq
      · exact Or.inl ⟨w₂, hasked, (Prod.mk.inj h).2.symm⟩
      · cases retries with
        | zero => simp at h
        | succ n => exact Or.inr ⟨n, w₂, rfl, hasked, h⟩

theorem downloadPage_ok (hq : env.Quiet) (ha : pages.Addressable) {i retries : ℕ}
    (hf : Fits pages w) (h : downloadPage env pages crcNat i retries w = (.ok (), w')) :
    w'.ecu = w.ecu ∧ w'.tune = w.tune.loadPage i (w.ram i) := by
  induction retries generalizing w with
  | zero =>
    rcases downloadPage_cases ha hf h with ⟨w₂, hasked, rfl⟩ | ⟨n, w₂, hn, -⟩
    · exact ⟨hasked.ecu, by
        show (w₂.lock env).tune.loadPage i (w.ram i) = _
        rw [hq.lock_tune, hasked.tune]⟩
    · omega
  | succ n ih =>
    rcases downloadPage_cases ha hf h with ⟨w₂, hasked, rfl⟩ | ⟨n', w₂, hn, hasked, h'⟩
    · exact ⟨hasked.ecu, by
        show (w₂.lock env).tune.loadPage i (w.ram i) = _
        rw [hq.lock_tune, hasked.tune]⟩
    · obtain rfl : n = n' := by omega
      obtain ⟨h1, h2⟩ := ih (by unfold Fits at hf ⊢; rw [hasked.ecu]; exact hf) h'
      exact ⟨h1.trans hasked.ecu, by rw [h2, hasked.tune, hasked.ram]⟩

theorem downloadPages_ok (hq : env.Quiet) (ha : pages.Addressable) :
    ∀ (is : List ℕ) (w w' : World F), Fits pages w →
      downloadPages env pages crcNat is w = (.ok (), w') →
      w'.ecu = w.ecu ∧ w'.tune.pages.length = w.tune.pages.length ∧ ∀ j, w'.tune.page j =
        if j ∈ is then (w.tune.page j).map fun _ => ⟨w.ram j, w.ram j, w.ram j⟩ else w.tune.page j
  | [], w, w', _, h => by
    obtain rfl : w = w' := by simpa [downloadPages] using h
    exact ⟨rfl, rfl, fun j => rfl⟩
  | i :: is, w, w', hf, h => by
    rw [downloadPages] at h
    match hd : downloadPage env pages crcNat i 1 w with
    | (.error e, w₁) => rw [hd] at h; simp at h
    | (.ok (), w₁) =>
      rw [hd] at h
      obtain ⟨h1, h2⟩ := downloadPage_ok hq ha hf hd
      obtain ⟨h3, h4, h5⟩ := downloadPages_ok hq ha is w₁ w'
        (by unfold Fits at hf ⊢; rw [h1]; exact hf) h
      have hram : ∀ j, w₁.ram j = w.ram j := fun j => by rw [World.ram, World.ram, h1]
      refine ⟨h3.trans h1, ?_, fun j => ?_⟩
      · rw [h4, h2]; simp [Tune.loadPage]
      · rw [h5 j, h2, Tune.loadPage, Tune.page_modifyPage, hram]
        by_cases hj : i = j
        · subst hj
          cases w.tune.page i <;> simp
        · simp only [hj, if_false, List.mem_cons, show ¬ j = i from fun e => hj e.symm, false_or]

/-- **After a successful download all copies of a page are the ECU's RAM.** -/
theorem downloadTune_loaded (hq : env.Quiet) (ha : pages.Addressable) (hf : Fits pages w)
    (hcount : w.tune.pages.length = pages.sizes.length)
    (h : downloadTune env pages crcNat w = (.ok (), w')) : Fits pages w' ∧ Loaded w' := by
  obtain ⟨h1, h2, h3⟩ := downloadPages_ok hq ha _ w w' hf h
  have hsizes : pages.sizes.length = w.ecu.length := by rw [← hf, List.length_map]
  refine ⟨by unfold Fits at hf ⊢; rw [h1]; exact hf, by rw [h1]; omega, fun j p e hp he => ?_⟩
  have hj : j < w.ecu.length := by rw [← h1]; exact (List.getElem?_eq_some_iff.mp he).1
  rw [h3, if_pos (List.mem_range.mpr (by rw [PageCommands.pageCount]; omega))] at hp
  obtain ⟨q, -, rfl⟩ := Option.map_eq_some_iff.mp hp
  have hram : w.ram j = e.ram := by rw [World.ram, ← h1, he]; rfl
  rw [hram]

end Download

/-! ## What is tracked -/

/-- Wherever RAM differs from the shadow, the local data differs from the shadow too. -/
structure Tracked (w : World F) : Prop where
  sized : Sized w
  byte : ∀ (j : ℕ) (p : PageState) (e : EcuPage), w.tune.page j = some p → w.ecu[j]? = some e →
    ∀ i : ℕ, p.ecu[i]? ≠ e.ram[i]? → p.data[i]? ≠ p.ecu[i]?

/-- Every page that is not dirty has the bytes of the ECU's RAM. -/
def Synced (w : World F) : Prop :=
  ∀ j p e, w.tune.page j = some p → w.ecu[j]? = some e → w.tune.pageDirty j = false → p.data = e.ram

theorem Loaded.tracked (h : Loaded w) : Tracked w where
  sized := ⟨h.count, fun j p e hp he => by rw [h.page j p e hp he]; exact ⟨rfl, rfl⟩⟩
  byte := fun j p e hp he i hne => by rw [h.page j p e hp he] at hne; exact absurd rfl hne

theorem not_dirty {j : ℕ} {p : PageState} (hp : w.tune.page j = some p)
    (h : w.tune.pageDirty j = false) : p.data = p.ecu := by
  simpa [Tune.pageDirty, hp] using h

theorem Tracked.synced (h : Tracked w) : Synced w := by
  intro j p e hp he hd
  have heq := not_dirty hp hd
  refine List.ext_getElem? fun i => ?_
  by_contra hne
  exact h.byte j p e hp he i (by rw [← heq]; exact hne) (by rw [heq])

/-! ## Flushes -/

section Flush

variable [DecidableEq κ]

/-- The pages a flush takes up. -/
def dirtyPages (w : World F) : List ℕ := (List.range w.tune.pageCount).filter w.tune.pageDirty

theorem dirtyPages_nodup (w : World F) : (dirtyPages w).Nodup := List.nodup_range.filter _

theorem mem_dirtyPages {j : ℕ} {p : PageState} (hp : w.tune.page j = some p) :
    j ∈ dirtyPages w ↔ p.data ≠ p.ecu := by
  have hj : j < w.tune.pageCount := (List.getElem?_eq_some_iff.mp hp).1
  simp [dirtyPages, hj, Tune.pageDirty, hp]

theorem flushDirty_of_not_loaded (h : (w.lock env).tune.loaded = false) :
    flushDirty env pages w = w.lock env := by
  simp [flushDirty, h]

omit [DecidableEq κ] in
theorem Flushed.of_locks {is : List ℕ} {n : ℕ} (h : Flushed env pages is { w with locks := n } w') :
    Flushed env pages is w w' := ⟨h.ecu, h.loaded, h.pageCount, h.page⟩

variable (pages) in
/-- A flush of a loaded tune, with no client at work from its second lock on. -/
theorem flushDirty_flushed (hl : (w.lock env).tune.loaded = true)
    (hq : env.QuietOn (w.locks + 1) (flushDirty env pages w).locks) :
    Flushed env pages (dirtyPages (w.lock env)) (w.lock env) (flushDirty env pages w) := by
  have hdef : flushDirty env pages w =
      flushPages env pages (dirtyPages ((w.lock env).lock env)) ((w.lock env).lock env) := by
    simp [flushDirty, hl, dirtyPages]
  have hmono := flushPages_locks env pages (dirtyPages ((w.lock env).lock env))
    ((w.lock env).lock env)
  have hlocks : ((w.lock env).lock env).locks = w.locks + 1 + 1 := rfl
  rw [hdef] at hq ⊢
  have hlock := lock_of_quiet (w := w.lock env) (hq (w.locks + 1) (Nat.le_refl _) (by omega))
  have hfl := flushPages_quiet (dirtyPages ((w.lock env).lock env)) ((w.lock env).lock env)
    (dirtyPages_nodup _) (hq.mono (by omega) (Nat.le_refl _))
  rw [hlock] at hfl ⊢
  exact hfl.of_locks

omit [DecidableEq κ] in
/-- Each page of the tune before a flush is one after it, and the other way round. -/
theorem Flushed.exists_before {is : List ℕ} (h : Flushed env pages is w w') {j : ℕ}
    {p' : PageState} {e' : EcuPage} (hp : w'.tune.page j = some p') (he : w'.ecu[j]? = some e') :
    ∃ p e, w.tune.page j = some p ∧ w.ecu[j]? = some e := by
  have hj : j < w.tune.pages.length := by
    have := h.pageCount
    simp only [Tune.pageCount] at this
    rw [← this]
    exact (List.getElem?_eq_some_iff.mp hp).1
  have he' : j < w.ecu.length := by
    have hl := congrArg List.length (map_length_writeAll (executedWrites env pages is w) w.ecu)
    rw [List.length_map, List.length_map] at hl
    rw [← hl, ← h.ecu]
    exact (List.getElem?_eq_some_iff.mp he).1
  exact ⟨_, _, List.getElem?_eq_getElem hj, List.getElem?_eq_getElem he'⟩

omit [DecidableEq κ] in
theorem Flushed.count {is : List ℕ} (h : Flushed env pages is w w')
    (hc : w.tune.pages.length = w.ecu.length) : w'.tune.pages.length = w'.ecu.length := by
  have hl := congrArg List.length (map_length_writeAll (executedWrites env pages is w) w.ecu)
  rw [List.length_map, List.length_map, ← h.ecu] at hl
  have := h.pageCount
  simp only [Tune.pageCount] at this
  omega

omit [DecidableEq κ] in
/-- **Whatever becomes of its requests, a flush keeps track.** -/
theorem Tracked.flushed {is : List ℕ} (hnd : is.Nodup) (hf : Fits pages w) (ha : pages.Addressable)
    (h : Tracked w) (hfl : Flushed env pages is w w') : Tracked w' := by
  have key : ∀ j p' e', w'.tune.page j = some p' → w'.ecu[j]? = some e' →
      (p'.data.length = e'.ram.length ∧ p'.ecu.length = e'.ram.length) ∧
      ∀ i : ℕ, p'.ecu[i]? ≠ e'.ram[i]? → p'.data[i]? ≠ p'.ecu[i]? := by
    intro j p' e' hp' he'
    obtain ⟨p, e, hp, he⟩ := hfl.exists_before hp' he'
    obtain ⟨h1, h2⟩ := h.sized.size j p e hp he
    obtain ⟨q', r', hq', hr', hpf⟩ := hfl.bytes h.sized hnd hp he
    obtain rfl := Option.some.inj (hq'.symm.trans hp')
    obtain rfl := Option.some.inj (hr'.symm.trans he')
    obtain ⟨hlen, hram⟩ := hpf.ram_bytes h.sized hnd hp he (hf.length_le ha he)
    have hdata : q'.data.length = r'.ram.length := by rw [hpf.data]; omega
    rcases hpf.ecu with ⟨hlecu, hecu⟩ | ⟨-, -, -, hread⟩
    · refine ⟨⟨hdata, hlecu⟩, fun i hne => ?_⟩
      rw [hecu, hram] at hne
      rw [hecu, hpf.data]
      split_ifs at hne ⊢ with hans hexec hexec
      -- answered writes are executed, so only bytes outside them are left
      · exact absurd rfl hne
      · exact absurd (hans.mono (onPage_mono (answeredWrites_le env pages is w) j)) hexec
      · exact fun heq => hne heq.symm
      · exact h.byte j p e hp he i hne
    · exact ⟨⟨hdata, by rw [hread hf ha]⟩, fun i hne => absurd (by rw [hread hf ha]) hne⟩
  exact ⟨⟨hfl.count h.sized.count, fun j p e hp he => (key j p e hp he).1⟩,
    fun j p e hp he => (key j p e hp he).2⟩

omit [DecidableEq κ] in
theorem Tracked.lock (hq : env.Quiet) (h : Tracked w) : Tracked (w.lock env) := by
  rw [lock_of_quiet (hq _)]
  exact ⟨⟨h.sized.count, h.sized.size⟩, h.byte⟩

theorem Tracked.flush (hq : env.Quiet) (hf : Fits pages w) (ha : pages.Addressable)
    (h : Tracked w) : Fits pages (flushDirty env pages w) ∧ Tracked (flushDirty env pages w) := by
  cases hl : (w.lock env).tune.loaded with
  | false =>
    rw [flushDirty_of_not_loaded hl]
    exact ⟨hf, h.lock hq⟩
  | true =>
    have hfl := flushDirty_flushed pages hl (hq.on _ _)
    have hf' : Fits pages (w.lock env) := hf
    exact ⟨hfl.fits hf', (h.lock hq).flushed (dirtyPages_nodup _) hf' ha hfl⟩

/-! ## Runs -/

/-- What happens between two looks at the tune. -/
inductive TuneStep
  | edit (e : Edit)
  | flush
  deriving DecidableEq, Repr

def tuneStep (env : Env κ) (pages : PageCommands) (w : World F) : TuneStep → World F
  | .edit e => w.modifyTune (Edit.apply · e)
  | .flush => flushDirty env pages w

/-- The step sets no byte back to the shadow where the ECU's RAM has moved on. -/
def KeepsTrack (w : World F) : TuneStep → Prop
  | .edit e => ∀ (p : PageState) (r : EcuPage), w.tune.page e.page = some p →
      w.ecu[e.page]? = some r → ∀ i : ℕ, p.ecu[i]? ≠ r.ram[i]? → e.data[i]? ≠ p.ecu[i]?
  | .flush => True

theorem page_edit (t : Tune F) (e : Edit) (j : ℕ) : (e.apply t).page j = t.page j ∨
    j = e.page ∧ ∃ p, t.page j = some p ∧ e.data.length = p.data.length ∧
      (e.apply t).page j = some { p with data := e.data } := by
  unfold Edit.apply
  split_ifs with hl
  · by_cases hj : e.page = j
    · subst hj
      rw [Tune.page_modifyPage, if_pos rfl]
      cases hp : t.page e.page with
      | none => exact Or.inl rfl
      | some p =>
        by_cases hlen : e.data.length = p.data.length
        · exact Or.inr ⟨rfl, p, rfl, hlen, by simp [hlen]⟩
        · exact Or.inl (by simp [hlen])
    · exact Or.inl (by rw [Tune.page_modifyPage, if_neg hj])
  · exact Or.inl rfl

theorem pages_length_edit (t : Tune F) (e : Edit) : (e.apply t).pages.length = t.pages.length := by
  unfold Edit.apply
  split_ifs <;> simp

theorem Tracked.edit (h : Tracked w) {e : Edit} (hk : KeepsTrack w (.edit e)) :
    Tracked (w.modifyTune (Edit.apply · e)) := by
  have key : ∀ j p' r, (e.apply w.tune).page j = some p' → w.ecu[j]? = some r →
      (p'.data.length = r.ram.length ∧ p'.ecu.length = r.ram.length) ∧
      ∀ i : ℕ, p'.ecu[i]? ≠ r.ram[i]? → p'.data[i]? ≠ p'.ecu[i]? := by
    intro j p' r hp' hr
    rcases page_edit w.tune e j with heq | ⟨rfl, p, hp, hlen, heq⟩
    · rw [heq] at hp'
      exact ⟨h.sized.size j p' r hp' hr, h.byte j p' r hp' hr⟩
    · obtain rfl := Option.some.inj (heq.symm.trans hp')
      obtain ⟨h1, h2⟩ := h.sized.size _ p r hp hr
      exact ⟨⟨hlen.trans h1, h2⟩, hk p r hp hr⟩
  refine ⟨⟨?_, fun j p r hp hr => (key j p r hp hr).1⟩, fun j p r hp hr => (key j p r hp hr).2⟩
  show (e.apply w.tune).pages.length = w.ecu.length
  rw [pages_length_edit, h.sized.count]

/-- The tune goes live after its download. -/
def live (w : World F) : World F := w.modifyTune (·.setLoaded true)

/-- **No lost edit in runs that keep track.** After a successful download, in every run of edits and
flushes, whatever becomes of their requests, that sets no byte back to the shadow where RAM has moved
on, every page that is not dirty has the bytes of RAM. -/
theorem synced_of_keepsTrack {crcNat : κ → ℕ} (hq : env.Quiet) (ha : pages.Addressable)
    (hf : Fits pages w) (hcount : w.tune.pages.length = pages.sizes.length)
    (hdl : downloadTune env pages crcNat w = (.ok (), w')) (steps : List TuneStep)
    (hok : Along (tuneStep env pages) KeepsTrack (live w') steps) (pre : List TuneStep)
    (hpre : pre <+: steps) : Synced (pre.foldl (tuneStep env pages) (live w')) := by
  obtain ⟨hf', hloaded⟩ := downloadTune_loaded hq ha hf hcount hdl
  have htrack := hloaded.tracked
  have hinit : Fits pages (live w') ∧ Tracked (live w') :=
    ⟨hf', ⟨htrack.sized.count, htrack.sized.size⟩, htrack.byte⟩
  obtain ⟨rest, rfl⟩ := hpre
  refine (Along.invariant (I := fun w => Fits pages w ∧ Tracked w) (fun w s hinv hk => ?_) hinit
    hok.initial).2.synced
  cases s with
  | edit e => exact ⟨hinv.1, hinv.2.edit hk⟩
  | flush => exact hinv.2.flush hq hinv.1 ha

/-! ## A page of one byte -/

/-- A definition with pages of the given sizes and nothing on them. -/
def bareDef (F : Type) (sizes : List UInt32) : TsIni.IniDef F where
  signature := ""
  header := { pageSizes := sizes }
  pcVariables := ∅
  constants := ∅
  requiresPowerCycle := []
  defaultValues := []
  outputChannels := ∅

/-- A tune of one page of one byte, and an ECU that has a 0 there. -/
def oneByte : World ℕ where
  tune := ⟨bareDef ℕ [1], [⟨[0], [0], [0]⟩], ∅, false⟩
  ecu := [⟨[0], [0]⟩]
  lastError := none
  issued := fun _ => 0
  locks := 0

def oneBytePages : PageCommands := ⟨[1], 251, by decide⟩

/-- The first write is executed and its answer lost. -/
def lostAnswer : Env UInt32 where
  fate
    | .write, 0 => .failed true .timeout
    | _, _ => .answered
  edits := fun _ => []
  crc := crc32

def downloaded : World ℕ := (downloadTune lostAnswer oneBytePages UInt32.toNat oneByte).2

theorem downloaded_ok :
    downloadTune lostAnswer oneBytePages UInt32.toNat oneByte = (.ok (), downloaded) :=
  Prod.ext (by decide +kernel) rfl

theorem live_downloaded_page : (live downloaded).tune.page 0 = some ⟨[0], [0], [0]⟩ ∧
    (live downloaded).ecu[0]? = some ⟨[0], [0]⟩ := by
  constructor <;> decide +kernel

/-- An edit, a flush that loses its answer, and the flush that repairs it. -/
def repaired : List TuneStep := [.edit ⟨0, [1]⟩, .flush, .flush]

theorem repaired_synced :
    Along (tuneStep lostAnswer oneBytePages) KeepsTrack (live downloaded) repaired ∧
    Synced (repaired.foldl (tuneStep lostAnswer oneBytePages) (live downloaded)) := by
  have hok : Along (tuneStep lostAnswer oneBytePages) KeepsTrack (live downloaded) repaired := by
    refine ⟨fun p r hp hr i hne => ?_, trivial, trivial, trivial⟩
    obtain rfl := Option.some.inj (live_downloaded_page.1.symm.trans hp)
    obtain rfl := Option.some.inj (live_downloaded_page.2.symm.trans hr)
    exact absurd rfl hne
  have haddr : oneBytePages.Addressable := by
    intro size hsize
    obtain rfl := List.mem_singleton.mp hsize
    decide
  have hfits : Fits oneBytePages oneByte := rfl
  exact ⟨hok, synced_of_keepsTrack (fun _ => rfl) haddr hfits rfl downloaded_ok repaired hok repaired
    (List.prefix_refl _)⟩

/-- **A byte set back after a write that got lost on the way back is not dirty, and not in RAM.** -/
theorem revert_not_synced : ¬ ∀ (env : Env UInt32) (pages : PageCommands) (w w' : World ℕ)
    (steps : List TuneStep), env.Quiet → pages.Addressable → Fits pages w →
    w.tune.pages.length = pages.sizes.length →
    downloadTune env pages UInt32.toNat w = (.ok (), w') →
    Synced (steps.foldl (tuneStep env pages) (live w')) := by
  intro h
  have hsynced := h lostAnswer oneBytePages oneByte downloaded
    [.edit ⟨0, [1]⟩, .flush, .edit ⟨0, [0]⟩] (fun _ => rfl)
    (by intro size hsize; obtain rfl := List.mem_singleton.mp hsize; decide) rfl rfl downloaded_ok
  have := hsynced 0 ⟨[0], [0], [0]⟩ ⟨[1], [0]⟩ (by decide +kernel) (by decide +kernel)
    (by decide +kernel)
  simp at this

end Flush

end RustyTune.Server
