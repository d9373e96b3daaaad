import RustyTune.Server.Flush

/-!
# What a flush does to each byte

* `Sized`: the tune and the ECU have the same pages, of the same sizes.
* `chunkWrites_pieces`, `chunkWrites_cover`: the planned writes of a page carry its local bytes and
  cover every byte that is not in the shadow yet.
* **`Flushed.bytes`**: after a flush with no client at work, a byte of RAM is the local one where an
  executed write covers it and the old one elsewhere, and so is a byte of the shadow with the
  answered writes, unless the shadow was read anew.
-/

namespace RustyTune.Server

open TuneModel EcuProto World

variable {F κ : Type} {env : Env κ} {pages : PageCommands} {w w' : World F}

/-! ## Planned writes -/

theorem chunkWrites_pieces (pages : PageCommands) {data : List UInt8}
    {spans : List (ℕ × List UInt8)} (h : Pieces data spans) :
    Pieces data (chunkWrites pages spans) := by
  rintro ⟨o, c⟩ hx
  obtain ⟨⟨off, bs⟩, hs, hx⟩ := List.mem_flatMap.mp hx
  obtain ⟨h1, h2⟩ := h _ hs
  obtain ⟨h3, h4, -, -, h5⟩ := mem_chunksAt pages.blockingFactor_pos hx
  dsimp only at h1 h2 h3 h4 h5 ⊢
  refine ⟨by omega, h5.trans ?_⟩
  refine List.ext_getElem? fun k => ?_
  rw [getElem?_slice, getElem?_slice, h2, getElem?_slice]
  split_ifs with hk hk'
  · congr 1; omega
  · omega
  · rfl

theorem chunkWrites_cover (pages : PageCommands) {spans : List (ℕ × List UInt8)} {i : ℕ}
    (h : Covers spans i) : Covers (chunkWrites pages spans) i := by
  obtain ⟨⟨off, bs⟩, hs, h1, h2⟩ := h
  obtain ⟨oc, hoc, h⟩ := chunksAt_cover pages.blockingFactor_pos h1 h2
  exact ⟨oc, List.mem_flatMap.mpr ⟨_, hs, hoc⟩, h⟩

/-! ## Writes of pieces of the local data -/

/-- Marking pieces of the local data puts them into the shadow. -/
theorem foldl_sent {p : PageState} {ws : List (ℕ × List UInt8)} (hps : Pieces p.data ws) :
    ws.foldl (fun p x => sent x.1 x.2.length p) p =
      { p with ecu := ws.foldl (fun l x => overwrite l x.1 x.2) p.ecu } := by
  induction ws generalizing p with
  | nil => rfl
  | cons x ws ih =>
    obtain ⟨⟨hin, hslice⟩, hrest⟩ := Pieces.cons.mp hps
    have hsent : sent x.1 x.2.length p = { p with ecu := overwrite p.ecu x.1 x.2 } := by
      rw [sent, if_pos hin, ← hslice]
    rw [List.foldl_cons, hsent]
    exact ih (p := { p with ecu := overwrite p.ecu x.1 x.2 }) hrest

/-- On a page that 16-bit offsets reach, writing pieces of the local data puts them into RAM. -/
theorem foldl_written {e : EcuPage} {data : List UInt8} {ws : List (ℕ × List UInt8)}
    (hps : Pieces data ws) (hl : e.ram.length = data.length) (h16 : data.length ≤ 2 ^ 16) :
    ws.foldl (fun e x => written x.1 x.2 e) e =
      { e with ram := ws.foldl (fun l x => overwrite l x.1 x.2) e.ram } := by
  induction ws generalizing e with
  | nil => rfl
  | cons x ws ih =>
    obtain ⟨⟨hin, -⟩, hrest⟩ := Pieces.cons.mp hps
    have hwritten : written x.1 x.2 e = { e with ram := overwrite e.ram x.1 x.2 } := by
      by_cases hnil : x.2 = []
      · simp [written, EcuPage.write, hnil]
      · have : 0 < x.2.length := List.length_pos_iff.mpr hnil
        rw [written, wireOffset, Nat.mod_eq_of_lt (by omega), EcuPage.write, if_pos (by omega)]
    rw [List.foldl_cons, hwritten, ih hrest (by dsimp only; rw [length_overwrite (by omega), hl])]
    rfl

/-! ## Pages of the same sizes -/

/-- The tune and the ECU have the same pages; local data, shadow and RAM are of one size. -/
structure Sized (w : World F) : Prop where
  count : w.tune.pages.length = w.ecu.length
  size : ∀ j p e, w.tune.page j = some p → w.ecu[j]? = some e →
    p.data.length = e.ram.length ∧ p.ecu.length = e.ram.length

theorem Sized.exists_ecu (h : Sized w) {j : ℕ} {p : PageState} (hp : w.tune.page j = some p) :
    ∃ e, w.ecu[j]? = some e := by
  have := (List.getElem?_eq_some_iff.mp hp).1
  exact ⟨_, List.getElem?_eq_getElem (by have := h.count; omega)⟩

theorem Fits.length_le (hf : Fits pages w) (ha : pages.Addressable) {j : ℕ} {e : EcuPage}
    (he : w.ecu[j]? = some e) : e.ram.length ≤ 2 ^ 16 := by
  refine ha _ ?_
  rw [← hf]
  exact List.mem_map.mpr ⟨e, List.mem_of_getElem? he, rfl⟩

variable (pages) in
/-- The planned writes of a page carry its local bytes. -/
theorem onPage_plan_pieces (hs : Sized w) {is : List ℕ} (hnd : is.Nodup) {j : ℕ} {p : PageState}
    (hp : w.tune.page j = some p) : Pieces p.data (onPage j (plan pages w.tune is)) := by
  by_cases hj : j ∈ is
  · obtain ⟨e, he⟩ := hs.exists_ecu hp
    obtain ⟨h1, h2⟩ := hs.size j p e hp he
    rw [onPage_plan _ hnd hj]
    refine chunkWrites_pieces pages ?_
    simp only [Tune.dirtySpans, hp, Option.map_some, Option.getD_some]
    exact p.dirtySpans_pieces _ (h1.trans h2.symm)
  · rw [onPage_plan_of_not_mem _ hj]
    exact fun x hx => by cases hx

/-- They cover every byte that the shadow does not have yet. -/
theorem onPage_plan_cover (hs : Sized w) {is : List ℕ} (hnd : is.Nodup) {j : ℕ} (hj : j ∈ is)
    {p : PageState} (hp : w.tune.page j = some p) {i : ℕ} (hi : p.data[i]? ≠ p.ecu[i]?) :
    Covers (onPage j (plan pages w.tune is)) i := by
  obtain ⟨e, he⟩ := hs.exists_ecu hp
  obtain ⟨h1, h2⟩ := hs.size j p e hp he
  rw [onPage_plan _ hnd hj]
  refine chunkWrites_cover pages ?_
  simp only [Tune.dirtySpans, hp, Option.map_some, Option.getD_some]
  exact p.dirtySpans_cover _ (h1.trans h2.symm) hi

/-! ## The flush, byte by byte -/

/-- What page `j` is after a flush: `p'` and `e'` in place of `p` and `e`. -/
structure PageFlushed (env : Env κ) (pages : PageCommands) (is : List ℕ) (w w' : World F) (j : ℕ)
    (p p' : PageState) (e e' : EcuPage) : Prop where
  data : p'.data = p.data
  burned : p'.burned = p.burned
  eeprom : e'.eeprom = e.eeprom
  ram : e'.ram = ((onPage j (executedWrites env pages is w)).foldl
    (fun e x => written x.1 x.2 e) e).ram
  ecu : (p'.ecu.length = e'.ram.length ∧ ∀ i, p'.ecu[i]? =
      if Covers (onPage j (answeredWrites env pages is w)) i then p.data[i]? else p.ecu[i]?) ∨
    j ∈ is ∧ onPage j (answeredWrites env pages is w) = onPage j (plan pages w.tune is) ∧
      env.crc e'.ram ≠ env.crc p.data ∧ (Fits pages w → pages.Addressable → p'.ecu = e'.ram)

theorem foldl_written_eeprom (ws : List (ℕ × List UInt8)) (e : EcuPage) :
    (ws.foldl (fun e x => written x.1 x.2 e) e).eeprom = e.eeprom ∧
    (ws.foldl (fun e x => written x.1 x.2 e) e).ram.length = e.ram.length := by
  induction ws generalizing e with
  | nil => exact ⟨rfl, rfl⟩
  | cons x ws ih =>
    rw [List.foldl_cons, (ih _).1, (ih _).2, length_ram_written]
    refine ⟨?_, rfl⟩
    unfold written EcuPage.write
    split_ifs <;> rfl

theorem Flushed.fits {is : List ℕ} (h : Flushed env pages is w w') (hf : Fits pages w) :
    Fits pages w' := by
  unfold Fits at hf ⊢
  rw [h.ecu, map_length_writeAll, hf]

/-- **A flush, page by page and byte by byte.** -/
theorem Flushed.bytes {is : List ℕ} (h : Flushed env pages is w w') (hs : Sized w) (hnd : is.Nodup)
    {j : ℕ} {p : PageState} {e : EcuPage} (hp : w.tune.page j = some p) (he : w.ecu[j]? = some e) :
    ∃ p' e', w'.tune.page j = some p' ∧ w'.ecu[j]? = some e' ∧
      PageFlushed env pages is w w' j p p' e e' := by
  obtain ⟨h1, h2⟩ := hs.size j p e hp he
  have hpieces := onPage_plan_pieces pages hs hnd hp
  have hans : onPage j (answeredWrites env pages is w) <+: onPage j (plan pages w.tune is) :=
    onPage_mono (List.take_prefix _ _) j
  set e' := (onPage j (executedWrites env pages is w)).foldl (fun e x => written x.1 x.2 e) e with he'
  have hecu : w'.ecu[j]? = some e' := by rw [h.ecu, getElem?_writeAll, he]; rfl
  obtain ⟨hee, hel⟩ := foldl_written_eeprom (onPage j (executedWrites env pages is w)) e
  rw [← he'] at hee hel
  set marked := (onPage j (answeredWrites env pages is w)).foldl (fun l x => overwrite l x.1 x.2)
    p.ecu with hmarked
  have hmark : (markAll (answeredWrites env pages is w) w.tune).page j =
      some { p with ecu := marked } := by
    rw [page_markAll, hp, Option.map_some, foldl_sent (hpieces.mono hans)]
  obtain ⟨hlen, hbytes⟩ := foldl_pieces (hpieces.mono hans) p.ecu (h2.trans h1.symm)
  rcases h.page j with hpage | ⟨hmem, hall, q, bytes, hq, hpage, hcrc, hread⟩
  · rw [hmark] at hpage
    exact ⟨_, e', hpage, hecu, rfl, rfl, hee, rfl,
      Or.inl ⟨by dsimp only; rw [hlen, h1, hel], hbytes⟩⟩
  · rw [hmark] at hq
    obtain rfl := Option.some.inj hq
    have hram : w'.ram j = e'.ram := by rw [World.ram, hecu]; rfl
    refine ⟨_, e', hpage, hecu, rfl, rfl, hee, rfl, Or.inr ⟨hmem, hall, ?_, fun hf ha => ?_⟩⟩
    · -- all writes marked, the shadow is the local data
      have hdata : marked = p.data := by
        refine List.ext_getElem? fun i => ?_
        rw [hbytes, hall]
        split_ifs with hc
        · rfl
        · by_contra hne
          exact hc (onPage_plan_cover hs hnd hmem hp fun heq => hne heq.symm)
      rw [hram, hdata] at hcrc
      exact hcrc
    · rw [hread (h.fits hf) ha, hram]

/-- Where 16-bit offsets reach, a byte of RAM after the flush is the local one exactly where an
executed write covers it. -/
theorem PageFlushed.ram_bytes {is : List ℕ} {j : ℕ} {p p' : PageState} {e e' : EcuPage}
    (h : PageFlushed env pages is w w' j p p' e e') (hs : Sized w) (hnd : is.Nodup)
    (hp : w.tune.page j = some p) (he : w.ecu[j]? = some e) (h16 : e.ram.length ≤ 2 ^ 16) :
    e'.ram.length = e.ram.length ∧ ∀ i, e'.ram[i]? =
      if Covers (onPage j (executedWrites env pages is w)) i then p.data[i]? else e.ram[i]? := by
  obtain ⟨h1, h2⟩ := hs.size j p e hp he
  have hpieces := (onPage_plan_pieces pages hs hnd hp).mono
    (onPage_mono (List.take_prefix (carriedOut env (w.issued .write)
      (plan pages w.tune is).length) _) j)
  rw [h.ram, executedWrites, foldl_written hpieces h1.symm (by omega)]
  obtain ⟨hlen, hbytes⟩ := foldl_pieces hpieces e.ram h1.symm
  exact ⟨hlen.trans h1, hbytes⟩

end RustyTune.Server
