import RustyTune.Server.Bytes
import RustyTune.Server.Track
import RustyTune.TuneModel.Spans

/-!
# The writes of a page

* `countP_chunkWrites`: a byte is in one write if it is in a span, and in none otherwise.
* **`dirtySpans_chunks_exact`**: the spans of a page are merged exactly, their writes cover them once,
  and carried out or marked as sent they leave nothing to send.
-/

namespace RustyTune.Server

open TuneModel EcuProto

variable {F : Type} {pages : PageCommands} {spans : List (ℕ × List UInt8)}

/-- Of spans in order, a byte is in one at most. -/
theorem countP_spans (h : spans.Pairwise Before) (i : ℕ) :
    spans.countP (fun s => s.1 ≤ i ∧ i < s.1 + s.2.length) = if Covers spans i then 1 else 0 := by
  induction spans with
  | nil => simp [Covers]
  | cons s spans ih =>
    obtain ⟨hs, hrest⟩ := List.pairwise_cons.mp h
    rw [List.countP_cons, ih hrest]
    simp only [covers_cons, decide_eq_true_eq]
    by_cases hin : s.1 ≤ i ∧ i < s.1 + s.2.length
    · have hno : ¬ Covers spans i := by
        rintro ⟨s', hs', h1, -⟩
        have hbefore : s.1 + s.2.length ≤ s'.1 := hs s' hs'
        omega
      rw [if_neg hno, if_pos hin, if_pos (Or.inl hin)]
    · by_cases hc : Covers spans i
      · rw [if_pos hc, if_neg hin, if_pos (Or.inr hc)]
      · rw [if_neg hc, if_neg hin, if_neg (not_or.mpr ⟨hin, hc⟩)]

theorem countP_chunkWrites (pages : PageCommands) (spans : List (ℕ × List UInt8)) (i : ℕ) :
    (chunkWrites pages spans).countP (fun c => c.1 ≤ i ∧ i < c.1 + c.2.length) =
      spans.countP fun s => s.1 ≤ i ∧ i < s.1 + s.2.length := by
  induction spans with
  | nil => rfl
  | cons s spans ih =>
    rw [chunkWrites, List.flatMap_cons, List.countP_append, countP_chunksAt pages.blockingFactor_pos,
      List.countP_cons, ← ih, Nat.add_comm]
    simp only [decide_eq_true_eq]
    rfl

theorem mem_chunkWrites {c : ℕ × List UInt8} (h : c ∈ chunkWrites pages spans) :
    0 < c.2.length ∧ c.2.length ≤ pages.blockingFactor := by
  obtain ⟨⟨off, bs⟩, -, hc⟩ := List.mem_flatMap.mp h
  obtain ⟨-, -, h1, h2, -⟩ := mem_chunksAt pages.blockingFactor_pos (o := c.1) (c := c.2) hc
  exact ⟨h1, h2⟩

/-- The writes of a page, marked as sent one after the other. -/
theorem page_foldl_markSent {t : Tune F} {i : ℕ} {p : PageState} (hp : t.page i = some p)
    (ws : List (ℕ × List UInt8)) : (ws.foldl (fun t x => t.markSent i x.1 x.2.length) t).page i =
      some (ws.foldl (fun p x => sent x.1 x.2.length p) p) := by
  induction ws generalizing t p with
  | nil => exact hp
  | cons x ws ih =>
    refine ih (p := sent x.1 x.2.length p) ?_
    change (t.modifyPage i (sent x.1 x.2.length)).page i = _
    rw [Tune.page_modifyPage, if_pos rfl, hp, Option.map_some]

theorem pageDirty_of_page {t : Tune F} {i : ℕ} {p : PageState} (hp : t.page i = some p) :
    t.pageDirty i = false ↔ p.data = p.ecu := by
  simp [Tune.pageDirty, hp]

/-- **The spans of a page are merged exactly, and their writes bring the shadow up to date.** -/
theorem dirtySpans_chunks_exact (pages : PageCommands) (maxGap : ℕ) {t : Tune F} {i : ℕ}
    {p : PageState} (hp : t.page i = some p) (hl : p.data.length = p.ecu.length) :
    Exact p maxGap (t.dirtySpans i maxGap) ∧
    (∀ c ∈ chunkWrites pages (t.dirtySpans i maxGap),
      0 < c.2.length ∧ c.2.length ≤ pages.blockingFactor) ∧
    Pieces p.data (chunkWrites pages (t.dirtySpans i maxGap)) ∧
    (∀ k, (chunkWrites pages (t.dirtySpans i maxGap)).countP
      (fun c => c.1 ≤ k ∧ k < c.1 + c.2.length) =
        if Covers (t.dirtySpans i maxGap) k then 1 else 0) ∧
    (chunkWrites pages (t.dirtySpans i maxGap)).foldl (fun l c => overwrite l c.1 c.2) p.ecu = p.data ∧
    ((chunkWrites pages (t.dirtySpans i maxGap)).foldl (fun t c => t.markSent i c.1 c.2.length) t).pageDirty
      i = false ∧
    (t.dirtySpans i maxGap = [] ↔ t.pageDirty i = false) := by
  have hspans : t.dirtySpans i maxGap = p.dirtySpans maxGap := by
    rw [Tune.dirtySpans, hp, Option.map_some, Option.getD_some]
  rw [hspans]
  have hexact := p.dirtySpans_exact maxGap hl
  have hpieces := chunkWrites_pieces pages hexact.pieces
  obtain ⟨hlen, hget⟩ := foldl_pieces hpieces p.ecu hl.symm
  have hwrite : (chunkWrites pages (p.dirtySpans maxGap)).foldl (fun l c => overwrite l c.1 c.2) p.ecu =
      p.data := by
    refine List.ext_getElem? fun k => ?_
    rw [hget]
    split_ifs with hc
    · rfl
    · -- what no write covers does not differ
      by_contra hne
      exact hc (chunkWrites_cover pages (hexact.cover k (Ne.symm hne)))
  refine ⟨hexact, fun c hc => mem_chunkWrites hc, hpieces, fun k => ?_, hwrite, ?_, ?_⟩
  · rw [countP_chunkWrites, countP_spans hexact.pairwise]
  · rw [pageDirty_of_page (page_foldl_markSent hp _), foldl_sent hpieces]
    exact hwrite.symm
  · rw [hexact.nil_iff, pageDirty_of_page hp]

def twoEdits : Tune ℕ :=
  ⟨bareDef ℕ [4], [⟨[1, 0, 0, 2], [0, 0, 0, 0], [0, 0, 0, 0]⟩], ∅, true⟩

theorem dirtySpans_chunks_exact_twoEdits :
    Exact ⟨[1, 0, 0, 2], [0, 0, 0, 0], [0, 0, 0, 0]⟩ 1 (twoEdits.dirtySpans 0 1) ∧
    (∀ c ∈ chunkWrites oneBytePages (twoEdits.dirtySpans 0 1),
      0 < c.2.length ∧ c.2.length ≤ oneBytePages.blockingFactor) ∧
    Pieces [1, 0, 0, 2] (chunkWrites oneBytePages (twoEdits.dirtySpans 0 1)) ∧
    (∀ k, (chunkWrites oneBytePages (twoEdits.dirtySpans 0 1)).countP
      (fun c => c.1 ≤ k ∧ k < c.1 + c.2.length) =
        if Covers (twoEdits.dirtySpans 0 1) k then 1 else 0) ∧
    (chunkWrites oneBytePages (twoEdits.dirtySpans 0 1)).foldl (fun l c => overwrite l c.1 c.2)
      [0, 0, 0, 0] = [1, 0, 0, 2] ∧
    ((chunkWrites oneBytePages (twoEdits.dirtySpans 0 1)).foldl
      (fun t c => t.markSent 0 c.1 c.2.length) twoEdits).pageDirty 0 = false ∧
    (twoEdits.dirtySpans 0 1 = [] ↔ twoEdits.pageDirty 0 = false) :=
  dirtySpans_chunks_exact oneBytePages 1 (t := twoEdits)
    (p := ⟨[1, 0, 0, 2], [0, 0, 0, 0], [0, 0, 0, 0]⟩) rfl rfl

end RustyTune.Server
