import RustyTune.TuneModel.Tune

/-!
# Dirty tracking

Which bytes are still to be sent to the ECU, and which pages to be burned.

* `Tune.pageDirty`, `pageBurnPending`; `PageState.dirtySpans`: the spans where local data and shadow
  differ, gaps up to `maxGap` merged.
* `Pieces`: byte strings cut out of the local data, each with its offset. **`dirtySpans_pieces`**:
  the spans are such, and **`dirtySpans_cover`**: they cover every difference.
* `Tune.markSent`, `markBurned`.
-/

namespace RustyTune.TuneModel

variable {F : Type}

/-- What one index does to the spans found so far, the latest first. -/
def spanStep (maxGap : ℕ) (spans : List (ℕ × ℕ)) (x : (UInt8 × UInt8) × ℕ) : List (ℕ × ℕ) :=
  if x.1.1 = x.1.2 then spans
  else
    match spans with
    | (start, stop) :: rest =>
      if x.2 - stop ≤ maxGap then (start, x.2 + 1) :: rest else (x.2, x.2 + 1) :: spans
    | [] => [(x.2, x.2 + 1)]

namespace PageState

/-- Start and end of every span where local data and shadow differ. -/
def spans (p : PageState) (maxGap : ℕ) : List (ℕ × ℕ) :=
  ((p.data.zip p.ecu).zipIdx.foldl (spanStep maxGap) []).reverse

/-- The spans with their local bytes. -/
def dirtySpans (p : PageState) (maxGap : ℕ) : List (ℕ × List UInt8) :=
  (p.spans maxGap).map fun (start, stop) => (start, slice p.data start (stop - start))

end PageState

namespace Tune

def pageDirty (t : Tune F) (pageIdx : ℕ) : Bool := (t.page pageIdx).any fun p => p.data ≠ p.ecu

def anyDirty (t : Tune F) : Bool := (List.range t.pageCount).any t.pageDirty

def pageBurnPending (t : Tune F) (pageIdx : ℕ) : Bool :=
  (t.page pageIdx).any fun p => p.ecu ≠ p.burned

/-- Byte spans where local data differs from the ECU shadow, with gaps up to `maxGap` merged. -/
def dirtySpans (t : Tune F) (pageIdx maxGap : ℕ) : List (ℕ × List UInt8) :=
  ((t.page pageIdx).map (·.dirtySpans maxGap)).getD []

/-- The span was written to the ECU: the bytes the page holds now count as sent. -/
def markSent (t : Tune F) (pageIdx offset len : ℕ) : Tune F :=
  t.modifyPage pageIdx fun p =>
    if offset + len ≤ p.data.length then
      { p with ecu := overwrite p.ecu offset (slice p.data offset len) }
    else p

/-- The page was burned: EEPROM now matches ECU RAM. -/
def markBurned (t : Tune F) (pageIdx : ℕ) : Tune F :=
  t.modifyPage pageIdx fun p => { p with burned := p.ecu }

end Tune

/-! ## Pieces of the local data -/

/-- Every entry is a part of `data`, at its offset. -/
def Pieces (data : List UInt8) (ps : List (ℕ × List UInt8)) : Prop :=
  ∀ p ∈ ps, p.1 + p.2.length ≤ data.length ∧ p.2 = slice data p.1 p.2.length

/-- Some piece covers index `i`. -/
def Covers (ps : List (ℕ × List UInt8)) (i : ℕ) : Prop := ∃ p ∈ ps, p.1 ≤ i ∧ i < p.1 + p.2.length

instance (ps : List (ℕ × List UInt8)) (i : ℕ) : Decidable (Covers ps i) :=
  inferInstanceAs (Decidable (∃ p ∈ ps, p.1 ≤ i ∧ i < p.1 + p.2.length))

theorem Pieces.cons {data : List UInt8} {p : ℕ × List UInt8} {ps : List (ℕ × List UInt8)} :
    Pieces data (p :: ps) ↔
      (p.1 + p.2.length ≤ data.length ∧ p.2 = slice data p.1 p.2.length) ∧ Pieces data ps :=
  List.forall_mem_cons

theorem covers_cons {p : ℕ × List UInt8} {ps : List (ℕ × List UInt8)} {i : ℕ} :
    Covers (p :: ps) i ↔ (p.1 ≤ i ∧ i < p.1 + p.2.length) ∨ Covers ps i := by
  simp [Covers]

theorem Pieces.mono {data : List UInt8} {ws ws' : List (ℕ × List UInt8)} (h : Pieces data ws')
    (hp : ws <+: ws') : Pieces data ws := fun x hx => h x (hp.subset hx)

theorem Covers.mono {ws ws' : List (ℕ × List UInt8)} {i : ℕ} (h : Covers ws i)
    (hp : ws <+: ws') : Covers ws' i := by
  obtain ⟨x, hx, hi⟩ := h
  exact ⟨x, hp.subset hx, hi⟩

/-- **Writing pieces of `data` over a list puts the bytes of `data` where a piece covers, and
nothing else.** -/
theorem foldl_pieces {data : List UInt8} {ps : List (ℕ × List UInt8)} (hps : Pieces data ps) :
    ∀ l : List UInt8, l.length = data.length →
      (ps.foldl (fun l p => overwrite l p.1 p.2) l).length = data.length ∧
      ∀ i, (ps.foldl (fun l p => overwrite l p.1 p.2) l)[i]? =
        if Covers ps i then data[i]? else l[i]? := by
  induction ps with
  | nil => exact fun l hl => ⟨hl, fun i => by simp [Covers]⟩
  | cons p ps ih =>
    intro l hl
    obtain ⟨⟨hin, hslice⟩, hrest⟩ := Pieces.cons.mp hps
    have hlen : (overwrite l p.1 p.2).length = l.length := length_overwrite (by omega)
    obtain ⟨ih1, ih2⟩ := ih hrest (overwrite l p.1 p.2) (by omega)
    refine ⟨ih1, fun i => ?_⟩
    rw [List.foldl_cons, ih2, getElem?_overwrite (by omega)]
    simp only [covers_cons]
    by_cases hc : Covers ps i
    · simp [hc]
    · by_cases hp : p.1 ≤ i ∧ i < p.1 + p.2.length
      · have hbyte : p.2[i - p.1]? = data[i]? := by
          rw [hslice, getElem?_slice, if_pos (by omega)]
          congr 1
          omega
        simp [hc, hp, hbyte]
      · simp [hc, hp]

/-! ## The spans -/

/-- Spans within `n` bytes of which every byte that differs up to there is in one. -/
structure SpansUpTo (data ecu : List UInt8) (n : ℕ) (spans : List (ℕ × ℕ)) : Prop where
  bound : ∀ s ∈ spans, s.1 < s.2 ∧ s.2 ≤ n
  cover : ∀ i < n, data[i]? ≠ ecu[i]? → ∃ s ∈ spans, s.1 ≤ i ∧ i < s.2

theorem SpansUpTo.step {data ecu : List UInt8} {n : ℕ} {spans : List (ℕ × ℕ)} (maxGap : ℕ)
    (h : SpansUpTo data ecu n spans) {a b : UInt8} (ha : data[n]? = some a) (hb : ecu[n]? = some b) :
    SpansUpTo data ecu (n + 1) (spanStep maxGap spans ((a, b), n)) := by
  unfold spanStep
  split_ifs with hab
  · -- nothing to send at this index
    obtain rfl : a = b := hab
    refine ⟨fun s hs => ⟨(h.bound s hs).1, Nat.le_succ_of_le (h.bound s hs).2⟩, fun i hi hne => ?_⟩
    rcases Nat.lt_succ_iff_lt_or_eq.mp hi with hi | rfl
    · exact h.cover i hi hne
    · exact absurd (ha.trans hb.symm) hne
  · -- a new span, beside those there are
    have hnew : SpansUpTo data ecu (n + 1) ((n, n + 1) :: spans) := by
      refine ⟨fun s hs => ?_, fun i hi hne => ?_⟩
      · rcases List.mem_cons.mp hs with rfl | hs
        · exact ⟨Nat.lt_succ_self n, Nat.le_refl _⟩
        · exact ⟨(h.bound s hs).1, Nat.le_succ_of_le (h.bound s hs).2⟩
      · rcases Nat.lt_succ_iff_lt_or_eq.mp hi with hi | rfl
        · obtain ⟨s, hs, h1, h2⟩ := h.cover i hi hne
          exact ⟨s, List.mem_cons_of_mem _ hs, h1, h2⟩
        · exact ⟨_, List.mem_cons_self, Nat.le_refl _, Nat.lt_succ_self _⟩
    match spans, h, hnew with
    | [], _, hnew => exact hnew
    | (start, stop) :: rest, h, hnew =>
      dsimp only
      split_ifs with hgap
      · -- the last span is stretched to this index
        have hs := h.bound (start, stop) List.mem_cons_self
        refine ⟨fun s hs' => ?_, fun i hi hne => ?_⟩
        · rcases List.mem_cons.mp hs' with rfl | hs'
          · exact ⟨show start < n + 1 by omega, Nat.le_refl _⟩
          · exact hnew.bound s (List.mem_cons_of_mem _ (List.mem_cons_of_mem _ hs'))
        · rcases Nat.lt_succ_iff_lt_or_eq.mp hi with hi | rfl
          · obtain ⟨s, hs', h1, h2⟩ := h.cover i hi hne
            rcases List.mem_cons.mp hs' with rfl | hs'
            · exact ⟨_, List.mem_cons_self, h1, show i < n + 1 by omega⟩
            · exact ⟨s, List.mem_cons_of_mem _ hs', h1, h2⟩
          · exact ⟨_, List.mem_cons_self, show start ≤ i by omega, Nat.lt_succ_self _⟩
      · exact hnew

/-- What every step carries on from an index to the next, the fold carries on from index `n`. -/
theorem spanStep_foldl {data ecu : List UInt8} {maxGap : ℕ} {I : ℕ → List (ℕ × ℕ) → Prop}
    (hstep : ∀ n spans a b, I n spans → data[n]? = some a → ecu[n]? = some b →
      I (n + 1) (spanStep maxGap spans ((a, b), n))) : ∀ (d e : List UInt8) (n : ℕ)
    (spans : List (ℕ × ℕ)), d.length = e.length → data.drop n = d → ecu.drop n = e →
      I n spans → I (n + d.length) (((d.zip e).zipIdx n).foldl (spanStep maxGap) spans)
  | [], _, _, _, _, _, _, h => h
  | _ :: _, [], _, _, hl, _, _, _ => by simp at hl
  | a :: d, b :: e, n, spans, hl, hd, he, h => by
    have ha : data[n]? = some a := by rw [← List.head?_drop, hd]; rfl
    have hb : ecu[n]? = some b := by rw [← List.head?_drop, he]; rfl
    have hd' : data.drop (n + 1) = d := by rw [← List.tail_drop, hd]; rfl
    have he' : ecu.drop (n + 1) = e := by rw [← List.tail_drop, he]; rfl
    have := spanStep_foldl hstep d e (n + 1) _ (by simpa using hl) hd' he' (hstep n spans a b h ha hb)
    rw [List.zip_cons_cons, List.zipIdx_cons, List.foldl_cons, List.length_cons]
    rwa [show n + 1 + d.length = n + (d.length + 1) by omega] at this

namespace PageState

theorem spansUpTo (p : PageState) (maxGap : ℕ) (hl : p.data.length = p.ecu.length) :
    SpansUpTo p.data p.ecu p.data.length (p.spans maxGap) := by
  have h : SpansUpTo p.data p.ecu _ _ := spanStep_foldl (fun _ _ _ _ h ha hb => h.step maxGap ha hb)
    p.data p.ecu 0 [] hl rfl rfl ⟨by simp, by simp⟩
  rw [Nat.zero_add] at h
  exact ⟨fun s hs => h.bound s (List.mem_reverse.mp hs), fun i hi hne => by
    obtain ⟨s, hs, h1⟩ := h.cover i hi hne
    exact ⟨s, List.mem_reverse.mpr hs, h1⟩⟩

theorem mem_dirtySpans {p : PageState} {maxGap : ℕ} (hl : p.data.length = p.ecu.length)
    {s : ℕ × List UInt8} (hs : s ∈ p.dirtySpans maxGap) :
    ∃ stop, (s.1, stop) ∈ p.spans maxGap ∧ s.1 < stop ∧ stop ≤ p.data.length ∧
      s.2 = slice p.data s.1 (stop - s.1) := by
  obtain ⟨⟨start, stop⟩, hmem, rfl⟩ := List.mem_map.mp hs
  obtain ⟨h1, h2⟩ := (p.spansUpTo maxGap hl).bound _ hmem
  exact ⟨stop, hmem, h1, h2, rfl⟩

/-- **The spans carry the local bytes.** -/
theorem dirtySpans_pieces (p : PageState) (maxGap : ℕ) (hl : p.data.length = p.ecu.length) :
    Pieces p.data (p.dirtySpans maxGap) := by
  intro s hs
  obtain ⟨stop, -, h1, h2, hb⟩ := mem_dirtySpans hl hs
  have hlen : s.2.length = stop - s.1 := by rw [hb]; exact slice_length (by omega)
  exact ⟨by omega, by rw [hlen]; exact hb⟩

/-- **Every byte that differs is in a span.** -/
theorem dirtySpans_cover (p : PageState) (maxGap : ℕ) (hl : p.data.length = p.ecu.length) {i : ℕ}
    (hi : p.data[i]? ≠ p.ecu[i]?) : Covers (p.dirtySpans maxGap) i := by
  have hlt : i < p.data.length := by
    by_contra hge
    rw [List.getElem?_eq_none (by omega), List.getElem?_eq_none (by omega)] at hi
    exact hi rfl
  have hup := p.spansUpTo maxGap hl
  obtain ⟨⟨start, stop⟩, hs, h1, h2⟩ := hup.cover i hlt hi
  have hb := (hup.bound _ hs).2
  refine ⟨(start, slice p.data start (stop - start)), List.mem_map.mpr ⟨_, hs, rfl⟩, h1, ?_⟩
  rw [slice_length (by dsimp only at h1 h2 hb ⊢; omega)]
  dsimp only at h1 h2 hb ⊢
  omega

end PageState

end RustyTune.TuneModel
