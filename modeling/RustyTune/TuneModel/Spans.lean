import Mathlib.Data.List.Chain
import RustyTune.TuneModel.Dirty

/-!
# Spans to send

The spans where local data and shadow differ are as few and as short as the merging of gaps allows.

* `Merged`: spans up to some byte, each from one byte that differs to another, with gaps that are equal
  and longer than `maxGap` between them and none inside. **`Merged.step`**: one more byte.
* **`dirtySpans_merged`**: the spans of a page are such.
-/

namespace RustyTune.TuneModel

variable {data ecu : List UInt8} {maxGap n : ℕ} {spans : List (ℕ × ℕ)}

/-- The bytes from `a` up to before `b` are equal. -/
def EqualOn (data ecu : List UInt8) (a b : ℕ) : Prop := ∀ i, a ≤ i → i < b → data[i]? = ecu[i]?

/-- From one byte that differs to another, with no long gap between. -/
structure Tight (data ecu : List UInt8) (maxGap start stop : ℕ) : Prop where
  nonempty : start < stop
  first : data[start]? ≠ ecu[start]?
  last : data[stop - 1]? ≠ ecu[stop - 1]?
  gaps : ∀ a b, start ≤ a → b ≤ stop → EqualOn data ecu a b → b - a ≤ maxGap

/-- A gap of equal bytes, too long to be merged. -/
structure Gap (data ecu : List UInt8) (maxGap stop start : ℕ) : Prop where
  long : stop + maxGap < start
  equal : EqualOn data ecu stop start

/-- The spans up to byte `n`, the latest first: equal bytes since the last one. -/
structure Merged (data ecu : List UInt8) (maxGap n : ℕ) (spans : List (ℕ × ℕ)) : Prop where
  tight : ∀ s ∈ spans, Tight data ecu maxGap s.1 s.2
  gaps : List.IsChain (fun later earlier : ℕ × ℕ => Gap data ecu maxGap earlier.2 later.1) spans
  since : ∃ stop ≤ n, (spans.head?.map Prod.snd).getD 0 = stop ∧ EqualOn data ecu stop n

theorem EqualOn.succ {a : ℕ} (h : EqualOn data ecu a n) (hn : data[n]? = ecu[n]?) :
    EqualOn data ecu a (n + 1) := fun i h1 h2 => by
  rcases Nat.lt_succ_iff_lt_or_eq.mp h2 with hlt | rfl
  · exact h i h1 hlt
  · exact hn

theorem tight_single (hn : data[n]? ≠ ecu[n]?) : Tight data ecu maxGap n (n + 1) where
  nonempty := Nat.lt_succ_self n
  first := hn
  last := hn
  gaps a b h1 h2 heq := by
    by_cases hab : a < b
    · exact absurd (heq n (by omega) (by omega)) hn
    · omega

theorem Tight.stretch {start stop : ℕ} (h : Tight data ecu maxGap start stop) (hle : stop ≤ n)
    (hgap : n - stop ≤ maxGap) (hn : data[n]? ≠ ecu[n]?) : Tight data ecu maxGap start (n + 1) where
  nonempty := by
    have := h.nonempty
    omega
  first := h.first
  last := hn
  gaps a b h1 h2 heq := by
    have hnonempty := h.nonempty
    by_cases hab : a < b
    · -- neither the new byte nor the last one of the old span is in the gap
      have hb : b ≤ n := by
        by_contra hlt
        exact hn (heq n (by omega) (by omega))
      by_cases hin : b ≤ stop
      · exact h.gaps a b h1 hin heq
      · have ha : stop ≤ a := by
          by_contra hlt
          exact h.last (heq (stop - 1) (by omega) (by omega))
        omega
    · omega

theorem Merged.step (h : Merged data ecu maxGap n spans) {a b : UInt8} (ha : data[n]? = some a)
    (hb : ecu[n]? = some b) : Merged data ecu maxGap (n + 1) (spanStep maxGap spans ((a, b), n)) := by
  obtain ⟨stop, hle, hstop, hequal⟩ := h.since
  unfold spanStep
  split_ifs with hab
  · obtain rfl : a = b := hab
    exact ⟨h.tight, h.gaps, stop, by omega, hstop, hequal.succ (ha.trans hb.symm)⟩
  · have hn : data[n]? ≠ ecu[n]? := by
      rw [ha, hb]
      exact fun heq => hab (Option.some.inj heq)
    have hnone : EqualOn data ecu (n + 1) (n + 1) := fun i h1 h2 => by omega
    cases spans with
    | nil =>
      exact ⟨List.forall_mem_singleton.mpr (tight_single hn), .singleton _,
        n + 1, Nat.le_refl _, rfl, hnone⟩
    | cons s rest =>
      obtain ⟨start, stop⟩ := s
      obtain rfl : stop = _ := hstop
      obtain ⟨hs, hrest⟩ := List.forall_mem_cons.mp h.tight
      dsimp only
      split_ifs with hgap
      · refine ⟨List.forall_mem_cons.mpr ⟨hs.stretch hle hgap hn, hrest⟩, ?_, n + 1, Nat.le_refl _, rfl,
          hnone⟩
        exact List.IsChain.cons_of_imp (a := (start, stop)) (fun _ hgap => hgap) h.gaps
      · refine ⟨List.forall_mem_cons.mpr ⟨tight_single hn, h.tight⟩, ?_, n + 1, Nat.le_refl _, rfl, hnone⟩
        exact List.isChain_cons_cons.mpr ⟨⟨show stop + maxGap < n by omega, hequal⟩, h.gaps⟩

namespace PageState

theorem merged (p : PageState) (maxGap : ℕ) (hl : p.data.length = p.ecu.length) :
    Merged p.data p.ecu maxGap p.data.length ((p.spans maxGap).reverse) := by
  have h : Merged p.data p.ecu maxGap _ _ := spanStep_foldl (fun _ _ _ _ h ha hb => h.step ha hb)
    p.data p.ecu 0 [] hl rfl rfl
    ⟨fun _ hs => (nomatch hs), .nil, 0, Nat.le_refl _, rfl, fun i h1 h2 => by omega⟩
  rwa [Nat.zero_add, ← List.reverse_reverse (List.foldl ..)] at h

end PageState

def spanEnd (s : ℕ × List UInt8) : ℕ := s.1 + s.2.length

/-- **The spans of a page are merged exactly.** Each goes from one byte that differs to another, the gaps
inside are no longer than `maxGap`, and those between are longer. -/
structure Exact (p : PageState) (maxGap : ℕ) (spans : List (ℕ × List UInt8)) : Prop where
  pieces : Pieces p.data spans
  tight : ∀ s ∈ spans, Tight p.data p.ecu maxGap s.1 (spanEnd s)
  gaps : List.IsChain (fun s s' => Gap p.data p.ecu maxGap (spanEnd s) s'.1) spans
  cover : ∀ i, p.data[i]? ≠ p.ecu[i]? → Covers spans i

theorem PageState.dirtySpans_exact (p : PageState) (maxGap : ℕ) (hl : p.data.length = p.ecu.length) :
    Exact p maxGap (p.dirtySpans maxGap) := by
  have hmerged := p.merged maxGap hl
  have hstop : ∀ s ∈ p.spans maxGap, spanEnd (s.1, slice p.data s.1 (s.2 - s.1)) = s.2 := by
    intro s hs
    obtain ⟨h1, h2⟩ := (p.spansUpTo maxGap hl).bound s hs
    rw [spanEnd, slice_length (by omega)]
    exact Nat.add_sub_cancel' (Nat.le_of_lt h1)
  refine ⟨p.dirtySpans_pieces maxGap hl, fun s hs => ?_, ?_, fun i hi => p.dirtySpans_cover maxGap hl hi⟩
  · obtain ⟨s', hs', rfl⟩ := List.mem_map.mp hs
    have htight := hmerged.tight s' (List.mem_reverse.mpr hs')
    rwa [← hstop s' hs'] at htight
  · have hgaps := List.isChain_reverse.mp hmerged.gaps
    refine (List.isChain_map _).mpr (hgaps.imp_of_mem_imp fun s s' hs hs' hgap => ?_)
    rwa [← hstop s hs] at hgap

/-! ## Order -/

/-- One span ends before the other starts. -/
def Before (s s' : ℕ × List UInt8) : Prop := spanEnd s ≤ s'.1

instance : IsTrans (ℕ × List UInt8) Before where
  trans s s' s'' h h' := by
    have : s'.1 ≤ spanEnd s' := Nat.le_add_right ..
    exact h.trans (this.trans h')

theorem Exact.pairwise {p : PageState} {spans : List (ℕ × List UInt8)} (h : Exact p maxGap spans) :
    spans.Pairwise Before := by
  have hchain := List.IsChain.imp (S := Before) (fun s s' hgap => by
    have := hgap.long
    rw [Before]
    omega) h.gaps
  exact List.isChain_iff_pairwise.mp hchain

/-- **There are no spans exactly when nothing differs.** -/
theorem Exact.nil_iff {p : PageState} {spans : List (ℕ × List UInt8)} (h : Exact p maxGap spans) :
    spans = [] ↔ p.data = p.ecu := by
  constructor
  · rintro rfl
    refine List.ext_getElem? fun i => ?_
    by_contra hne
    obtain ⟨s, hs, -⟩ := h.cover i hne
    exact nomatch hs
  · intro heq
    refine List.eq_nil_iff_forall_not_mem.mpr fun s hs => ?_
    exact (h.tight s hs).first (by rw [heq])

end RustyTune.TuneModel
