import RustyTune.TuneModel.Dirty
import Mathlib.Data.List.Forall2

/-!
# Page buffers keep their size

* `PageState.Sized n`: all three copies of a page have `n` bytes; `Tune.Sized`: every page has the
  size the definition gives it.
* `Tune.sized_new`, and what the operations on whole pages preserve: `Sized.modifyPage`,
  `Sized.loadPage`, `Sized.resyncEcu`, `Sized.markSent`, `Sized.markBurned`, `Sized.syncShadows`.
-/

namespace RustyTune.TuneModel

variable {F : Type}

/-- All three copies of the page have `n` bytes. -/
structure PageState.Sized (n : ℕ) (p : PageState) : Prop where
  data : p.data.length = n
  ecu : p.ecu.length = n
  burned : p.burned.length = n

namespace Tune

/-- Every page has the size the definition gives it. -/
def Sized (t : Tune F) : Prop :=
  List.Forall₂ (fun size p => PageState.Sized size.toNat p) t.df.header.pageSizes t.pages

theorem sized_new [F64 F] (df : TsIni.IniDef F) : (new df).Sized := by
  rw [Sized, new, List.forall₂_map_right_iff, List.forall₂_same]
  intro size _
  exact ⟨by simp, by simp, by simp⟩

theorem Sized.pageCount {t : Tune F} (h : t.Sized) : t.pageCount = t.df.header.pageSizes.length :=
  h.length_eq.symm

theorem Sized.page {t : Tune F} (h : t.Sized) {i : ℕ} {p : PageState} (hp : t.page i = some p) :
    ∃ size, t.df.header.pageSizes[i]? = some size ∧ p.Sized size.toNat := by
  obtain ⟨hi, rfl⟩ := List.getElem?_eq_some_iff.mp hp
  have hi' : i < t.df.header.pageSizes.length := by rw [h.length_eq]; exact hi
  exact ⟨_, List.getElem?_eq_getElem hi', h.get hi' hi⟩

theorem Sized.modifyPage {t : Tune F} (h : t.Sized) (i : ℕ) {f : PageState → PageState}
    (hf : ∀ size p, t.df.header.pageSizes[i]? = some size → p.Sized size.toNat →
      (f p).Sized size.toNat) : (t.modifyPage i f).Sized := by
  rw [Sized, df_modifyPage, pages_modifyPage]
  refine List.forall₂_iff_get.mpr ⟨by rw [List.length_modify]; exact h.length_eq, fun j h1 h2 => ?_⟩
  rw [List.length_modify] at h2
  have hj := h.get h1 h2
  simp only [List.get_eq_getElem, List.getElem_modify] at hj ⊢
  split_ifs with hij
  · subst hij
    exact hf _ _ (List.getElem?_eq_getElem h1) hj
  · exact hj

theorem Sized.setLoaded {t : Tune F} (h : t.Sized) (loaded : Bool) : (t.setLoaded loaded).Sized := h

theorem Sized.loadPage {t : Tune F} (h : t.Sized) {i : ℕ} {bytes : List UInt8}
    (hb : ∀ size, t.df.header.pageSizes[i]? = some size → bytes.length = size.toNat) :
    (t.loadPage i bytes).Sized :=
  h.modifyPage i fun size _ hsize _ => ⟨hb size hsize, hb size hsize, hb size hsize⟩

theorem Sized.resyncEcu {t : Tune F} (h : t.Sized) {i : ℕ} {bytes : List UInt8}
    (hb : ∀ size, t.df.header.pageSizes[i]? = some size → bytes.length = size.toNat) :
    (t.resyncEcu i bytes).Sized :=
  h.modifyPage i fun size _ hsize hp => ⟨hp.data, hb size hsize, hp.burned⟩

theorem Sized.markSent {t : Tune F} (h : t.Sized) (i offset len : ℕ) :
    (t.markSent i offset len).Sized := by
  refine h.modifyPage i fun size p _ hp => ?_
  obtain ⟨hdata, hecu, hburned⟩ := hp
  split_ifs with hin
  · have hslice : (slice p.data offset len).length = len := slice_length hin
    exact ⟨hdata, by rw [length_overwrite (by omega), hecu], hburned⟩
  · exact ⟨hdata, hecu, hburned⟩

theorem Sized.markBurned {t : Tune F} (h : t.Sized) (i : ℕ) : (t.markBurned i).Sized :=
  h.modifyPage i fun _ _ _ hp => ⟨hp.data, hp.ecu, hp.ecu⟩

theorem Sized.syncShadows {t : Tune F} (h : t.Sized) : t.syncShadows.Sized := by
  rw [Sized, Tune.syncShadows, List.forall₂_map_right_iff]
  exact h.imp fun _ _ hp => ⟨hp.data, hp.data, hp.data⟩

end Tune

end RustyTune.TuneModel
