import RustyTune.Server.Api
import RustyTune.Web.TableEditor

/-!
# Applied previews

The cells that have a preview are posted in one request, and the server edits them one after the other.

* `Within`: tunes that differ in bytes of one array only. `Steady`: what scales and limits the array, whatever
  these bytes are.
* `setCells_stores`: the values of the array after the request.
* **`applied_stored_iff`**: the request succeeds, and every cell reads its preview exactly when every value is
  kept.
-/

namespace RustyTune.Web

open TsIni TuneModel Server Exec

/-! ## The bytes of one array -/

/-- The tunes differ in bytes of `z` only. -/
structure Within (z : ConstantDef XRat) (t t' : Tune XRat) : Prop where
  frame : SameFrame t t'
  bits : ∀ j i, ¬ Msq.OwnByte z j (i / 8) → t'.bit j i = t.bit j i

theorem Within.refl (z : ConstantDef XRat) (t : Tune XRat) : Within z t t := ⟨.refl t, fun _ _ _ => rfl⟩

theorem Within.trans {z : ConstantDef XRat} {t t' t'' : Tune XRat} (h : Within z t t') (h' : Within z t' t'') :
    Within z t t'' :=
  ⟨h.frame.trans h'.frame, fun j i hno => (h'.bits j i hno).trans (h.bits j i hno)⟩

section Steady

variable {m : Machine} {t t' : Tune XRat} {name : String} {z : ConstantDef XRat} {scale translate : ℚ}
  {lo hi : Option ℚ} {index : ℕ}

theorem within_setArrayElement {value : XRat} (hz : t.constant name = some z)
    (h : (t.setArrayElement m name index value).run = .ok (.ok t')) : Within z t t' := by
  refine ⟨setArrayElementImpl_sameFrame m t name index value true t' h, fun j i hno => ?_⟩
  obtain ⟨pageIdx, base, p, raw, hcls, hi, hloc, -, -, rfl⟩ := Tune.setArrayElement_place hz h
  exact Tune.bit_writeElement hcls hi hloc raw hno

/-- Scale, translate and limits of an array, whatever its own bytes are. -/
structure Steady (m : Machine) (t : Tune XRat) (name : String) (z : ConstantDef XRat) (scale translate : ℚ)
    (lo hi : Option ℚ) : Prop where
  constant : t.constant name = some z
  coded : ∀ t', Within z t t' → t'.Coded m z (.fin scale) (.fin translate)
  limits : ∀ t', Within z t t' → t'.Limits m z lo hi

theorem Steady.independentOf (h : Steady m t name z scale translate lo hi) : t.IndependentOf m z z := by
  intro t' hframe hbits
  have hnow := h.coded t (.refl z t)
  have hthen := h.coded t' ⟨hframe, hbits⟩
  exact ⟨hthen.scale.trans hnow.scale.symm, hthen.translate.trans hnow.translate.symm⟩

theorem Steady.within (h : Steady m t name z scale translate lo hi) (hw : Within z t t') :
    Steady m t' name z scale translate lo hi :=
  ⟨(hw.frame.constant name).trans h.constant, fun t'' hw' => h.coded t'' (hw.trans hw'),
    fun t'' hw' => h.limits t'' (hw.trans hw')⟩

end Steady

/-! ## The request -/

/-- A cell with the value that its preview was computed from. -/
structure PendingCell where
  row : ℕ
  col : ℕ
  value : ℚ
  deriving DecidableEq

namespace PendingCell

/-- The preview is posted. -/
def posted (d : TableData XRat) (c : PendingCell) : CellEdit XRat :=
  ⟨c.row, c.col, encoded d.zLo d.zHi d.zScale d.zTranslate (.fin c.value)⟩

def index (nx : ℕ) (c : PendingCell) : ℕ := c.row * nx + c.col

end PendingCell

section Applied

variable {m : Machine} {t : Tune XRat} {id : String} {table : TableDef XRat} {d : TableData XRat}
  {z : ConstantDef XRat} {nx ny : ℕ} {scale translate : ℚ} {lo hi : Option ℚ} {flat : List XRat}

/-- What is read back for a preview. -/
def storedFor (ty : DataType) (scale translate : ℚ) (lo hi : Option ℚ) (value : ℚ) : XRat :=
  .fin (decoded scale translate (nearestRaw ty scale translate (limited lo hi
    (snapped scale translate (limited (some (lo.getD 0)) (some (hi.getD 255)) value)))))

/-- **The values of the array after the request**, cell by cell. -/
theorem setCells_stores (hs : scale ≠ 0) {pending : List PendingCell}
    (hposted : ∀ c ∈ pending, (c.posted d).value =
      .fin (snapped scale translate (limited (some (lo.getD 0)) (some (hi.getD 255)) c.value)))
    (hin : ∀ c ∈ pending, c.row < ny ∧ c.col < nx) (htable : t.tableDef id = some table)
    (hdims : t.tableDims table = some (nx, ny)) (hsteady : Steady m t table.zBins z scale translate lo hi)
    (hflat : t.arrayValues m table.zBins = .ok (some flat)) :
    ∃ t', setCells m id (pending.map (PendingCell.posted d)) t = .ok (.ok (), t') ∧
      t'.arrayValues m table.zBins = .ok (some (pending.foldl (fun flat c =>
        flat.set (c.index nx) (storedFor z.ty scale translate lo hi c.value)) flat)) := by
  induction pending generalizing t flat with
  | nil => exact ⟨t, rfl, hflat⟩
  | cons c pending ih =>
    obtain ⟨hrow, hcol⟩ := hin c List.mem_cons_self
    have hindex : c.index nx < flat.length :=
      (Tune.length_cells hdims hsteady.constant hflat).symm ▸ flat_index_lt hrow hcol
    obtain ⟨shape, -, -, hread⟩ := Tune.arrayValues_eq_some.mp hflat
    have hv := hread _ _ (List.getElem?_eq_getElem hindex)
    obtain ⟨t₁, hset, hstored⟩ := Tune.setArrayElement_stores hsteady.constant hsteady.independentOf
      (hsteady.coded t (.refl z t)) hs (hsteady.limits t (.refl z t)) hv
      (snapped scale translate (limited (some (lo.getD 0)) (some (hi.getD 255)) c.value))
    have hwithin := within_setArrayElement hsteady.constant hset
    obtain ⟨v, hv', hflat₁⟩ := Tune.arrayValues_setArrayElement hsteady.constant hsteady.independentOf hflat hset
    obtain rfl := Option.some.inj (Except.ok.inj (hstored.symm.trans hv'))
    have hdf : t₁.df = t.df := hwithin.frame.df
    have htable₁ : t₁.tableDef id = some table := by rw [← htable, Tune.tableDef, Tune.tableDef, hdf]
    have hdims₁ : t₁.tableDims table = some (nx, ny) := by
      rw [← hdims]
      simp only [Tune.tableDims, Tune.constant, hdf]
    obtain ⟨t', hrun, hvalues⟩ := ih (fun c' hc' => hposted c' (List.mem_cons_of_mem _ hc'))
      (fun c' hc' => hin c' (List.mem_cons_of_mem _ hc')) htable₁ hdims₁ (hsteady.within hwithin) hflat₁
    refine ⟨t', ?_, hvalues⟩
    rw [List.map_cons, setCells, editOutcome]
    have hcell : (t.setTableCell m id (c.posted d).row (c.posted d).col (c.posted d).value).run =
        .ok (.ok t₁) := by
      rw [hposted c List.mem_cons_self]
      rw [show t.setTableCell m id (c.posted d).row (c.posted d).col _ = _ from
        Tune.setTableCell_inside htable hdims hrow hcol]
      exact hset
    rw [hcell]
    exact hrun

/-- **All the previews are what is stored exactly when all the values are kept.** -/
theorem applied_stored_iff {df : IniDef XRat} {msq : Option (String × Msq.MsqFile XRat)}
    (htable : t.tableDef id = some table) (hview : t.table m id = .ok (some d)) (hloaded : t.loaded = true)
    (hdims : t.tableDims table = some (nx, ny)) (hsteady : Steady m t table.zBins z scale translate lo hi)
    (hs : scale ≠ 0) {pending : List PendingCell}
    (hnodup : (pending.map fun c => (c.row, c.col)).Nodup) (hin : ∀ c ∈ pending, c.row < ny ∧ c.col < nx) :
    ∃ t', performEdit m df msq t (.tableCells id (pending.map (PendingCell.posted d))) = .ok (.ok (), t') ∧
      ((∀ c ∈ pending, t'.arrayElement m table.zBins (c.index nx) = .ok (some (c.posted d).value)) ↔
        ∀ c ∈ pending, CellKept z.ty scale translate lo hi
          (limited (some (lo.getD 0)) (some (hi.getD 255)) c.value)) := by
  have hserved := Tune.served_of_table htable hdims hsteady.constant hview
  have hcode := hsteady.coded t (.refl z t)
  have hlim := hsteady.limits t (.refl z t)
  have hposted : ∀ c ∈ pending, (c.posted d).value =
      .fin (snapped scale translate (limited (some (lo.getD 0)) (some (hi.getD 255)) c.value)) := by
    intro c _
    rw [PendingCell.posted]
    dsimp only
    rw [Tune.served_limit 0 hserved.zLo hlim.lo, Tune.served_limit 255 hserved.zHi hlim.hi,
      Tune.served_field hserved.zScale hcode.scale, Tune.served_field hserved.zTranslate hcode.translate]
    exact encoded_fin hs (cell_limits _ _ c.value)
  obtain ⟨flat, hflat, -⟩ := hserved.cells
  obtain ⟨t', hrun, hvalues⟩ := setCells_stores hs hposted hin htable hdims hsteady hflat
  refine ⟨t', by rw [performEdit, whenLoaded, if_pos hloaded, hrun], ?_⟩
  obtain ⟨shape, -, -, hread⟩ := Tune.arrayValues_eq_some.mp hvalues
  have hindexes : (pending.map (PendingCell.index nx)).Nodup := by
    refine List.Nodup.map_on (fun a ha b hb hab => ?_) (List.Nodup.of_map _ hnodup)
    have hcell := (flat_index_inj (hin a ha).2 (hin b hb).2).mp hab
    exact List.inj_on_of_nodup_map hnodup ha hb (Prod.ext hcell.1 hcell.2)
  refine forall₂_congr fun c hc => ?_
  have hlt : c.index nx < flat.length :=
    (Tune.length_cells hdims hsteady.constant hflat).symm ▸ flat_index_lt (hin c hc).1 (hin c hc).2
  rw [hread _ _ (getElem?_foldl_set_of_mem hindexes hc hlt), hposted c hc, storedFor]
  refine Iff.trans ?_ ((decoded_eq_snapped_iff hs).trans (nearestRaw_cell_iff hs c.value))
  exact ⟨fun h => XRat.fin.inj (Option.some.inj (Except.ok.inj h)), fun h => by rw [h]⟩

end Applied

example : Steady ⟨.debug, 8⟩ ve "veTable" veTable 1 0 none none :=
  ⟨rfl, fun _ _ => ⟨rfl, rfl⟩, fun _ _ => ⟨rfl, rfl⟩⟩

end RustyTune.Web
