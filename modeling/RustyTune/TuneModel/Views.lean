import RustyTune.TuneModel.Grid
import RustyTune.TuneModel.Stored

/-!
# What a view says of a constant

A view of a table carries limits, scale and translate of its constants along with the values.

* `axisMeta_eq_some`, `served_field`, `served_limit`: they are the constant's own, or a default.
* `codedApart_of_independent`: those of an array stay when one of its elements is written.
* **`setArrayElement_stores`**: an edit of an element that the view shows succeeds, and what is read
  back is the limited value on the grid of the type.
-/

namespace RustyTune.TuneModel.Tune

open TsIni Exec

/-! ## What the view says of a constant -/

variable {m : Machine} {t : Tune XRat} {name : String} {c : ConstantDef XRat}

theorem evalOk_eq_some {α : Type} {x : Eval α} {a : α} :
    evalOk x = .ok (some a) ↔ x.run = .ok (.ok a) := by
  refine ⟨fun h => ?_, evalOk_of_run⟩
  rw [evalOk] at h
  obtain ⟨r, hr, h⟩ := bind_eq_ok.mp h
  cases r with
  | error e => cases Except.ok.inj h
  | ok a' => rw [hr, Option.some.inj (Except.ok.inj h)]

theorem fieldOr_eq_ok {field : Option (NumOrExpr XRat)} {default v : XRat} :
    t.fieldOr m field default = .ok v ↔ ∃ o, t.limit m field = .ok o ∧ o.getD default = v := by
  rw [fieldOr, bind_eq_ok]
  exact exists_congr fun o => and_congr_right fun _ => pure_eq_ok

/-- An axis that can be edited is served with the constant's limits, scale and translate. -/
theorem axisMeta_eq_some {len : ℕ} {a : AxisMeta XRat} (hc : t.constant name = some c)
    (h : t.axisMeta m name len = .ok (some a)) :
    t.Coded m c a.scale a.translate ∧ F64.eq a.scale 0 = false ∧ t.limit m c.lo = .ok a.lo ∧
      t.limit m c.hi = .ok a.hi := by
  rw [axisMeta, hc] at h
  cases hshape : c.shape with
  | none => simp [hshape] at h
  | some shape =>
    simp only [hshape] at h
    split_ifs at h
    · exact nomatch h
    · obtain ⟨scale, hscale, h⟩ := bind_eq_ok.mp h
      cases scale with
      | none => exact nomatch h
      | some scale =>
        dsimp only at h
        split_ifs at h with hzero
        · exact nomatch h
        · obtain ⟨lo, hlo, h⟩ := bind_eq_ok.mp h
          obtain ⟨hi, hhi, h⟩ := bind_eq_ok.mp h
          obtain ⟨digits, -, h⟩ := bind_eq_ok.mp h
          obtain ⟨translate, htranslate, h⟩ := bind_eq_ok.mp h
          cases translate with
          | none => exact nomatch h
          | some translate =>
            obtain rfl := Option.some.inj (Except.ok.inj h)
            rw [Bool.or_eq_true, not_or, Bool.not_eq_true] at hzero
            exact ⟨⟨evalOk_eq_some.mp hscale, evalOk_eq_some.mp htranslate⟩,
              Bool.not_eq_true _ ▸ hzero.2, hlo, hhi⟩

theorem coded_of_scaled {raw : ℤ} {v : XRat}
    (h : scaled m (t.symbols m) c raw = .ok (some v)) :
    ∃ scale translate, t.Coded m c scale translate := by
  rw [scaled, bind_eq_ok] at h
  obtain ⟨scale, hscale, h⟩ := h
  cases scale with
  | none => cases h
  | some scale =>
    obtain ⟨translate, htranslate, h⟩ := bind_eq_ok.mp h
    cases translate with
    | none => cases h
    | some translate =>
      exact ⟨scale, translate, evalOk_eq_some.mp hscale, evalOk_eq_some.mp htranslate⟩

/-- A scale or translate that evaluates is served as it is. -/
theorem served_field {field : NumOrExpr XRat} {default v x : XRat}
    (h : t.fieldOr m (some field) default = .ok v)
    (hx : (field.eval m (t.symbols m)).run = .ok (.ok x)) : v = x := by
  obtain ⟨o, ho, rfl⟩ := fieldOr_eq_ok.mp h
  rw [limit, evalOk_of_run hx] at ho
  rw [← Except.ok.inj ho, Option.getD_some]

/-! ## What is stored -/

/-- A limit that is a number is served as it is, and a missing one as the default. -/
theorem served_limit {field : Option (NumOrExpr XRat)} {v : XRat} {limit : Option ℚ} (default : ℚ)
    (h : t.fieldOr m field (.fin default) = .ok v) (hlim : t.limit m field = .ok (limit.map .fin)) :
    v = .fin (limit.getD default) := by
  obtain ⟨o, ho, rfl⟩ := fieldOr_eq_ok.mp h
  rw [hlim] at ho
  rw [← Except.ok.inj ho]
  cases limit <;> rfl

/-- A view has been decoded from the constant of its cells. -/
theorem exists_served {id : String} {table : TableDef XRat} {d : TableData XRat}
    (htable : t.tableDef id = some table) (h : t.table m id = .ok (some d)) :
    ∃ z nx ny, t.Served m table z nx ny d := by
  cases hz : t.constant table.zBins with
  | none => simp [Tune.table, htable, hz] at h
  | some z =>
    cases hdims : t.tableDims table with
    | none => simp [Tune.table, htable, hdims] at h
    | some dims => exact ⟨z, dims.1, dims.2, served_of_table htable hdims hz h⟩

variable {index : ℕ} {scale translate : ℚ} {lo hi : Option ℚ}

theorem codedApart_of_independent {pageIdx base : ℕ} (hind : t.IndependentOf m c c)
    (hcode : t.Coded m c (.fin scale) (.fin translate)) (hcls : c.cls = .array)
    (hi : index < c.elementCount) (hloc : location c = some (pageIdx, base)) :
    t.CodedApart m c pageIdx (base + index * c.ty.size) scale translate := by
  intro raw
  obtain ⟨hs, ht⟩ := hind (t.writePage pageIdx (base + index * c.ty.size) c.ty raw) .writePage
    fun j i hno => bit_writeElement hcls hi hloc raw hno
  exact ⟨by rw [hs, hcode.scale], by rw [ht, hcode.translate]⟩

/-- **An edit of an element that has a value succeeds, and the element then has the value of the raw
number that the limited value is rounded to.** -/
theorem setArrayElement_stores (hc : t.constant name = some c) (hind : t.IndependentOf m c c)
    (hcode : t.Coded m c (.fin scale) (.fin translate)) (hs : scale ≠ 0) (hlim : t.Limits m c lo hi)
    {v : XRat} (hv : t.arrayElement m name index = .ok (some v)) (user : ℚ) :
    ∃ t', (t.setArrayElement m name index (.fin user)).run = .ok (.ok t') ∧
      t'.arrayElement m name index =
        .ok (some (.fin (decoded scale translate (nearestRaw c.ty scale translate (limited lo hi user))))) := by
  obtain ⟨pageIdx, base, p, raw, hcls, hindex, hloc, hp, hraw, -⟩ := arrayElement_place hc hv
  have hstands : t.Stands (.element name index) c pageIdx (base + index * c.ty.size) :=
    ⟨hc, ⟨hcls, hindex⟩, base, hloc, rfl⟩
  have happart := codedApart_of_independent hind hcode hcls hindex hloc
  refine ⟨_, ?_, cellValue_writePage hstands hp (readRaw_eq_some.mp hraw).1 happart
    (nearestRaw_inRange (limited lo hi user))⟩
  change (t.setCell m (.element name index) (.fin user) true).run = _
  rw [hlim.setCell hstands]
  exact hcode.setCell hs hstands hp _

end RustyTune.TuneModel.Tune
