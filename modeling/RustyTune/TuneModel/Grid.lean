import RustyTune.TuneModel.Frames

/-!
# Tables and their cells

* `arrayValues_eq_some`, `rows_eq_ok`: the values of an array, and their rows.
* `TableData.cell`: the cell of a row and a column; **`Tune.table_spec`**: it is the element
  `row * nx + col` of the cells' constant. `Tune.Served`: all that a view has been decoded from.
* `Tune.IndependentOf`: a constant is scaled alike whatever the bytes of another one are.
* `Tune.SteadyIn`: the values of an array stay when another tune takes over its raw values.
  `arrayValues_setArrayElement`: an edit of an element shows in that element of the values only.
-/

namespace RustyTune.TuneModel

open TsIni Exec Update

variable {F : Type}

/-! ## Values in sequence -/

/-- Cells of a table are the same element only if they are the same. -/
theorem flat_index_inj {nx row row' col col' : ℕ} (hcol : col < nx) (hcol' : col' < nx) :
    row * nx + col = row' * nx + col' ↔ row = row' ∧ col = col' := by
  refine ⟨fun h => ?_, fun ⟨h, h'⟩ => by rw [h, h']⟩
  have hnx : 0 < nx := Nat.zero_lt_of_lt hcol
  have hrow := congrArg (· / nx) h
  simp only [Nat.mul_comm _ nx, Nat.mul_add_div hnx, Nat.div_eq_of_lt hcol, Nat.div_eq_of_lt hcol',
    Nat.add_zero] at hrow
  subst hrow
  exact ⟨rfl, Nat.add_left_cancel h⟩

theorem flat_index_lt {nx ny row col : ℕ} (hrow : row < ny) (hcol : col < nx) :
    row * nx + col < nx * ny := by
  calc row * nx + col < row * nx + nx := Nat.add_lt_add_left hcol _
    _ = (row + 1) * nx := (Nat.succ_mul row nx).symm
    _ ≤ ny * nx := Nat.mul_le_mul_right nx hrow
    _ = nx * ny := Nat.mul_comm ..

namespace TableData

/-- The cell of a row and a column. -/
def cell (d : TableData F) (row col : ℕ) : Option F := d.z[row]?.bind (·[col]?)

/-- The rows and columns of the view. -/
structure Grid (d : TableData F) (nx ny : ℕ) : Prop where
  rows : d.z.length = ny
  columns : ∀ r ∈ d.z, r.length = nx

end TableData

namespace Tune

variable [F64 F] {m : Machine} {t t' : Tune F}

theorem arrayValues_eq_some {name : String} {vs : List F} :
    t.arrayValues m name = .ok (some vs) ↔
      ∃ shape, (t.constant name).bind ConstantDef.shape = some shape ∧ vs.length = shape.elementCount ∧
        ∀ i v, vs[i]? = some v → t.arrayElement m name i = .ok (some v) := by
  unfold arrayValues
  cases (t.constant name).bind ConstantDef.shape with
  | none => simp
  | some shape =>
    simp only [collect_eq_some, List.forall₂_iff_get, List.length_range, Option.some.injEq,
      exists_eq_left', List.get_eq_getElem, List.getElem_range]
    constructor
    · rintro ⟨hlen, h⟩
      refine ⟨hlen.symm, fun i v hv => ?_⟩
      obtain ⟨hi, rfl⟩ := List.getElem?_eq_some_iff.mp hv
      exact h i (by omega) hi
    · rintro ⟨hlen, h⟩
      exact ⟨hlen.symm, fun i _ hi => h i _ (List.getElem?_eq_getElem hi)⟩

/-- What a view has been decoded from. -/
structure Served (m : Machine) (t : Tune F) (table : TableDef F) (z : ConstantDef F) (nx ny : ℕ)
    (d : TableData F) : Prop where
  x : t.arrayValues m table.xBins.1 = .ok (some d.x)
  y : t.arrayValues m table.yBins.1 = .ok (some d.y)
  cells : ∃ flat, t.arrayValues m table.zBins = .ok (some flat) ∧ rows flat nx ny = .ok d.z
  zLo : t.fieldOr m z.lo 0 = .ok d.zLo
  zHi : t.fieldOr m z.hi 255 = .ok d.zHi
  zScale : t.fieldOr m (some z.scale) 1 = .ok d.zScale
  zTranslate : t.fieldOr m (some z.translate) 0 = .ok d.zTranslate
  xMeta : t.axisMeta m table.xBins.1 nx = .ok d.xMeta
  yMeta : t.axisMeta m table.yBins.1 ny = .ok d.yMeta

theorem served_of_table {id : String} {table : TableDef F} {nx ny : ℕ} {z : ConstantDef F}
    {d : TableData F} (htable : t.tableDef id = some table) (hdims : t.tableDims table = some (nx, ny))
    (hz : t.constant table.zBins = some z) (h : t.table m id = .ok (some d)) :
    t.Served m table z nx ny d := by
  simp only [Tune.table, htable, hdims, hz] at h
  obtain ⟨x, hx, h⟩ := bind_eq_ok.mp h
  cases x with
  | none => exact nomatch h
  | some x =>
    obtain ⟨y, hy, h⟩ := bind_eq_ok.mp h
    cases y with
    | none => exact nomatch h
    | some y =>
      obtain ⟨flat, hflat, h⟩ := bind_eq_ok.mp h
      cases flat with
      | none => exact nomatch h
      | some flat =>
        simp only [bind_eq_ok, pure_eq_ok, Option.some.injEq] at h
        obtain ⟨rows, hrows, zLo, hlo, zHi, hhi, zDigits, -, zScale, hscale, zTranslate, htranslate,
          xMeta, hxMeta, yMeta, hyMeta, rfl⟩ := h
        exact ⟨hx, hy, ⟨flat, hflat, hrows⟩, hlo, hhi, hscale, htranslate, hxMeta, hyMeta⟩

/-- Scale and translate of the constant are the same whatever the bytes of `z` are. -/
def IndependentOf (m : Machine) (t : Tune F) (c z : ConstantDef F) : Prop :=
  ∀ t', SameFrame t t' → (∀ j i, ¬ Msq.OwnByte z j (i / 8) → t'.bit j i = t.bit j i) →
    c.scale.eval m (t'.symbols m) = c.scale.eval m (t.symbols m) ∧
    c.translate.eval m (t'.symbols m) = c.translate.eval m (t.symbols m)

/-- The tune `t'` scales the raw values that an array has in `t` as `t` does. -/
def SteadyIn (m : Machine) (t t' : Tune F) (name : String) : Prop :=
  ∀ c index raw, t.constant name = some c → c.cls = .array → index < c.elementCount →
    t.arrayRaw name index = some raw → scaled m (t'.symbols m) c raw = scaled m (t.symbols m) c raw

theorem arrayElement_eq_scaled {name : String} {index : ℕ} {c : ConstantDef F}
    (hc : t.constant name = some c) (hcls : c.cls = .array) (hi : index < c.elementCount) :
    t.arrayElement m name index = match t.arrayRaw name index with
      | none => return none
      | some raw => scaled m (t.symbols m) c raw := by
  simp only [arrayElement, arrayElementWith, arrayRaw, hc, hcls, ne_eq, not_true_eq_false, if_false,
    Nat.not_le.mpr hi, Option.bind_some]
  cases t.located c with
  | none => rfl
  | some place => rfl

theorem arrayElement_congr {name : String} {index : ℕ} (hdf : t'.df = t.df)
    (hraw : ∀ c, t.constant name = some c → c.cls = .array → index < c.elementCount →
      t'.arrayRaw name index = t.arrayRaw name index)
    (hsteady : t.SteadyIn m t' name) :
    t'.arrayElement m name index = t.arrayElement m name index := by
  have hconst : t'.constant name = t.constant name := by rw [constant, constant, hdf]
  cases hc : t.constant name with
  | none => simp only [arrayElement, arrayElementWith, hconst, hc]
  | some c =>
    by_cases hcls : c.cls = .array
    · by_cases hi : index < c.elementCount
      · have hread := hraw c hc hcls hi
        rw [arrayElement_eq_scaled (hconst.trans hc) hcls hi, arrayElement_eq_scaled hc hcls hi, hread]
        cases hval : t.arrayRaw name index with
        | none => rfl
        | some raw => exact hsteady c index raw hc hcls hi hval
      · simp only [arrayElement, arrayElementWith, hconst, hc, hcls, ne_eq, not_true_eq_false, if_false,
          Nat.not_lt.mp hi, if_true]
    · simp only [arrayElement, arrayElementWith, hconst, hc, hcls, ne_eq, not_false_eq_true, if_true]

omit [F64 F] in
/-- An element keeps its raw value when none of its bytes is written. -/
theorem arrayRaw_writePage {name : String} {index pageIdx offset : ℕ} {ty : DataType} {raw : ℤ}
    {c : ConstantDef F} (hc : t.constant name = some c)
    (h : ∀ base, location c = some (pageIdx, base) → ∀ i, base + index * c.ty.size ≤ i →
      i < base + index * c.ty.size + c.ty.size → ¬ (offset ≤ i ∧ i < offset + ty.size)) :
    (t.writePage pageIdx offset ty raw).arrayRaw name index = t.arrayRaw name index := by
  simp only [arrayRaw, constant_writePage, hc, Option.bind_some, located]
  cases hloc : location c with
  | none => rfl
  | some place =>
    obtain ⟨j, base⟩ := place
    simp only [Option.bind_some, page_writePage]
    split_ifs with hj
    · subst hj
      cases t.page pageIdx with
      | none => rfl
      | some p =>
        simp only [Option.map_some, Option.bind_some]
        exact readRaw_congr length_writeRaw fun i h1 h2 => getElem?_writeRaw (h base hloc i h1 h2)
    · rfl

theorem scaled_congr {c : ConstantDef F} {syms syms' : SymbolSource F}
    (hs : c.scale.eval m syms' = c.scale.eval m syms)
    (ht : c.translate.eval m syms' = c.translate.eval m syms) (raw : ℤ) :
    scaled m syms' c raw = scaled m syms c raw := by
  simp only [scaled, hs, ht]

theorem scaled_total {c : ConstantDef F} {syms : SymbolSource F} {raw : ℤ} {v : F}
    (h : scaled m syms c raw = .ok (some v)) (raw' : ℤ) :
    ∃ v', scaled m syms c raw' = .ok (some v') := by
  rw [scaled, bind_eq_ok] at h
  obtain ⟨s, hs, h⟩ := h
  cases s with
  | none => cases h
  | some scale =>
    obtain ⟨tr, htr, h⟩ := bind_eq_ok.mp h
    cases tr with
    | none => cases h
    | some translate =>
      refine ⟨F64.mul (F64.add (F64.ofInt raw') translate) scale, ?_⟩
      rw [scaled, hs, ok_bind]
      dsimp only
      rw [htr]
      rfl

theorem arrayElement_place {name : String} {index : ℕ} {c : ConstantDef F} {v : F}
    (hc : t.constant name = some c) (h : t.arrayElement m name index = .ok (some v)) :
    ∃ pageIdx base p raw, c.cls = .array ∧ index < c.elementCount ∧
      location c = some (pageIdx, base) ∧ t.page pageIdx = some p ∧
      readRaw p.data (base + index * c.ty.size) c.ty = some raw ∧
      scaled m (t.symbols m) c raw = .ok (some v) := by
  simp only [arrayElement, arrayElementWith, hc] at h
  split_ifs at h with hcls hi
  · cases h
  · cases h
  · cases hl : t.located c with
    | none => simp [hl] at h
    | some place =>
      obtain ⟨p, base⟩ := place
      obtain ⟨pageIdx, hloc, hp⟩ := located_eq_some.mp hl
      rw [hl] at h
      cases hraw : readRaw p.data (base + index * c.ty.size) c.ty with
      | none => simp [hraw] at h
      | some raw =>
        simp only [hraw] at h
        exact ⟨pageIdx, base, p, raw, not_not.mp hcls, Nat.not_le.mp hi, hloc, hp, hraw, h⟩

section Element

variable {name : String} {index : ℕ} {z : ConstantDef F} {value : F} {flat : List F}

/-- The edit of an element writes a raw value at its place. -/
theorem setArrayElement_place (hz : t.constant name = some z)
    (h : (t.setArrayElement m name index value).run = .ok (.ok t')) :
    ∃ pageIdx base p raw, z.cls = .array ∧ index < z.elementCount ∧
      location z = some (pageIdx, base) ∧ t.page pageIdx = some p ∧ InRange z.ty raw ∧
      t' = t.writePage pageIdx (base + index * z.ty.size) z.ty raw := by
  rw [setArrayElement, setArrayElementImpl, attempt_bind_eq_ok] at h
  obtain ⟨c, hc, h⟩ := h
  rw [orError_eq_ok, hz] at hc
  obtain rfl := Option.some.inj hc
  by_cases hcls : z.cls = .array
  · by_cases hlen : z.elementCount ≤ index
    · simp [hcls, hlen] at h
    · simp only [hcls, ne_eq, not_true_eq_false, if_false, hlen, attempt_bind_eq_ok, orError_eq_ok,
        lift_eq_ok, pageAt_eq_ok, pure_eq_ok_ok] at h
      obtain ⟨⟨pageIdx, base⟩, hloc, raw, henc, p, hp, rfl⟩ := h
      refine ⟨pageIdx, base, p, raw, hcls, Nat.not_le.mp hlen, hloc, hp, ?_, rfl⟩
      rw [encodeImpl_eq_bind, attempt_bind_eq_ok] at henc
      obtain ⟨s, -, henc⟩ := henc
      obtain ⟨user, -, henc⟩ := attempt_bind_eq_ok.mp henc
      rw [← pure_eq_ok_ok.mp henc]
      exact quantise_inRange s
  · simp [hcls] at h

omit [F64 F] in
theorem ownByte_element {pageIdx base i : ℕ} (hcls : z.cls = .array) (hi : index < z.elementCount)
    (hloc : location z = some (pageIdx, base)) (h1 : base + index * z.ty.size ≤ i)
    (h2 : i < base + index * z.ty.size + z.ty.size) : Msq.OwnByte z pageIdx i := by
  have hle : index * z.ty.size + z.ty.size ≤ z.elementCount * z.ty.size := by
    rw [← Nat.succ_mul]
    exact Nat.mul_le_mul_right _ hi
  refine ⟨base, hloc, by omega, ?_⟩
  simp only [Msq.valueCount, hcls]
  omega

omit [F64 F] in
/-- A write of an element leaves the bits of all other bytes. -/
theorem bit_writeElement {pageIdx base j i : ℕ} (hcls : z.cls = .array) (hi : index < z.elementCount)
    (hloc : location z = some (pageIdx, base)) (raw : ℤ) (hno : ¬ Msq.OwnByte z j (i / 8)) :
    (t.writePage pageIdx (base + index * z.ty.size) z.ty raw).bit j i = t.bit j i := by
  rw [← store_singleton]
  refine bit_store ?_
  rintro ⟨rfl, h1, h2⟩
  simp only [List.length_singleton, Nat.one_mul] at h2
  exact hno (ownByte_element hcls hi hloc (by omega) (by omega))

/-- What is independent of the constant's bytes is scaled alike after an edit of an element. -/
theorem scaled_setArrayElement (hz : t.constant name = some z)
    (h : (t.setArrayElement m name index value).run = .ok (.ok t')) {c : ConstantDef F}
    (hind : t.IndependentOf m c z) (raw : ℤ) :
    scaled m (t'.symbols m) c raw = scaled m (t.symbols m) c raw := by
  obtain ⟨pageIdx, base, p, r, hcls, hi, hloc, -, -, rfl⟩ := setArrayElement_place hz h
  have hsame := hind (t.writePage pageIdx (base + index * z.ty.size) z.ty r) .writePage
    fun j i hno => bit_writeElement hcls hi hloc r hno
  exact scaled_congr hsame.1 hsame.2 raw

/-- **The values after an edit are those before, but for the element.** -/
theorem arrayValues_setArrayElement (hz : t.constant name = some z) (hself : t.IndependentOf m z z)
    (hflat : t.arrayValues m name = .ok (some flat))
    (h : (t.setArrayElement m name index value).run = .ok (.ok t')) :
    ∃ v, t'.arrayElement m name index = .ok (some v) ∧
      t'.arrayValues m name = .ok (some (flat.set index v)) := by
  have hscaled := fun raw => scaled_setArrayElement hz h hself raw
  obtain ⟨pageIdx, base, p, raw, hcls, hi, hloc, hp, hr, rfl⟩ := setArrayElement_place hz h
  obtain ⟨shape, hsh, hlen, helem⟩ := arrayValues_eq_some.mp hflat
  have hshape : z.shape = some shape := by
    rwa [hz, Option.bind_some] at hsh
  have hcount : z.elementCount = shape.elementCount := by
    rw [ConstantDef.elementCount, hshape]
    rfl
  have hstands : t.Stands (.element name index) z pageIdx (base + index * z.ty.size) :=
    ⟨hz, ⟨hcls, hi⟩, base, hloc, rfl⟩
  -- the element could be read before, so it lies in the page and scale and translate evaluate
  have hold := helem _ _ (List.getElem?_eq_getElem (by omega : index < flat.length))
  obtain ⟨pageIdx', base', p', raw₀, -, -, hloc', hp', hraw, hold⟩ := arrayElement_place hz hold
  obtain ⟨rfl, rfl⟩ := Prod.mk.inj (Option.some.inj (hloc.symm.trans hloc'))
  obtain rfl := Option.some.inj (hp.symm.trans hp')
  obtain ⟨v, hv⟩ := scaled_total hold raw
  have hnew : (t.writePage pageIdx (base + index * z.ty.size) z.ty raw).arrayElement m name index =
      .ok (some v) := by
    change cellValue m _ (.element name index) = _
    rw [cellValue_eq (hstands.writePage ..) (page_writePage_self hp),
      readRaw_writeRaw (readRaw_eq_some.mp hraw).1 hr]
    exact (hscaled raw).trans hv
  refine ⟨v, hnew, arrayValues_eq_some.mpr ⟨shape, hsh, by rw [List.length_set, hlen], ?_⟩⟩
  intro i w hw
  by_cases hne : i = index
  · subst hne
    rw [List.getElem?_set_self (by omega)] at hw
    rw [← Option.some.inj hw]
    exact hnew
  · rw [List.getElem?_set_ne (Ne.symm hne)] at hw
    rw [← helem i w hw]
    refine arrayElement_congr rfl (fun c hc _ _ => arrayRaw_writePage hc ?_)
      fun c _ raw' hc _ _ _ => ?_
    · obtain rfl := Option.some.inj (hz.symm.trans hc)
      intro base' hloc' k h1 h2 h3
      obtain ⟨-, rfl⟩ := Prod.mk.inj (Option.some.inj (hloc.symm.trans hloc'))
      rcases Nat.lt_or_gt_of_ne hne with hlt | hgt
      · have := Nat.mul_le_mul_right z.ty.size hlt
        rw [Nat.succ_mul] at this
        omega
      · have := Nat.mul_le_mul_right z.ty.size hgt
        rw [Nat.succ_mul] at this
        omega
    · obtain rfl := Option.some.inj (hz.symm.trans hc)
      exact hscaled raw'

end Element

/-! ## Edits of a cell -/

section Edit

variable {id : String} {table : TableDef F} {nx ny row col : ℕ} {z : ConstantDef F} {d : TableData F}
  {value : F}

/-- **Within the table, an edit of a cell is the edit of its element.** -/
theorem setTableCell_inside (htable : t.tableDef id = some table)
    (hdims : t.tableDims table = some (nx, ny)) (hrow : row < ny) (hcol : col < nx) :
    t.setTableCell m id row col value = t.setArrayElement m table.zBins (row * nx + col) value := by
  rw [setTableCell, htable, orError, pure_bind, hdims, orError, pure_bind]
  dsimp only
  rw [if_neg (not_or.mpr ⟨Nat.not_le.mpr hrow, Nat.not_le.mpr hcol⟩)]

/-- The index that the error for a cell outside the table names. -/
def namedIndex (m : Machine) (nx row col : ℕ) : Exec ℕ := do m.usize ((← m.usize (row * nx)) + col)

/-- **Outside the table, an edit of a cell is rejected once the index is computed.** -/
theorem setTableCell_outside (htable : t.tableDef id = some table)
    (hdims : t.tableDims table = some (nx, ny)) (hout : ny ≤ row ∨ nx ≤ col) :
    (t.setTableCell m id row col value).run = (do
      return .error (.indexRange table.zBins (← namedIndex m nx row col) (nx * ny))) := by
  rw [setTableCell, htable, orError, pure_bind, hdims, orError, pure_bind]
  dsimp only
  rw [if_pos hout]
  change (do
    let r ← ((namedIndex m nx row col >>= fun k => pure (Except.ok k)) : Exec (Except TuneError ℕ))
    _ : Exec (Except TuneError (Tune F))) = _
  cases namedIndex m nx row col <;> rfl

theorem namedIndex_total_iff (m : Machine) (nx row col : ℕ) :
    (∃ k, namedIndex m nx row col = .ok k) ↔ m.build = .release ∨ row * nx + col < 2 ^ 64 := by
  constructor
  · rintro ⟨k, hk⟩
    by_contra hno
    rw [not_or, Nat.not_lt] at hno
    obtain ⟨hbuild, hbig⟩ := hno
    have hdebug : m.build = .debug := by
      cases h : m.build with
      | debug => rfl
      | release => exact absurd h hbuild
    by_cases hmul : row * nx < 2 ^ 64
    · rw [namedIndex, m.usize_of_lt hmul, ok_bind, m.usize_debug hdebug hbig] at hk
      exact nomatch hk
    · rw [namedIndex, m.usize_debug hdebug (Nat.not_lt.mp hmul)] at hk
      exact nomatch hk
  · rintro (hrelease | hlt)
    · exact ⟨_, by rw [namedIndex, m.usize_release hrelease, ok_bind, m.usize_release hrelease]⟩
    · exact ⟨_, by rw [namedIndex, m.usize_of_lt (by omega), ok_bind, m.usize_of_lt hlt]⟩

omit [F64 F] in
theorem elementCount_of_tableDims (hdims : t.tableDims table = some (nx, ny))
    (hz : t.constant table.zBins = some z) :
    z.elementCount = nx * ny ∧ nx < 2 ^ 32 ∧ ny < 2 ^ 32 := by
  rw [tableDims, hz, Option.bind_some] at hdims
  rw [ConstantDef.elementCount]
  cases hsh : z.shape with
  | none => simp [hsh] at hdims
  | some shape =>
    rw [hsh] at hdims
    cases shape with
    | bits lo hi => exact nomatch hdims
    | array1D n =>
      obtain ⟨rfl, rfl⟩ := Prod.mk.inj (Option.some.inj hdims)
      have := n.toNat_lt
      exact ⟨(Nat.mul_one _).symm, by omega, by omega⟩
    | array2D x y =>
      obtain ⟨rfl, rfl⟩ := Prod.mk.inj (Option.some.inj hdims)
      have := x.toNat_lt
      have := y.toNat_lt
      exact ⟨rfl, by omega, by omega⟩

theorem length_cells (hdims : t.tableDims table = some (nx, ny)) (hz : t.constant table.zBins = some z)
    {flat : List F} (hflat : t.arrayValues m table.zBins = .ok (some flat)) :
    flat.length = nx * ny := by
  obtain ⟨shape, hsh, hlen, -⟩ := arrayValues_eq_some.mp hflat
  rw [hlen, ← (elementCount_of_tableDims hdims hz).1, ConstantDef.elementCount]
  rw [hz, Option.bind_some] at hsh
  rw [hsh]
  rfl

end Edit

end Tune

/-! ## A table of three rows -/

/-- Bytes of an array on the first page, unscaled. -/
def byteArray (name : String) (offset : UInt32) (shape : Shape) : ConstantDef XRat where
  name
  cls := .array
  ty := .u08
  page := some 1
  offset := some offset
  shape := some shape
  units := none
  scale := .num (.fin 1)
  translate := .num (.fin 0)
  lo := none
  hi := none
  digits := none
  labels := []
  stringLen := none
  noMsqSave := false

def veDef : TableDef XRat where
  id := "veTable1Tbl"
  mapId := "veTable1Map"
  title := "VE Table"
  page := 1
  xBins := ("rpmBins", none)
  yBins := ("loadBins", none)
  zBins := "veTable"
  line := 1

def veTable : ConstantDef XRat := byteArray "veTable" 5 (.array2D 2 3)

/-- Two columns, three rows, all zero. -/
def ve : Tune XRat :=
  Tune.new {
    header := { pageSizes := [11] }
    constants := IndexMap.ofList [("rpmBins", byteArray "rpmBins" 0 (.array1D 2)),
      ("loadBins", byteArray "loadBins" 2 (.array1D 3)), ("veTable", veTable)]
    tables := IndexMap.ofList [("veTable1Tbl", veDef)] }

def veView : TableData XRat where
  x := [.fin 0, .fin 0]
  y := [.fin 0, .fin 0, .fin 0]
  z := [[.fin 0, .fin 0], [.fin 0, .fin 0], [.fin 0, .fin 0]]
  zLo := .fin 0
  zHi := .fin 255
  zDigits := 0
  zScale := .fin 1
  zTranslate := .fin 0
  xMeta := some ⟨none, none, 0, .fin 1, .fin 0⟩
  yMeta := some ⟨none, none, 0, .fin 1, .fin 0⟩

deriving instance DecidableEq for AxisMeta, TableData

theorem ve_view : ve.table ⟨.debug, 8⟩ "veTable1Tbl" = .ok (some veView) := by decide +kernel

end RustyTune.TuneModel
