import RustyTune.Lib.InPlace
import RustyTune.TuneModel.Cells
import RustyTune.TuneModel.Choices
import RustyTune.TuneModel.Edits

/-!
# Edits in place

The edits as the code makes them, on the tune itself.

* `setConstantInPlace`, `setArrayElementInPlace`, `setTableCellInPlace`, `setTableAxisInPlace`,
  `setPcValueInPlace`; **`Operation.carries`**: they carry over the edits that give a tune.
* `Operation.OwnBit`: the bits of the scalar, the element or the field that an edit addresses.
* `Operation.Confined`: no bit outside a field is written with something else than it is;
  `not_stray`: so it is for fields of the right order.
* **`edit_frame_iff`**: an edit that ends in an error leaves the tune, and one that succeeds changes bits
  of its own only, exactly when it is confined. **`stray_bit_written`**: not all are.
-/

namespace RustyTune.TuneModel

open TsIni Exec Update

variable {F : Type}

/-! ## The edits -/

/-- A method of the tune that changes it. -/
abbrev TuneUpdate (F α : Type) : Type := Update (Tune F) TuneError α

section Edits

variable [F64 F] (m : Machine)

/-- `self.pages[pageIdx]`, and a raw value written into its local data. -/
def writing (pageIdx offset : ℕ) (ty : DataType) (raw : ℤ) : TuneUpdate F Unit := do
  let _ ← reading fun t => (t.pageAt pageIdx : Exec PageState)
  modify fun t => t.writePage pageIdx offset ty raw

def setConstantInPlace (name : String) (user : F) (clamp : Bool) : TuneUpdate F Unit := do
  let c ← reading fun t => orError (.unknownConstant name) (t.constant name)
  let (pageIdx, offset) ← reading fun _ =>
    orError (.notEditable name "not a page constant") (Tune.location c)
  match c.cls, c.shape with
  | .scalar, _ =>
    let raw ← reading fun t => t.encodeImpl m c user clamp
    writing pageIdx offset c.ty raw
  | .bits, some (.bits lo hi) =>
    let page ← reading fun t => (t.pageAt pageIdx : Exec PageState)
    let current ← reading fun _ =>
      orError (.notEditable name "out of page") (readRaw page.data offset c.ty)
    let index := (F64.toU64 (F64.max (F64.round user) 0)).toBitVec
    let raw ← reading fun _ => (fieldSet m lo hi (BitVec.ofInt 64 current) index : Exec (BitVec 64))
    modify fun t => t.writePage pageIdx offset c.ty raw.toInt
  | .bits, _ => throw (.notEditable name "malformed bits shape")
  | _, _ => throw (.notEditable name "use set_array_element for arrays")

def setArrayElementInPlace (name : String) (index : ℕ) (user : F) (clamp : Bool) :
    TuneUpdate F Unit := do
  let c ← reading fun t => orError (.unknownConstant name) (t.constant name)
  if c.cls ≠ .array then
    throw (.notEditable name "not an array")
  if c.elementCount ≤ index then
    throw (.indexRange name index c.elementCount)
  let (pageIdx, offset) ← reading fun _ =>
    orError (.notEditable name "not a page constant") (Tune.location c)
  let raw ← reading fun t => t.encodeImpl m c user clamp
  writing pageIdx (offset + index * c.ty.size) c.ty raw

def setTableAxisInPlace (id axis : String) (index : ℕ) (value : F) : TuneUpdate F Unit := do
  let table ← reading fun t => orError (.unknownTable id) (t.tableDef id)
  if axis = "x" then setArrayElementInPlace m table.xBins.1 index value true
  else if axis = "y" then setArrayElementInPlace m table.yBins.1 index value true
  else throw (.notEditable axis "axis must be x or y")

def setTableCellInPlace (id : String) (row col : ℕ) (value : F) : TuneUpdate F Unit := do
  let table ← reading fun t => orError (.unknownTable id) (t.tableDef id)
  let (nx, ny) ← reading fun t => orError (.unknownTable id) (t.tableDims table)
  if ny ≤ row ∨ nx ≤ col then
    let index ← reading fun _ => ((do m.usize ((← m.usize (row * nx)) + col) : Exec ℕ) : Attempt ℕ)
    throw (.indexRange table.zBins index (nx * ny))
  setArrayElementInPlace m table.zBins (row * nx + col) value true

def setPcValueInPlace (name : String) (user : F) : TuneUpdate F Unit := do
  let c ← reading fun t => orError (.unknownConstant name) (t.df.pcVariables.get? name)
  let user ← reading fun t => (t.clampUser m c user : Exec F)
  modify fun t => { t with pcValues := t.pcValues.insert name user }

omit [F64 F] in
theorem writing_carries (pageIdx offset : ℕ) (ty : DataType) (raw : ℤ) :
    Carries (writing (F := F) pageIdx offset ty raw) fun t => do
      let _ ← (t.pageAt pageIdx : Exec PageState)
      return t.writePage pageIdx offset ty raw :=
  carries_bind fun _ => carries_modify _

theorem setConstantInPlace_carries (name : String) (user : F) (clamp : Bool) :
    Carries (setConstantInPlace m name user clamp) fun t => t.setConstantImpl m name user clamp := by
  refine carries_bind fun c => carries_bind fun ⟨pageIdx, offset⟩ => ?_
  dsimp only
  cases c.cls with
  | scalar => exact carries_bind fun raw => writing_carries _ _ _ _
  | bits =>
    cases c.shape with
    | none => exact carries_throw _
    | some shape =>
      cases shape with
      | bits lo hi =>
        exact carries_bind fun page => carries_bind fun current => carries_bind fun raw =>
          carries_modify _
      | array1D n => exact carries_throw _
      | array2D x y => exact carries_throw _
  | array => exact carries_throw _
  | string => exact carries_throw _

theorem setArrayElementInPlace_carries (name : String) (index : ℕ) (user : F) (clamp : Bool) :
    Carries (setArrayElementInPlace m name index user clamp) fun t =>
      t.setArrayElementImpl m name index user clamp := by
  refine carries_bind fun c => ?_
  by_cases hcls : c.cls ≠ .array
  · simp only [if_pos hcls]
    exact carries_throw _
  · by_cases hlen : c.elementCount ≤ index
    · simp only [if_neg hcls, if_pos hlen]
      exact carries_throw _
    · simp only [if_neg hcls, if_neg hlen]
      exact carries_bind fun ⟨pageIdx, offset⟩ => carries_bind fun raw => writing_carries _ _ _ _

theorem setTableAxisInPlace_carries (id axis : String) (index : ℕ) (value : F) :
    Carries (setTableAxisInPlace m id axis index value) fun t =>
      t.setTableAxis m id axis index value :=
  carries_bind fun _ => carries_ite (fun _ => setArrayElementInPlace_carries m _ _ _ _) fun _ =>
    carries_ite (fun _ => setArrayElementInPlace_carries m _ _ _ _) fun _ => carries_throw _

theorem setTableCellInPlace_carries (id : String) (row col : ℕ) (value : F) :
    Carries (setTableCellInPlace m id row col value) fun t => t.setTableCell m id row col value := by
  refine carries_bind fun table => carries_bind fun ⟨nx, ny⟩ => ?_
  dsimp only
  by_cases hout : ny ≤ row ∨ nx ≤ col
  · simp only [if_pos hout]
    exact carries_bind fun index => carries_throw _
  · simp only [if_neg hout]
    exact setArrayElementInPlace_carries m _ _ _ _

theorem setPcValueInPlace_carries (name : String) (user : F) :
    Carries (setPcValueInPlace m name user) fun t => t.setPcValue m name user :=
  carries_bind fun _ => carries_bind fun _ => carries_modify _

end Edits

/-! ## The operations -/

/-- The edits that the server makes. -/
inductive Operation (F : Type)
  | setConstant (name : String) (user : F)
  | setArrayElement (name : String) (index : ℕ) (user : F)
  | setTableCell (id : String) (row col : ℕ) (value : F)
  | setTableAxis (id axis : String) (index : ℕ) (value : F)
  | setPcValue (name : String) (user : F)

namespace Operation

section Edits

variable [F64 F] (m : Machine)

/-- The edit, made on the tune. -/
def inPlace : Operation F → TuneUpdate F Unit
  | setConstant name user => setConstantInPlace m name user true
  | setArrayElement name index user => setArrayElementInPlace m name index user true
  | setTableCell id row col value => setTableCellInPlace m id row col value
  | setTableAxis id axis index value => setTableAxisInPlace m id axis index value
  | setPcValue name user => setPcValueInPlace m name user

/-- The tune that the edit makes of another. -/
def edited (t : Tune F) : Operation F → Attempt (Tune F)
  | setConstant name user => t.setConstant m name user
  | setArrayElement name index user => t.setArrayElement m name index user
  | setTableCell id row col value => t.setTableCell m id row col value
  | setTableAxis id axis index value => t.setTableAxis m id axis index value
  | setPcValue name user => t.setPcValue m name user

/-- **An edit in place ends in the tune that it makes, or leaves the tune.** -/
theorem carries (op : Operation F) : Carries (op.inPlace m) fun t => op.edited m t := by
  cases op with
  | setConstant name user => exact setConstantInPlace_carries m name user true
  | setArrayElement name index user => exact setArrayElementInPlace_carries m name index user true
  | setTableCell id row col value => exact setTableCellInPlace_carries m id row col value
  | setTableAxis id axis index value => exact setTableAxisInPlace_carries m id axis index value
  | setPcValue name user => exact setPcValueInPlace_carries m name user

end Edits

/-! ## The bits of an edit -/

/-- The bits of the value at that offset of the page. -/
def ValueBit (c : ConstantDef F) (offset i : ℕ) : Prop :=
  8 * offset ≤ i ∧ i < 8 * (offset + c.ty.size)

/-- The bits `lo` to `hi` of the word. -/
def FieldBit (c : ConstantDef F) (lo hi : UInt8) (offset i : ℕ) : Prop :=
  ValueBit c offset i ∧ 8 * offset + lo.toNat ≤ i ∧ i ≤ 8 * offset + hi.toNat

/-- The bits of an element of an array. -/
def ElementBit (t : Tune F) (name : String) (index j i : ℕ) : Prop :=
  ∃ c offset, t.constant name = some c ∧ c.cls = .array ∧ index < c.elementCount ∧
    Tune.location c = some (j, offset) ∧ ValueBit c (offset + index * c.ty.size) i

/-- The bits of a page that the edit addresses: of the scalar, of the element, or of the field. -/
def OwnBit (t : Tune F) (j i : ℕ) : Operation F → Prop
  | setConstant name _ => ∃ c offset, t.constant name = some c ∧ Tune.location c = some (j, offset) ∧
      ((c.cls = .scalar ∧ ValueBit c offset i) ∨
        c.cls = .bits ∧ ∃ lo hi, c.shape = some (.bits lo hi) ∧ FieldBit c lo hi offset i)
  | setArrayElement name index _ => ElementBit t name index j i
  | setTableCell id row col _ => ∃ table nx ny, t.tableDef id = some table ∧
      t.tableDims table = some (nx, ny) ∧ row < ny ∧ col < nx ∧
      ElementBit t table.zBins (row * nx + col) j i
  | setTableAxis id axis index _ => ∃ table, t.tableDef id = some table ∧
      ((axis = "x" ∧ ElementBit t table.xBins.1 index j i) ∨
        axis = "y" ∧ ElementBit t table.yBins.1 index j i)
  | setPcValue _ _ => False

/-- The bits of a word that a release build writes for the field, besides those of the field: shifts go
by the amount modulo 64. -/
def Stray (lo hi : UInt8) (k : ℕ) : Prop :=
  lo.toNat % 64 ≤ k ∧ k < lo.toNat % 64 + (hi.toNat + 257 - lo.toNat) % 64 ∧
    ¬ (lo.toNat ≤ k ∧ k ≤ hi.toNat)

/-- There are no such bits in a field of the right order that starts within 64 bits. -/
theorem not_stray {lo hi : UInt8} (hle : lo.toNat ≤ hi.toNat) (hlo : lo.toNat < 64) (k : ℕ) :
    ¬ Stray lo hi k := by
  rintro ⟨h1, h2, hno⟩
  omega

/-- No bit outside the field is written with something else than it is. -/
def Confined [F64 F] (m : Machine) (t : Tune F) : Operation F → Prop
  | setConstant name user => m.build = .release → ∀ c lo hi pageIdx offset p,
      t.constant name = some c → c.cls = .bits → c.shape = some (.bits lo hi) →
      Tune.location c = some (pageIdx, offset) → t.page pageIdx = some p →
      offset + c.ty.size ≤ p.data.length → ∀ k < 8 * c.ty.size, Stray lo hi k →
      t.bit pageIdx (8 * offset + k) =
        (F64.toU64 (F64.max (F64.round user) 0)).toBitVec.getLsbD (k - lo.toNat % 64)
  | _ => True

section Mask

variable {m : Machine} {lo hi : UInt8} {mask : BitVec 64}

/-- The bits of the mask that a build computes for the field. -/
theorem mask_bit_iff (h : fieldMask m lo hi = .ok mask) {k : ℕ} (hk : k < 64) :
    mask.getLsbD k = true ↔
      lo.toNat % 64 ≤ k ∧ k < lo.toNat % 64 + (hi.toNat + 257 - lo.toNat) % 64 := by
  obtain ⟨ones, hones, -⟩ := fieldMask_ok h
  obtain ⟨width, hwidth, hw⟩ := onesU64_ok hones
  have hlt : width.toNat % 64 = (hi.toNat + 257 - lo.toNat) % 64 := by
    simp only [fieldWidth, Machine.addU8, Machine.subU8, bind_eq_ok] at hwidth
    obtain ⟨d, hd, hwidth⟩ := hwidth
    have hlo := lo.toNat_lt
    rw [m.checked_debug hwidth, m.checked_debug hd, UInt8.toNat_add, UInt8.toNat_sub]
    change ((2 ^ 8 - lo.toNat + hi.toNat) % 2 ^ 8 + 1) % 2 ^ 8 % 64 = _
    omega
  rw [getLsbD_fieldMask h hones, hw, getLsbD_ones (Nat.mod_lt _ (by decide)), hlt, decide_eq_true_iff]
  omega

/-- A debug build computes the mask of a field of the right order only. -/
theorem range_of_debug (hm : m.build = .debug) (h : fieldMask m lo hi = .ok mask) :
    lo.toNat ≤ hi.toNat ∧ lo.toNat < 64 := by
  obtain ⟨ones, hones, -⟩ := fieldMask_ok h
  obtain ⟨width, hwidth, -⟩ := onesU64_ok hones
  simp only [fieldWidth, Machine.subU8, bind_eq_ok] at hwidth
  obtain ⟨d, hd, -⟩ := hwidth
  rw [fieldMask, hones, ok_bind] at h
  constructor
  · by_contra hlt
    rw [decide_eq_false hlt, Machine.checked, if_pos ⟨hm, rfl⟩] at hd
    cases hd
  · by_contra hlt
    rw [Machine.shlU64, decide_eq_false hlt, Machine.checked, if_pos ⟨hm, rfl⟩] at h
    cases h

end Mask

variable [F64 F] {m : Machine} {t t' : Tune F}

/-- **An element is written over its own bits only.** -/
theorem bit_setArrayElement {name : String} {index : ℕ} {user : F}
    (h : (t.setArrayElement m name index user).run = .ok (.ok t')) {j i : ℕ}
    (hno : ¬ ElementBit t name index j i) : t'.bit j i = t.bit j i := by
  rw [Tune.setArrayElement, Tune.setArrayElementImpl, attempt_bind_eq_ok] at h
  obtain ⟨c, hc, h⟩ := h
  rw [Tune.orError_eq_ok] at hc
  by_cases hcls : c.cls = .array
  · by_cases hlen : c.elementCount ≤ index
    · simp [hcls, hlen] at h
    · simp only [hcls, ne_eq, not_true_eq_false, if_false, hlen, attempt_bind_eq_ok,
        Tune.orError_eq_ok, Tune.lift_eq_ok, Tune.pageAt_eq_ok, Tune.pure_eq_ok_ok] at h
      obtain ⟨⟨pageIdx, offset⟩, hloc, raw, -, p, -, rfl⟩ := h
      rw [← Tune.store_singleton]
      refine Tune.bit_store ?_
      rintro ⟨rfl, h1, h2⟩
      refine hno ⟨c, offset, hc, hcls, Nat.not_le.mp hlen, hloc, h1, ?_⟩
      simpa using h2
  · simp [hcls] at h

/-- A scalar is written over its own bits, and a field over the bits of the mask. -/
theorem setConstant_cases {name : String} {user : F}
    (h : (t.setConstant m name user).run = .ok (.ok t')) :
    (∀ j i, ¬ OwnBit t j i (.setConstant name user) → t'.bit j i = t.bit j i) ∨
    ∃ c lo hi pageIdx offset p mask, t.constant name = some c ∧ c.cls = .bits ∧
      c.shape = some (.bits lo hi) ∧ Tune.location c = some (pageIdx, offset) ∧
      t.page pageIdx = some p ∧ offset + c.ty.size ≤ p.data.length ∧
      fieldMask m lo hi = .ok mask ∧ ∀ j i, t'.bit j i =
        if pageIdx = j ∧ 8 * offset ≤ i ∧ i < 8 * (offset + c.ty.size) ∧
            mask.getLsbD (i - 8 * offset) = true then
          (F64.toU64 (F64.max (F64.round user) 0)).toBitVec.getLsbD (i - 8 * offset - lo.toNat % 64)
        else t.bit j i := by
  have hset := h
  rw [Tune.setConstant, Tune.setConstantImpl, attempt_bind_eq_ok] at h
  obtain ⟨c, hc, h⟩ := h
  rw [Tune.orError_eq_ok] at hc
  cases hcls : c.cls with
  | scalar =>
    left
    simp only [hcls, attempt_bind_eq_ok, Tune.orError_eq_ok, Tune.lift_eq_ok, Tune.pageAt_eq_ok,
      Tune.pure_eq_ok_ok] at h
    obtain ⟨⟨pageIdx, offset⟩, hloc, raw, -, p, -, rfl⟩ := h
    intro j i hno
    rw [← Tune.store_singleton]
    refine Tune.bit_store ?_
    rintro ⟨rfl, h1, h2⟩
    exact hno ⟨c, offset, hc, hloc, .inl ⟨hcls, h1, by simpa using h2⟩⟩
  | bits =>
    right
    rw [Tune.setConstant, Tune.setBits_clamp hc hcls, Tune.setBits_ok hc hcls] at hset
    obtain ⟨lo, hi, pageIdx, offset, p, cur, w, hshape, hloc, hp, hcur, hw, rfl⟩ := hset
    obtain ⟨mask, hm, -⟩ := fieldSet_ok hw
    exact ⟨c, lo, hi, pageIdx, offset, p, mask, hc, hcls, hshape, hloc, hp,
      (readRaw_eq_some.mp hcur).1, hm, fun j i => Tune.bit_fieldSet hp hcur hw hm j i⟩
  | array | string =>
    simp only [hcls, attempt_bind_eq_ok] at h
    obtain ⟨place, -, h⟩ := h
    exact absurd h Tune.throw_ne_ok

/-- **The bits outside of a confined edit stay.** -/
theorem bit_edited {op : Operation F} (hop : op.Confined m t)
    (h : (op.edited m t).run = .ok (.ok t')) {j i : ℕ} (hno : ¬ op.OwnBit t j i) :
    t'.bit j i = t.bit j i := by
  cases op with
  | setConstant name user =>
    rcases setConstant_cases h with hkeep |
      ⟨c, lo, hi, pageIdx, offset, p, mask, hc, hcls, hshape, hloc, hp, hin, hm, hbit⟩
    · exact hkeep j i hno
    · rw [hbit]
      split_ifs with hown
      · obtain ⟨rfl, h1, h2, hmask⟩ := hown
        have hsize := size_bits_le c.ty
        have hk : i - 8 * offset < 8 * c.ty.size := by omega
        rw [mask_bit_iff hm (by omega)] at hmask
        -- the bit is in the mask and not in the field
        have hstray : Stray lo hi (i - 8 * offset) := ⟨hmask.1, hmask.2, fun hfield =>
          hno ⟨c, offset, hc, hloc, .inr ⟨hcls, lo, hi, hshape, ⟨h1, h2⟩, by omega, by omega⟩⟩⟩
        have hrelease : m.build = .release := by
          by_contra hdebug
          have hrange := range_of_debug (by cases hb : m.build <;> simp_all) hm
          exact not_stray hrange.1 hrange.2 _ hstray
        rw [← hop hrelease c lo hi pageIdx offset p hc hcls hshape hloc hp hin _ hk hstray,
          Nat.add_sub_cancel' h1]
      · rfl
  | setArrayElement name index user => exact bit_setArrayElement h hno
  | setTableCell id row col value =>
    rw [edited, Tune.setTableCell, attempt_bind_eq_ok] at h
    obtain ⟨table, htable, h⟩ := h
    rw [attempt_bind_eq_ok] at h
    obtain ⟨⟨nx, ny⟩, hdims, h⟩ := h
    rw [Tune.orError_eq_ok] at htable hdims
    by_cases hout : ny ≤ row ∨ nx ≤ col
    · simp only [if_pos hout, attempt_bind_eq_ok] at h
      obtain ⟨index, -, _, h, -⟩ := h
      exact absurd h Tune.throw_ne_ok
    · simp only [if_neg hout] at h
      rw [not_or, Nat.not_le, Nat.not_le] at hout
      exact bit_setArrayElement h fun helem =>
        hno ⟨table, nx, ny, htable, hdims, hout.1, hout.2, helem⟩
  | setTableAxis id axis index value =>
    rw [edited, Tune.setTableAxis, attempt_bind_eq_ok] at h
    obtain ⟨table, htable, h⟩ := h
    rw [Tune.orError_eq_ok] at htable
    by_cases hx : axis = "x"
    · rw [if_pos hx] at h
      exact bit_setArrayElement h fun helem => hno ⟨table, htable, .inl ⟨hx, helem⟩⟩
    · by_cases hy : axis = "y"
      · rw [if_neg hx, if_pos hy] at h
        exact bit_setArrayElement h fun helem => hno ⟨table, htable, .inr ⟨hy, helem⟩⟩
      · rw [if_neg hx, if_neg hy] at h
        exact nomatch Except.ok.inj h
  | setPcValue name user =>
    simp only [edited, Tune.setPcValue, attempt_bind_eq_ok, Tune.pure_eq_ok_ok] at h
    obtain ⟨c, -, v, -, rfl⟩ := h
    rfl

theorem edited_rewrites (op : Operation F) : Yields (op.edited m t) (Rewrites t) := by
  cases op with
  | setConstant name user =>
    exact fun t' h => (setConstantImpl_sameFrame m t name user true t' h).toRewrites
  | setArrayElement name index user =>
    exact fun t' h => (setArrayElementImpl_sameFrame m t name index user true t' h).toRewrites
  | setTableCell id row col value =>
    exact fun t' h => (setTableCell_sameFrame m t id row col value t' h).toRewrites
  | setTableAxis id axis index value =>
    exact fun t' h => (setTableAxis_sameFrame m t id axis index value t' h).toRewrites
  | setPcValue name user => exact setPcValue_rewrites m t name user

/-- A release build writes every field that is on its page. -/
theorem setConstant_release (hm : m.build = .release) {name : String} {user : F} {c : ConstantDef F}
    {lo hi : UInt8} {pageIdx offset : ℕ} {p : PageState} (hc : t.constant name = some c)
    (hcls : c.cls = .bits) (hshape : c.shape = some (.bits lo hi))
    (hloc : Tune.location c = some (pageIdx, offset)) (hp : t.page pageIdx = some p)
    (hin : offset + c.ty.size ≤ p.data.length) :
    ∃ t', (t.setConstant m name user).run = .ok (.ok t') := by
  have hset : ∃ w, fieldSet m lo hi (BitVec.ofInt 64 (decodeRaw c.ty (slice p.data offset c.ty.size)))
      (F64.toU64 (F64.max (F64.round user) 0)).toBitVec = .ok w := by
    simp only [fieldSet, fieldMask, onesU64, fieldWidth, Machine.addU8, Machine.subU8, Machine.shlU64,
      Machine.predU64, m.checked_release hm, ok_bind]
    exact ⟨_, rfl⟩
  obtain ⟨w, hset⟩ := hset
  refine ⟨t.writePage pageIdx offset c.ty w.toInt, ?_⟩
  rw [Tune.setConstant, Tune.setBits_clamp hc hcls, Tune.setBits_ok hc hcls]
  exact ⟨lo, hi, pageIdx, offset, p, _, w, hshape, hloc, hp, readRaw_of_le hin, hset, rfl⟩

/-- **An edit touches its own bits only, exactly when it is confined.** One that ends in an error leaves
the tune as it was. -/
theorem edit_frame_iff (m : Machine) (t : Tune F) (op : Operation F) :
    (∀ r t', (op.inPlace m).outcome t = .ok (r, t') →
      (∀ e, r = .error e → t' = t) ∧
      (r = .ok () → Rewrites t t' ∧ ∀ j i, ¬ op.OwnBit t j i → t'.bit j i = t.bit j i)) ↔
    op.Confined m t := by
  constructor
  · intro h
    cases op with
    | setConstant name user =>
      intro hm c lo hi pageIdx offset p hc hcls hshape hloc hp hin k hk hstray
      obtain ⟨t', ht'⟩ : ∃ t', (t.setConstant m name user).run = .ok (.ok t') :=
        setConstant_release hm hc hcls hshape hloc hp hin
      have hout := (carries m (.setConstant name user)).outcome_eq_ok.mpr
        (.inl ⟨ht', (rfl : Except.ok () = (.ok () : Except TuneError Unit))⟩)
      have hkeep := ((h _ t' hout).2 rfl).2 pageIdx (8 * offset + k) (by
        rintro ⟨c', offset', hc', hloc', hown⟩
        obtain rfl := Option.some.inj (hc.symm.trans hc')
        obtain ⟨-, rfl⟩ := Prod.mk.inj (Option.some.inj (hloc.symm.trans hloc'))
        rcases hown with ⟨hscalar, -⟩ | ⟨-, lo', hi', hshape', -, h1, h2⟩
        · cases hcls.symm.trans hscalar
        · obtain ⟨rfl, rfl⟩ := Shape.bits.inj (Option.some.inj (hshape.symm.trans hshape'))
          exact hstray.2.2 ⟨by omega, by omega⟩)
      have hsize := size_bits_le c.ty
      rw [Tune.setConstant, Tune.setBits_clamp hc hcls, Tune.setBits_ok hc hcls] at ht'
      obtain ⟨lo', hi', i', o', p', cur, w, hshape', hloc', hp', hcur, hw, rfl⟩ := ht'
      obtain ⟨rfl, rfl⟩ := Shape.bits.inj (Option.some.inj (hshape.symm.trans hshape'))
      obtain ⟨rfl, rfl⟩ := Prod.mk.inj (Option.some.inj (hloc.symm.trans hloc'))
      obtain ⟨mask, hmask, -⟩ := fieldSet_ok hw
      have hbit : mask.getLsbD (8 * offset + k - 8 * offset) = true := by
        rw [Nat.add_sub_cancel_left, mask_bit_iff hmask (by omega)]
        exact ⟨hstray.1, hstray.2.1⟩
      rw [← hkeep, Tune.bit_fieldSet hp' hcur hw hmask, if_pos ⟨rfl, by omega, by omega, hbit⟩,
        Nat.add_sub_cancel_left]
    | setArrayElement name index user => trivial
    | setTableCell id row col value => trivial
    | setTableAxis id axis index value => trivial
    | setPcValue name user => trivial
  · intro hop r t' hout
    rcases (carries m op).outcome_eq_ok.mp hout with ⟨hrun, rfl⟩ | ⟨e, -, rfl, rfl⟩
    · refine ⟨?_, fun _ => ⟨edited_rewrites op t' hrun, fun j i hno => bit_edited hop hrun hno⟩⟩
      intro e he
      cases he
    · exact ⟨fun _ _ => rfl, fun h => by cases h⟩

end Operation

/-- A choice whose bits are given the wrong way round. -/
def backwards : Tune XRat :=
  Tune.new { header := { pageSizes := [1] },
             constants := IndexMap.ofList [("fanMode", { fanMode with shape := some (.bits 5 0) })] }

/-- **An edit may write bits that are not its own.** A release build writes the bits 5 to 7 of the word
for the field from bit 5 to bit 0. -/
theorem stray_bit_written : ¬ ∀ (m : Machine) (t t' : Tune XRat) (op : Operation XRat)
    (r : Except TuneError Unit), (op.inPlace m).outcome t = .ok (r, t') →
    (∀ e, r = .error e → t' = t) ∧
    (r = .ok () → Rewrites t t' ∧ ∀ j i, ¬ op.OwnBit t j i → t'.bit j i = t.bit j i) := by
  intro h
  have hset : (backwards.setConstant ⟨.release, 8⟩ "fanMode" (.fin 1)).run =
      .ok (.ok (backwards.writePage 0 0 .u08 (32 : BitVec 64).toInt)) := by
    rw [Tune.setConstant, Tune.setBits_clamp (c := { fanMode with shape := some (.bits 5 0) }) rfl rfl,
      Tune.setBits_ok (c := { fanMode with shape := some (.bits 5 0) }) rfl rfl]
    exact ⟨5, 0, 0, 0, ⟨[0], [0], [0]⟩, 0, 32, rfl, rfl, rfl, by decide, by decide +kernel, rfl⟩
  have hout : ((Operation.setConstant "fanMode" (.fin 1)).inPlace ⟨.release, 8⟩).outcome backwards =
      .ok (.ok (), backwards.writePage 0 0 .u08 (32 : BitVec 64).toInt) :=
    (Operation.carries _ _).outcome_eq_ok.mpr (.inl ⟨hset, rfl⟩)
  have hkeep := ((h _ _ _ _ _ hout).2 rfl).2 0 5 (by
    rintro ⟨c, offset, hc, hloc, hown⟩
    obtain rfl : _ = c := Option.some.inj hc
    rcases hown with ⟨hscalar, -⟩ | ⟨-, lo, hi, hshape, -, h1, h2⟩
    · cases hscalar
    · obtain ⟨rfl, rfl⟩ := Shape.bits.inj (Option.some.inj hshape)
      obtain ⟨-, rfl⟩ := Prod.mk.inj (Option.some.inj hloc)
      exact absurd h2 (by decide))
  exact absurd hkeep (by decide)

end RustyTune.TuneModel
