import RustyTune.TuneModel.Coding

/-!
# Values on a page

Scalar constants and the elements of arrays are read and written alike: a raw value of the constant's
type, at an offset of its page.

* `Cell`, with `Tune.setCell` and `Tune.cellValue`; `Tune.Stands`: the page of a cell and its offset.
* **`setCell_eq`**, **`cellValue_eq`**: both ways of writing, and both of reading, are the same.
* `Tune.Coded`: scale and translate of a constant are these.
-/

namespace RustyTune.TuneModel

open TsIni Exec

/-- A scalar constant or an element of an array. -/
inductive Cell
  | scalar (name : String)
  | element (name : String) (index : ℕ)
  deriving DecidableEq, Repr

namespace Cell

variable {F : Type}

def name : Cell → String
  | scalar name => name
  | element name _ => name

/-- How many values of the constant come before. -/
def index : Cell → ℕ
  | scalar _ => 0
  | element _ index => index

/-- The cell is one of the constant. -/
def IsOf (c : ConstantDef F) : Cell → Prop
  | scalar _ => c.cls = .scalar
  | element _ index => c.cls = .array ∧ index < c.elementCount

end Cell

namespace Tune

variable {F : Type}

/-- The cell is one of the constant, at an offset of the page. -/
structure Stands (t : Tune F) (cell : Cell) (c : ConstantDef F) (pageIdx offset : ℕ) : Prop where
  constant : t.constant cell.name = some c
  isOf : cell.IsOf c
  place : ∃ base, location c = some (pageIdx, base) ∧ offset = base + cell.index * c.ty.size

variable [F64 F]

/-- Write a scalar constant or an element of an array. -/
def setCell (m : Machine) (t : Tune F) (cell : Cell) (user : F) (clamp : Bool) : Attempt (Tune F) :=
  match cell with
  | .scalar name => t.setConstantImpl m name user clamp
  | .element name index => t.setArrayElementImpl m name index user clamp

/-- Read a scalar constant or an element of an array. -/
def cellValue (m : Machine) (t : Tune F) : Cell → Exec (Option F)
  | .scalar name => do return (← t.constantValue m name).bind Value.asNum
  | .element name index => t.arrayElement m name index

variable {m : Machine} {t t' : Tune F} {cell : Cell} {c : ConstantDef F} {pageIdx offset : ℕ}

omit [F64 F] in
theorem Stands.writePage (h : t.Stands cell c pageIdx offset) (i o : ℕ) (ty : DataType) (raw : ℤ) :
    (t.writePage i o ty raw).Stands cell c pageIdx offset := ⟨h.constant, h.isOf, h.place⟩

/-- **A write encodes the value and puts it on the page.** -/
theorem setCell_eq (h : t.Stands cell c pageIdx offset) (user : F) (clamp : Bool) :
    t.setCell m cell user clamp = (do
      let raw ← t.encodeImpl m c user clamp
      let _ ← (t.pageAt pageIdx : Exec PageState)
      return t.writePage pageIdx offset c.ty raw) := by
  obtain ⟨hc, hof, base, hloc, rfl⟩ := h
  cases cell with
  | scalar name =>
    change t.constant name = some c at hc
    change c.cls = .scalar at hof
    simp only [setCell, setConstantImpl, hc, orError, hloc, pure_bind, hof, Cell.index, Nat.zero_mul,
      Nat.add_zero]
  | element name index =>
    change t.constant name = some c at hc
    obtain ⟨hcls, hi⟩ := hof
    simp only [setCell, setArrayElementImpl, hc, orError, hloc, pure_bind, hcls, Cell.index, ne_eq,
      not_true_eq_false, if_false, Nat.not_le.mpr hi]

/-- **A read takes the raw value from the page and scales it.** -/
theorem cellValue_eq (h : t.Stands cell c pageIdx offset) {p : PageState}
    (hp : t.page pageIdx = some p) :
    t.cellValue m cell = match readRaw p.data offset c.ty with
      | none => return none
      | some raw => scaled m (t.symbols m) c raw := by
  obtain ⟨hc, hof, base, hloc, rfl⟩ := h
  have hl : t.located c = some (p, base) := located_eq_some.mpr ⟨pageIdx, hloc, hp⟩
  cases cell with
  | scalar name =>
    change t.constant name = some c at hc
    change c.cls = .scalar at hof
    simp only [cellValue, constantValue, constantValueWith, hc, hl, hof, Cell.index, Nat.zero_mul,
      Nat.add_zero]
    cases readRaw p.data base c.ty with
    | none => rfl
    | some raw =>
      dsimp only
      cases scaled m (t.symbols m) c raw with
      | error e => rfl
      | ok v => cases v <;> rfl
  | element name index =>
    change t.constant name = some c at hc
    obtain ⟨hcls, hi⟩ := hof
    cases hraw : readRaw p.data (base + index * c.ty.size) c.ty <;>
      simp only [cellValue, arrayElement, arrayElementWith, hc, hl, hcls, Cell.index, ne_eq,
        not_true_eq_false, if_false, Nat.not_le.mpr hi, hraw]

theorem setCell_ok (h : t.Stands cell c pageIdx offset) {user : F} {clamp : Bool} :
    (t.setCell m cell user clamp).run = .ok (.ok t') ↔ ∃ raw p,
      (t.encodeImpl m c user clamp).run = .ok (.ok raw) ∧ t.page pageIdx = some p ∧
        t' = t.writePage pageIdx offset c.ty raw := by
  simp only [setCell_eq h, attempt_bind_eq_ok, lift_eq_ok, pageAt_eq_ok, pure_eq_ok_ok]
  constructor
  · rintro ⟨raw, hraw, p, hp, rfl⟩
    exact ⟨raw, p, hraw, hp, rfl⟩
  · rintro ⟨raw, p, hraw, hp, rfl⟩
    exact ⟨raw, hraw, p, hp, rfl⟩

theorem setCell_error (h : t.Stands cell c pageIdx offset) {user : F} {clamp : Bool} {e : TuneError} :
    (t.setCell m cell user clamp).run = .ok (.error e) ↔ (t.coding m c).run = .ok (.error e) := by
  simp only [setCell_eq h, attempt_bind_eq_error, lift_ne_error, pure_ne_error, and_false, exists_false,
    or_false]
  exact encode_error

/-! ## Scale and translate -/

/-- Scale and translate of the constant are these. -/
structure Coded (m : Machine) (t : Tune F) (c : ConstantDef F) (scale translate : F) : Prop where
  scale : (c.scale.eval m (t.symbols m)).run = .ok (.ok scale)
  translate : (c.translate.eval m (t.symbols m)).run = .ok (.ok translate)

variable {scale translate : F}

theorem coded_of_num (m : Machine) (t : Tune F) (hs : c.scale = .num scale)
    (ht : c.translate = .num translate) : t.Coded m c scale translate :=
  ⟨by rw [hs]; rfl, by rw [ht]; rfl⟩

theorem Coded.unique {scale' translate' : F} (h : t.Coded m c scale translate)
    (h' : t.Coded m c scale' translate') : scale' = scale ∧ translate' = translate :=
  ⟨Except.ok.inj (Except.ok.inj (h'.scale.symm.trans h.scale)),
    Except.ok.inj (Except.ok.inj (h'.translate.symm.trans h.translate))⟩

theorem evalField_of_eval {field : NumOrExpr F} {x : F} (what : String)
    (h : (field.eval m (t.symbols m)).run = .ok (.ok x)) :
    t.evalField m field what = pure x := by
  rw [evalField, h]
  rfl

theorem evalOk_of_run {α : Type} {x : Eval α} {a : α} (h : x.run = .ok (.ok a)) :
    evalOk x = .ok (some a) := by
  rw [evalOk, h]
  rfl

theorem Coded.coding (h : t.Coded m c scale translate) (hzero : F64.eq scale 0 = false) :
    t.coding m c = pure (scale, translate) := by
  rw [Tune.coding, evalField_of_eval _ h.scale, pure_bind, evalField_of_eval _ h.translate, pure_bind,
    if_neg (by simp [hzero])]

theorem Coded.coding_zero (h : t.Coded m c scale translate) (hzero : F64.eq scale 0 = true) :
    t.coding m c = throw (.eval c.name "scale is zero") := by
  rw [Tune.coding, evalField_of_eval _ h.scale, pure_bind, evalField_of_eval _ h.translate, pure_bind,
    if_pos hzero]
  rfl

theorem Coded.scaled (h : t.Coded m c scale translate) (raw : ℤ) :
    Tune.scaled m (t.symbols m) c raw =
      .ok (some (F64.mul (F64.add (F64.ofInt raw) translate) scale)) := by
  rw [Tune.scaled, evalOk_of_run h.scale, ok_bind]
  dsimp only
  rw [evalOk_of_run h.translate]
  rfl

end Tune

end RustyTune.TuneModel
