import RustyTune.TuneModel.Access

/-!
# What an access does

* `Tune.coding`: scale and translate of a constant; `quantise`: the raw value they give a value in
  user units. **`encodeImpl_unclamped`**: encoding is one after the other.
* **`setScalar_ok`**, **`setBits_ok`**, **`setElement_ok`**: when a write succeeds, and the tune it
  leaves.
-/

namespace RustyTune.TuneModel

open TsIni Exec

variable {F : Type}

namespace Tune

/-! ## The tune after a write -/

section Write

variable {t : Tune F} {pageIdx offset : ℕ} {ty : DataType} {raw : ℤ}

@[simp] theorem df_writePage : (t.writePage pageIdx offset ty raw).df = t.df := rfl

@[simp] theorem loaded_writePage : (t.writePage pageIdx offset ty raw).loaded = t.loaded := rfl

@[simp] theorem pcValues_writePage : (t.writePage pageIdx offset ty raw).pcValues = t.pcValues := rfl

@[simp] theorem pageCount_writePage : (t.writePage pageIdx offset ty raw).pageCount = t.pageCount := by
  simp [writePage, pageCount]

@[simp] theorem constant_writePage (name : String) :
    (t.writePage pageIdx offset ty raw).constant name = t.constant name := rfl

theorem page_writePage (j : ℕ) : (t.writePage pageIdx offset ty raw).page j =
    if pageIdx = j then
      (t.page j).map fun p => { p with data := (writeRaw p.data offset ty raw).1 }
    else t.page j := page_modifyPage ..

theorem page_writePage_self {p : PageState} (hp : t.page pageIdx = some p) :
    (t.writePage pageIdx offset ty raw).page pageIdx =
      some { p with data := (writeRaw p.data offset ty raw).1 } := by
  rw [page_writePage, if_pos rfl, hp, Option.map_some]

theorem pageAt_eq_ok {j : ℕ} {p : PageState} : t.pageAt j = .ok p ↔ t.page j = some p := by
  unfold pageAt
  split <;> simp_all

/-- A write that leaves the bytes of its page leaves the tune. -/
theorem writePage_eq_self {p : PageState} (hp : t.page pageIdx = some p)
    (h : (writeRaw p.data offset ty raw).1 = p.data) : t.writePage pageIdx offset ty raw = t := by
  have hpages : t.pages.modify pageIdx
      (fun p => { p with data := (writeRaw p.data offset ty raw).1 }) = t.pages := by
    refine List.ext_getElem? fun j => ?_
    rw [List.getElem?_modify]
    split_ifs with hj
    · subst hj
      have hp' : t.pages[pageIdx]? = some p := hp
      simp [hp', h]
    · simp
  rw [writePage, modifyPage, hpages]

end Write

theorem located_eq_some {t : Tune F} {c : ConstantDef F} {p : PageState} {offset : ℕ} :
    t.located c = some (p, offset) ↔
      ∃ pageIdx, location c = some (pageIdx, offset) ∧ t.page pageIdx = some p := by
  simp only [located, Option.bind_eq_some_iff, Option.map_eq_some_iff, Prod.mk.injEq, Prod.exists]
  constructor
  · rintro ⟨i, o, hloc, p', hp, rfl, rfl⟩
    exact ⟨i, hloc, hp⟩
  · rintro ⟨i, hloc, hp⟩
    exact ⟨i, offset, hloc, p, hp, rfl, rfl⟩

theorem located_writePage {t : Tune F} {c : ConstantDef F} {p : PageState} {pageIdx offset o : ℕ}
    {ty : DataType} {raw : ℤ} (hloc : location c = some (pageIdx, offset))
    (hp : t.page pageIdx = some p) : (t.writePage pageIdx o ty raw).located c =
      some ({ p with data := (writeRaw p.data o ty raw).1 }, offset) :=
  located_eq_some.mpr ⟨pageIdx, hloc, page_writePage_self hp⟩

/-! ## Raw values -/

section Raw

variable {m : Machine} {t : Tune F} {c : ConstantDef F} {name : String} {p : PageState} {offset : ℕ}

theorem constantRaw_scalar (hc : t.constant name = some c) (hcls : c.cls = .scalar)
    (hl : t.located c = some (p, offset)) :
    t.constantRaw m name = .ok (readRaw p.data offset c.ty) := by
  simp only [constantRaw, hc, hl]
  cases readRaw p.data offset c.ty <;> simp [hcls]

theorem constantRaw_bits (hc : t.constant name = some c) (hcls : c.cls = .bits) {lo hi : UInt8}
    (hsh : c.shape = some (.bits lo hi)) (hl : t.located c = some (p, offset)) {idx : ℤ} :
    t.constantRaw m name = .ok (some idx) ↔ ∃ cur, readRaw p.data offset c.ty = some cur ∧
      ∃ v, fieldRaw m lo hi (BitVec.ofInt 64 cur) = .ok v ∧ v.toInt = idx := by
  simp only [constantRaw, hc, hl]
  cases readRaw p.data offset c.ty with
  | none => simp
  | some cur => simp only [hcls, hsh, bind_eq_ok, pure_eq_ok, Option.some.injEq, exists_eq_left']

theorem constantRaw_word (hc : t.constant name = some c) (hcls : c.cls = .bits) {lo hi : UInt8}
    (hsh : c.shape = some (.bits lo hi)) (hl : t.located c = some (p, offset)) {cur : ℤ}
    (hcur : readRaw p.data offset c.ty = some cur) : t.constantRaw m name =
      (do return some (← fieldRaw m lo hi (BitVec.ofInt 64 cur)).toInt) := by
  simp only [constantRaw, hc, hl, hcur, hcls, hsh]

theorem shape_of_constantRaw (hc : t.constant name = some c) (hcls : c.cls = .bits) {raw : ℤ}
    (h : t.constantRaw m name = .ok (some raw)) : ∃ lo hi, c.shape = some (.bits lo hi) := by
  simp only [constantRaw, hc] at h
  rcases hl : t.located c with - | ⟨p, offset⟩
  · simp [hl] at h
  · rcases hcur : readRaw p.data offset c.ty with - | cur
    · simp [hl, hcur] at h
    · rcases hsh : c.shape with - | ⟨lo, hi⟩ | n | ⟨x, y⟩
      · simp [hl, hcur, hcls, hsh] at h
      · exact ⟨lo, hi, rfl⟩
      · simp [hl, hcur, hcls, hsh] at h
      · simp [hl, hcur, hcls, hsh] at h

theorem located_of_constantRaw {raw : ℤ} (hc : t.constant name = some c)
    (h : t.constantRaw m name = .ok (some raw)) :
    ∃ p offset cur, t.located c = some (p, offset) ∧ readRaw p.data offset c.ty = some cur := by
  simp only [constantRaw, hc] at h
  rcases hl : t.located c with - | ⟨p, offset⟩
  · simp [hl] at h
  · rcases hcur : readRaw p.data offset c.ty with - | cur
    · simp [hl, hcur] at h
    · exact ⟨p, offset, cur, rfl, hcur⟩

end Raw

/-! ## Encoding -/

variable [F64 F] (m : Machine)

/-- Scale and translate of a constant. -/
def coding (t : Tune F) (c : ConstantDef F) : Attempt (F × F) := do
  let scale ← t.evalField m c.scale s!"{c.name} scale"
  let translate ← t.evalField m c.translate s!"{c.name} translate"
  if F64.eq scale 0 then
    throw (.eval c.name "scale is zero")
  return (scale, translate)

end Tune

/-- The raw value that scale and translate give a value in user units. -/
def quantise [F64 F] (c : ConstantDef F) (coding : F × F) (user : F) : ℤ :=
  clampRaw c.ty (F64.toI64 (F64.round (F64.sub (F64.div user coding.1) coding.2))).toInt

namespace Tune

variable [F64 F] {m : Machine} {t t' : Tune F} {c : ConstantDef F} {name : String} {user : F}

theorem quantise_inRange (s : F × F) : InRange c.ty (quantise c s user) := clampRaw_inRange _ _

theorem encodeImpl_eq_bind (user : F) (clamp : Bool) : t.encodeImpl m c user clamp =
    t.coding m c >>= fun s =>
      (if clamp then liftM (t.clampUser m c user) else pure user : Attempt F) >>= fun user =>
        pure (quantise c s user) := by
  simp only [encodeImpl, coding, bind_assoc]
  congr 1
  funext scale
  congr 1
  funext translate
  by_cases hzero : F64.eq scale 0 = true
  · simp only [if_pos hzero]
    cases clamp <;> rfl
  · simp only [if_neg hzero, pure_bind, quantise]
    cases clamp <;> rfl

/-- **Encoding evaluates scale and translate, and then is arithmetic.** -/
theorem encodeImpl_unclamped :
    t.encodeImpl m c user false = (fun s => quantise c s user) <$> t.coding m c := by
  rw [encodeImpl_eq_bind, map_eq_pure_bind]
  simp only [Bool.false_eq_true, if_false, pure_bind]

theorem encode_ok {raw : ℤ} : (t.encodeImpl m c user false).run = .ok (.ok raw) ↔
    ∃ s, (t.coding m c).run = .ok (.ok s) ∧ quantise c s user = raw := by
  rw [encodeImpl_unclamped, map_eq_pure_bind, attempt_bind_eq_ok]
  simp

theorem encodeUser_of_constant (hc : t.constant name = some c) :
    t.encodeUser m name user = t.encodeImpl m c user false := by
  simp [encodeUser, hc, orError]

/-! ## Writing -/

@[simp] theorem orError_eq_ok {α : Type} {e : TuneError} {o : Option α} {a : α} :
    (orError e o).run = .ok (.ok a) ↔ o = some a := by
  cases o <;> simp [orError]

@[simp] theorem orError_eq_error {α : Type} {e e' : TuneError} {o : Option α} :
    (orError e o).run = .ok (.error e') ↔ o = none ∧ e = e' := by
  cases o <;> simp [orError]

@[simp] theorem lift_eq_ok {α : Type} {x : Exec α} {a : α} :
    (liftM x : Attempt α).run = .ok (.ok a) ↔ x = .ok a := by
  cases x <;> simp [liftM, monadLift, MonadLift.monadLift, ExceptT.lift]

@[simp] theorem lift_ne_error {α : Type} {x : Exec α} {e : TuneError} :
    ¬ (liftM x : Attempt α).run = .ok (.error e) := by
  cases x <;> simp [liftM, monadLift, MonadLift.monadLift, ExceptT.lift]

@[simp] theorem pure_eq_ok_ok {α : Type} {a b : α} :
    (pure a : Attempt α).run = .ok (.ok b) ↔ a = b := by
  simp

@[simp] theorem pure_ne_error {α : Type} {a : α} {e : TuneError} :
    ¬ (pure a : Attempt α).run = .ok (.error e) := by
  simp

@[simp] theorem throw_ne_ok {α : Type} {a : α} {e : TuneError} :
    ¬ (throw e : Attempt α).run = .ok (.ok a) := by
  simp

/-- An encoding ends in an error exactly where scale or translate does; the limits have none. -/
theorem encode_error {clamp : Bool} {e : TuneError} :
    (t.encodeImpl m c user clamp).run = .ok (.error e) ↔ (t.coding m c).run = .ok (.error e) := by
  rw [encodeImpl_eq_bind, attempt_bind_eq_error]
  refine or_iff_left ?_
  rintro ⟨s, -, h⟩
  rcases attempt_bind_eq_error.mp h with h | ⟨a, -, h⟩
  · cases clamp with
    | true => exact lift_ne_error h
    | false => exact pure_ne_error h
  · exact pure_ne_error h

/-- **The write of a scalar**: where the constant has a place, its value is encoded and written. -/
theorem setScalar_ok (hc : t.constant name = some c) (hcls : c.cls = .scalar) :
    (t.setConstantUnclamped m name user).run = .ok (.ok t') ↔
      ∃ pageIdx offset s p, location c = some (pageIdx, offset) ∧
        (t.coding m c).run = .ok (.ok s) ∧ t.page pageIdx = some p ∧
        t' = t.writePage pageIdx offset c.ty (quantise c s user) := by
  simp only [setConstantUnclamped, setConstantImpl, attempt_bind_eq_ok, orError_eq_ok, hc,
    Option.some.injEq, exists_eq_left', hcls, encode_ok, lift_eq_ok, pageAt_eq_ok, pure_eq_ok_ok]
  constructor
  · rintro ⟨⟨i, o⟩, hloc, raw, ⟨s, hs, rfl⟩, p, hp, rfl⟩
    exact ⟨i, o, s, p, hloc, hs, hp, rfl⟩
  · rintro ⟨i, o, s, p, hloc, hs, hp, rfl⟩
    exact ⟨(i, o), hloc, _, ⟨s, hs, rfl⟩, p, hp, rfl⟩

/-- A scalar is not written where it has no place, or where scale or translate do not evaluate. -/
theorem setScalar_error (hc : t.constant name = some c) (hcls : c.cls = .scalar) {e : TuneError} :
    (t.setConstantUnclamped m name user).run = .ok (.error e) ↔
      (location c = none ∧ e = .notEditable name "not a page constant") ∨
        (location c ≠ none ∧ (t.coding m c).run = .ok (.error e)) := by
  simp only [setConstantUnclamped, setConstantImpl, attempt_bind_eq_error, orError_eq_ok,
    orError_eq_error, hc, Option.some.injEq, exists_eq_left', hcls, encode_error, lift_ne_error,
    pure_ne_error, reduceCtorEq, false_and, false_or, and_false, exists_false, or_false,
    eq_comm (b := e)]
  refine or_congr Iff.rfl ⟨?_, ?_⟩
  · rintro ⟨a, hloc, h⟩
    exact ⟨by simp [hloc], h⟩
  · rintro ⟨hloc, h⟩
    obtain ⟨a, ha⟩ := Option.ne_none_iff_exists'.mp hloc
    exact ⟨a, ha, h⟩

/-- **The write of a bit field**: the word that stands on the page, with the field set. -/
theorem setBits_ok (hc : t.constant name = some c) (hcls : c.cls = .bits) :
    (t.setConstantUnclamped m name user).run = .ok (.ok t') ↔
      ∃ lo hi pageIdx offset p current raw, c.shape = some (.bits lo hi) ∧
        location c = some (pageIdx, offset) ∧ t.page pageIdx = some p ∧
        readRaw p.data offset c.ty = some current ∧
        fieldSet m lo hi (BitVec.ofInt 64 current)
          (F64.toU64 (F64.max (F64.round user) 0)).toBitVec = .ok raw ∧
        t' = t.writePage pageIdx offset c.ty raw.toInt := by
  simp only [setConstantUnclamped, setConstantImpl, attempt_bind_eq_ok, orError_eq_ok, hc,
    Option.some.injEq, exists_eq_left', hcls]
  rcases hsh : c.shape with - | ⟨lo, hi⟩ | n | ⟨x, y⟩
  · simp
  · simp only [attempt_bind_eq_ok, lift_eq_ok, orError_eq_ok, pageAt_eq_ok, pure_eq_ok_ok,
      Option.some.injEq, Shape.bits.injEq]
    constructor
    · rintro ⟨⟨i, o⟩, hloc, p, hp, cur, hcur, raw, hraw, rfl⟩
      exact ⟨lo, hi, i, o, p, cur, raw, ⟨rfl, rfl⟩, hloc, hp, hcur, hraw, rfl⟩
    · rintro ⟨lo, hi, i, o, p, cur, raw, ⟨rfl, rfl⟩, hloc, hp, hcur, hraw, rfl⟩
      exact ⟨(i, o), hloc, p, hp, cur, hcur, raw, hraw, rfl⟩
  · simp
  · simp

/-- A bit field is not written where it has no place or no range, or lies outside its page. -/
theorem setBits_error (hc : t.constant name = some c) (hcls : c.cls = .bits) {e : TuneError} :
    (t.setConstantUnclamped m name user).run = .ok (.error e) ↔
      (location c = none ∧ e = .notEditable name "not a page constant") ∨
      (location c ≠ none ∧ (∀ lo hi, c.shape ≠ some (.bits lo hi)) ∧
        e = .notEditable name "malformed bits shape") ∨
      ∃ lo hi p offset, c.shape = some (.bits lo hi) ∧ t.located c = some (p, offset) ∧
        readRaw p.data offset c.ty = none ∧ e = .notEditable name "out of page" := by
  simp only [setConstantUnclamped, setConstantImpl, attempt_bind_eq_error, orError_eq_ok,
    orError_eq_error, hc, Option.some.injEq, exists_eq_left', hcls, reduceCtorEq, false_and,
    false_or, eq_comm (b := e)]
  refine or_congr Iff.rfl ?_
  rcases hloc : location c with - | ⟨i, o⟩
  · simp [located, hloc]
  · have hl : ∀ p offset, t.located c = some (p, offset) ↔ t.page i = some p ∧ o = offset := by
      intro p offset
      simp [located, hloc]
    rcases hsh : c.shape with - | ⟨lo, hi⟩ | n | ⟨x, y⟩
    · simp [eq_comm (a := e)]
    · simp only [Option.some.injEq, exists_eq_left', attempt_bind_eq_error, lift_ne_error, lift_eq_ok,
        pageAt_eq_ok, orError_eq_error, pure_ne_error, and_false, exists_false, or_false, false_or,
        Shape.bits.injEq, hl, ne_eq, eq_comm (a := e)]
      constructor
      · rintro ⟨p, hp, hno, he⟩
        exact Or.inr ⟨lo, hi, p, o, ⟨rfl, rfl⟩, ⟨hp, rfl⟩, hno, he⟩
      · rintro (⟨-, h, -⟩ | ⟨lo', hi', p, offset, ⟨rfl, rfl⟩, ⟨hp, rfl⟩, hno, he⟩)
        · exact absurd ⟨rfl, rfl⟩ (h lo hi)
        · exact ⟨p, hp, hno, he⟩
    · simp [eq_comm (a := e)]
    · simp [eq_comm (a := e)]

/-- **The write of an element**: where the constant has a place, its value is encoded and written. -/
theorem setElement_ok (hc : t.constant name = some c) (hcls : c.cls = .array) {index : ℕ}
    (hi : index < c.elementCount) :
    (t.setArrayElementUnclamped m name index user).run = .ok (.ok t') ↔
      ∃ pageIdx offset s p, location c = some (pageIdx, offset) ∧
        (t.coding m c).run = .ok (.ok s) ∧ t.page pageIdx = some p ∧
        t' = t.writePage pageIdx (offset + index * c.ty.size) c.ty (quantise c s user) := by
  simp only [setArrayElementUnclamped, setArrayElementImpl, attempt_bind_eq_ok, orError_eq_ok, hc,
    Option.some.injEq, exists_eq_left', hcls, Nat.not_le.mpr hi, ne_eq, not_true_eq_false, if_false,
    encode_ok, lift_eq_ok, pageAt_eq_ok, pure_eq_ok_ok]
  constructor
  · rintro ⟨⟨i, o⟩, hloc, raw, ⟨s, hs, rfl⟩, p, hp, rfl⟩
    exact ⟨i, o, s, p, hloc, hs, hp, rfl⟩
  · rintro ⟨i, o, s, p, hloc, hs, hp, rfl⟩
    exact ⟨(i, o), hloc, _, ⟨s, hs, rfl⟩, p, hp, rfl⟩

theorem setElement_error (hc : t.constant name = some c) (hcls : c.cls = .array) {index : ℕ}
    (hi : index < c.elementCount) {e : TuneError} :
    (t.setArrayElementUnclamped m name index user).run = .ok (.error e) ↔
      (location c = none ∧ e = .notEditable name "not a page constant") ∨
        (location c ≠ none ∧ (t.coding m c).run = .ok (.error e)) := by
  simp only [setArrayElementUnclamped, setArrayElementImpl, attempt_bind_eq_error, orError_eq_ok,
    orError_eq_error, hc, Option.some.injEq, exists_eq_left', hcls, Nat.not_le.mpr hi, ne_eq,
    not_true_eq_false, if_false, encode_error, lift_ne_error, pure_ne_error, reduceCtorEq, false_and,
    false_or, and_false, exists_false, or_false, eq_comm (b := e)]
  refine or_congr Iff.rfl ⟨?_, ?_⟩
  · rintro ⟨a, hloc, h⟩
    exact ⟨by simp [hloc], h⟩
  · rintro ⟨hloc, h⟩
    obtain ⟨a, ha⟩ := Option.ne_none_iff_exists'.mp hloc
    exact ⟨a, ha, h⟩

end Tune

end RustyTune.TuneModel
