import RustyTune.TuneModel.Msq.Region
import RustyTune.TuneModel.Msq.Report

/-!
# Comparing and applying one constant

A constant should be listed as different exactly when applying it alone changes the tune, and not be
listed afterwards.

* `Independent`: scale and translate of a constant do not depend on its own bytes.
* `Representable`: a field can hold the index of the file; and of an array that does not lie in its
  page, the elements that do stand there already.
* **`agree_iff`**: comparison and application agree on a constant exactly when its value is
  representable; an index past the end of a field stays listed forever (`tooLarge_not_agree`).
-/

namespace RustyTune.TuneModel.Msq

open TsIni Exec

variable {F : Type}

/-! ## Own bytes -/

/-- The two tunes differ in local bytes of the constant at most. -/
structure SameOutside (c : ConstantDef F) (t t₂ : Tune F) : Prop where
  df : t₂.df = t.df
  pcValues : t₂.pcValues = t.pcValues
  length : ∀ j, (t₂.page j).map (·.data.length) = (t.page j).map (·.data.length)
  bytes : ∀ j i, ¬ OwnByte c j i →
    (t₂.page j).bind (·.data[i]?) = (t.page j).bind (·.data[i]?)

theorem SameOutside.refl (c : ConstantDef F) (t : Tune F) : SameOutside c t t :=
  ⟨rfl, rfl, fun _ => rfl, fun _ _ _ => rfl⟩

theorem SameOutside.store {c : ConstantDef F} {t : Tune F} {pageIdx offset : ℕ}
    (hloc : Tune.location c = some (pageIdx, offset)) {raws : List ℤ}
    (hlen : raws.length ≤ valueCount c) : SameOutside c t (t.store pageIdx offset c.ty raws) := by
  refine ⟨rfl, rfl, fun j => ?_, fun j i hno => ?_⟩
  · rw [Tune.page_store]
    split_ifs
    · cases t.page j <;> simp
    · rfl
  · rw [Tune.page_store]
    split_ifs with hj
    · subst hj
      cases t.page pageIdx with
      | none => rfl
      | some p =>
        have hmul : raws.length * c.ty.size ≤ valueCount c * c.ty.size := Nat.mul_le_mul_right _ hlen
        exact getElem?_writeRaws fun hi => hno ⟨offset, hloc, hi.1, by omega⟩
    · rfl

variable [F64 F] (m : Machine)

/-- **Scale and translate of the constant do not depend on its own bytes.** -/
def Independent (t : Tune F) (c : ConstantDef F) : Prop :=
  ∀ t₂, SameOutside c t t₂ → t₂.coding m c = t.coding m c

/-- The value can be represented: the field holds the index; the elements of an array that is
encoded but does not lie in its page stand there already, as far as they lie in it. -/
def Representable (t : Tune F) (name : String) (c : ConstantDef F) (value : MsqValue F) : Prop :=
  match c.cls, value with
  | .bits, value => ∀ idx lo hi p offset cur, fileBitsIndex t name value = some idx →
      c.shape = some (.bits lo hi) → t.located c = some (p, offset) →
      readRaw p.data offset c.ty = some cur → FieldHolds F m c.ty lo hi cur idx
  | .array, .array values => values.length = c.elementCount →
      ∀ s, (t.coding m c).run = .ok (.ok s) → ¬ InPage t c c.elementCount →
        ∀ k v cur, values[k]? = some v → t.arrayRaw name k = some cur → cur = quantise c s v
  | _, _ => True

variable {m} {t t₁ t' : Tune F} {name : String} {c : ConstantDef F} {r : Except TuneError Unit}

/-! ## The tune after an application -/

theorem symbolsAt_of_hidden (hdf : t'.df = t.df) (hpages : t'.pages = t.pages)
    (hpc : ∀ k, t.df.constants.containsKey k = false → t'.pcValues.get? k = t.pcValues.get? k)
    (depth : ℕ) : t'.symbolsAt m depth = t.symbolsAt m depth := by
  obtain ⟨df, pages, pcs, loaded⟩ := t
  obtain ⟨df', pages', pcs', loaded'⟩ := t'
  dsimp only at hdf hpages hpc
  subst hdf hpages
  induction depth with
  | zero => rfl
  | succ depth ih =>
    simp only [Tune.symbolsAt, ih]
    refine congrArg (fun v => (⟨v, _, _⟩ : SymbolSource F)) ?_
    funext name
    cases hk : df'.constants.containsKey name with
    | true => rfl
    | false => simp only [Bool.false_eq_true, if_false, hpc name hk]

theorem coding_of_hidden (hdf : t'.df = t.df) (hpages : t'.pages = t.pages)
    (hpc : ∀ k, t.df.constants.containsKey k = false → t'.pcValues.get? k = t.pcValues.get? k) :
    t'.coding m c = t.coding m c := by
  simp only [Tune.coding, Tune.evalField, Tune.symbols, symbolsAt_of_hidden hdf hpages hpc]

/-- The tune `t'` is `t₁` but for a variable of the constant's name. -/
structure SameButVariable (name : String) (t₁ t' : Tune F) : Prop where
  df : t'.df = t₁.df
  pages : t'.pages = t₁.pages
  pcValues : ∀ k ≠ name, t'.pcValues.get? k = t₁.pcValues.get? k

omit [F64 F] in
theorem SameButVariable.constant (h : SameButVariable name t₁ t') (n : String) :
    t'.constant n = t₁.constant n := by
  simp only [Tune.constant, h.df]

omit [F64 F] in
theorem SameButVariable.located (h : SameButVariable name t₁ t') (c : ConstantDef F) :
    t'.located c = t₁.located c := by
  simp only [Tune.located, Tune.page, h.pages]

omit [F64 F] in
theorem SameButVariable.constantRaw (h : SameButVariable name t₁ t') (n : String) :
    t'.constantRaw m n = t₁.constantRaw m n := by
  simp only [Tune.constantRaw, h.constant, h.located]

omit [F64 F] in
theorem SameButVariable.arrayRaw (h : SameButVariable name t₁ t') (n : String) (i : ℕ) :
    t'.arrayRaw n i = t₁.arrayRaw n i := by
  simp only [Tune.arrayRaw, h.constant, h.located]

theorem SameButVariable.fileBitsIndex (h : SameButVariable name t₁ t') (n : String)
    (value : MsqValue F) : fileBitsIndex t' n value = fileBitsIndex t₁ n value := by
  cases value <;> simp only [Msq.fileBitsIndex, h.constant]

omit [F64 F] in
theorem SameButVariable.data (h : SameButVariable name t₁ t') : t'.data = t₁.data := by
  simp only [Tune.data, h.pages]

/-- Scale and translate after the turn are those from before it. -/
theorem coding_after (hc : t.constant name = some c) (hind : Independent m t c)
    (h₁ : SameOutside c t t₁) (h' : SameButVariable name t₁ t') :
    t'.coding m c = t.coding m c := by
  rw [← hind t₁ h₁]
  refine coding_of_hidden h'.df h'.pages fun k hk => h'.pcValues k ?_
  rintro rfl
  have hsome : t₁.df.constants.get? k = some c := by
    rw [h₁.df]
    exact hc
  simp [IndexMap.containsKey, hsome] at hk

/-! ## Agreement -/

/-- Listed when applied alone it changes data, and not listed afterwards. -/
def Agrees (t t₁ : Tune F) (v v' : Verdict F) : Prop :=
  (v.group = some .entries ↔ t₁.data ≠ t.data) ∧ ¬ v'.group = some .entries

omit [F64 F] in
theorem SameOutside.constant (h : SameOutside c t t₁) (n : String) :
    t₁.constant n = t.constant n := by
  simp only [Tune.constant, h.df]

theorem agree_scalar (hc : t.constant name = some c) (hcls : c.cls = .scalar) {user : F}
    (hind : Independent m t c) (hturn : applyValue m t name c (.num user) = .ok (r, t₁))
    (h' : SameButVariable name t₁ t') {v v' : Verdict F}
    (hv : compare m t name (.num user) = .ok v) (hv' : compare m t' name (.num user) = .ok v') :
    Agrees t t₁ v v' := by
  rw [Agrees, listed_scalar hc hcls hv]
  rcases (turn_scalar hc hcls).mp hturn with ⟨e, -, rfl, hwhy⟩ | ⟨i, o, s, p, hloc, hs, hp, -, rfl⟩
  · have hc' : t'.constant name = some c := (h'.constant name).trans hc
    have hcod := coding_after hc hind (.refl c t₁) h'
    -- neither raw value can be compared
    have hno : ∀ cur, t₁.constantRaw m name = .ok (some cur) →
        ¬ ∃ s, (t₁.coding m c).run = .ok (.ok s) := by
      rintro cur hcur ⟨s, hs⟩
      rcases hwhy with ⟨hloc, -⟩ | ⟨-, herr⟩
      · obtain ⟨p, o, w, hl, -⟩ := Tune.located_of_constantRaw hc hcur
        obtain ⟨i, hloc', -⟩ := Tune.located_eq_some.mp hl
        exact nomatch hloc.symm.trans hloc'
      · exact nomatch hs.symm.trans herr
    rw [listed_scalar hc' hcls hv', h'.constantRaw]
    simp only [encodeUser_ok hc, encodeUser_ok hc', hcod]
    constructor
    · refine iff_of_false ?_ fun h => h rfl
      rintro ⟨cur, raw, hcur, ⟨s, hs, -⟩, -⟩
      exact hno cur hcur ⟨s, hs⟩
    · rintro ⟨cur, raw, hcur, ⟨s, hs, -⟩, -⟩
      exact hno cur hcur ⟨s, hs⟩
  · have hl := Tune.located_eq_some.mpr ⟨i, hloc, hp⟩
    have hl₁ : (t.writePage i o c.ty (quantise c s user)).located c = _ :=
      Tune.located_writePage hloc hp
    have hc₁ : (t.writePage i o c.ty (quantise c s user)).constant name = some c := hc
    have hc' : t'.constant name = some c := (h'.constant name).trans hc₁
    have hso : SameOutside c t (t.writePage i o c.ty (quantise c s user)) := by
      rw [← Tune.store_singleton]
      exact SameOutside.store hloc (by simp [valueCount, hcls])
    have hcod := coding_after hc hind hso h'
    rw [listed_scalar hc' hcls hv', h'.constantRaw, Tune.constantRaw_scalar hc hcls hl,
      Tune.constantRaw_scalar hc₁ hcls hl₁]
    simp only [encodeUser_ok hc, encodeUser_ok hc', hcod, hs, Except.ok.injEq, exists_eq_left']
    rw [← Tune.store_singleton, ne_eq, Tune.data_store_eq_iff hp]
    simp only [writeRaws]
    rcases hcur : readRaw p.data o c.ty with - | cur
    · have hlt := readRaw_eq_none.mp hcur
      rw [writeRaw_of_lt hlt, hcur]
      simp
    · rw [writeRaw_eq_self_iff hcur (Tune.quantise_inRange s),
        readRaw_writeRaw (readRaw_eq_some.mp hcur).1 (Tune.quantise_inRange s)]
      simp

theorem agree_bits [WholeF64 F] (hc : t.constant name = some c) (hcls : c.cls = .bits) {value : MsqValue F}
    (hturn : applyValue m t name c value = .ok (r, t₁))
    (h' : SameButVariable name t₁ t') {v v' : Verdict F}
    (hv : compare m t name value = .ok v) (hv' : compare m t' name value = .ok v') :
    Agrees t t₁ v v' ↔ Representable m t name c value := by
  have hrep : Representable m t name c value ↔ ∀ idx lo hi p offset cur,
      fileBitsIndex t name value = some idx → c.shape = some (.bits lo hi) →
        t.located c = some (p, offset) → readRaw p.data offset c.ty = some cur →
          FieldHolds F m c.ty lo hi cur idx := by
    simp [Representable, hcls]
  rw [hrep, Agrees, listed_bits hc hcls hv]
  rcases turn_bits hc hcls hturn with ⟨-, rfl, hno⟩ |
    ⟨idx, lo, hi, i, o, p, cur, w, hidx, hsh, hloc, hp, hcur, hset, -, rfl⟩
  · have hc' : t'.constant name = some c := (h'.constant name).trans hc
    have hnone : ¬ ∃ cur idx, t₁.constantRaw m name = .ok (some cur) ∧
        fileBitsIndex t₁ name value = some idx ∧ cur ≠ idx := by
      rintro ⟨cur, idx, hcur, hidx, -⟩
      obtain ⟨p, o, w, hl, hw⟩ := Tune.located_of_constantRaw hc hcur
      obtain ⟨lo, hi, hsh⟩ := Tune.shape_of_constantRaw hc hcls hcur
      exact hno ⟨idx, lo, hi, p, o, w, hidx, hsh, hl, hw⟩
    rw [listed_bits hc' hcls hv', h'.constantRaw, h'.fileBitsIndex]
    refine iff_of_true ⟨iff_of_false hnone fun h => h rfl, hnone⟩ fun idx lo hi p o cur h1 h2 h3 h4 => ?_
    exact absurd ⟨idx, lo, hi, p, o, cur, h1, h2, h3, h4⟩ hno
  · have hl := Tune.located_eq_some.mpr ⟨i, hloc, hp⟩
    have hl₁ : (t.writePage i o c.ty w.toInt).located c = _ := Tune.located_writePage hloc hp
    have hc₁ : (t.writePage i o c.ty w.toInt).constant name = some c := hc
    have hc' : t'.constant name = some c := (h'.constant name).trans hc₁
    have hin := (readRaw_eq_some.mp hcur).1
    have hread := readRaw_writeRaw_low hin w.toInt
    -- the field before and after the write
    obtain ⟨v₀, hv₀⟩ : ∃ v₀, fieldRaw m lo hi (BitVec.ofInt 64 cur) = .ok v₀ := by
      simp only [compare, hc, hcls, bind_eq_ok, Tune.constantRaw_word hc hcls hsh hl hcur] at hv
      obtain ⟨x, ⟨v₀, hv₀, -⟩, -⟩ := hv
      exact ⟨v₀, hv₀⟩
    obtain ⟨v₁, hv₁⟩ := fieldRaw_total hv₀
      (BitVec.ofInt 64 (decodeRaw c.ty (rawBytes c.ty w.toInt)))
    have hraw : t.constantRaw m name = .ok (some v₀.toInt) :=
      (Tune.constantRaw_bits hc hcls hsh hl).mpr ⟨cur, hcur, v₀, hv₀, rfl⟩
    have hraw' : t'.constantRaw m name = .ok (some v₁.toInt) :=
      (h'.constantRaw name).trans ((Tune.constantRaw_bits hc₁ hcls hsh hl₁).mpr ⟨_, hread, v₁, hv₁, rfl⟩)
    have hidx' : fileBitsIndex t' name value = some idx := (h'.fileBitsIndex name value).trans hidx
    have hholds : (∀ idx lo hi p offset cur, fileBitsIndex t name value = some idx →
        c.shape = some (.bits lo hi) → t.located c = some (p, offset) →
          readRaw p.data offset c.ty = some cur → FieldHolds F m c.ty lo hi cur idx) ↔
        v₁.toInt = idx := by
      have hiff : FieldHolds F m c.ty lo hi cur idx ↔ v₁.toInt = idx := by
        rw [← fieldRaw_fieldSet_iff hcur hset]
        simp only [hv₁, Except.ok.injEq, exists_eq_left']
      rw [← hiff]
      refine ⟨fun h => h idx lo hi p o cur hidx hsh hl hcur, fun h _ _ _ _ _ _ h1 h2 h3 h4 => ?_⟩
      obtain rfl := Option.some.inj (hidx.symm.trans h1)
      obtain ⟨rfl, rfl⟩ := Shape.bits.inj (Option.some.inj (hsh.symm.trans h2))
      obtain ⟨rfl, rfl⟩ := Prod.mk.inj (Option.some.inj (hl.symm.trans h3))
      obtain rfl := Option.some.inj (hcur.symm.trans h4)
      exact h
    have hself : (writeRaw p.data o c.ty w.toInt).1 = p.data ↔ v₁ = v₀ := by
      constructor
      · intro heq
        rw [heq, hcur] at hread
        rw [← Option.some.inj hread, hv₀] at hv₁
        exact (Except.ok.inj hv₁).symm
      · rintro rfl
        exact writeRaw_fieldSet_eq_self hcur hset hv₀ hv₁
    rw [hholds, listed_bits hc' hcls hv', ← Tune.store_singleton, ne_eq, Tune.data_store_eq_iff hp]
    simp only [writeRaws, hself, hraw, hraw', hidx, hidx', Except.ok.injEq, Option.some.injEq,
      exists_eq_left', ne_eq, exists_and_left]
    rw [← BitVec.toInt_inj]
    omega

/-- An array that cannot be compared, before or after a turn that changes nothing. -/
theorem agree_array_of_unreadable (hc : t.constant name = some c) (hc' : t'.constant name = some c)
    (hcls : c.cls = .array) {values : List F} (hlen : values.length = c.elementCount)
    (hno : ¬ ∀ i v, values[i]? = some v → ElementReadable m t name i v)
    (hno' : ¬ ∀ i v, values[i]? = some v → ElementReadable m t' name i v) {v v' : Verdict F}
    (hv : compare m t name (.array values) = .ok v)
    (hv' : compare m t' name (.array values) = .ok v') :
    Agrees t t₁ v v' ↔ t₁.data = t.data := by
  rw [Agrees, listed_array hc hcls hlen hv, listed_array hc' hcls hlen hv']
  constructor
  · rintro ⟨h, -⟩
    by_contra hne
    exact hno (h.mpr hne).1
  · intro heq
    exact ⟨iff_of_false (fun h => hno h.1) fun h => h heq, fun h => hno' h.1⟩

/-- An array without a place: no element can be compared, and none is written. -/
theorem agree_array_unplaced (hc : t.constant name = some c) (hcls : c.cls = .array) {values : List F}
    (hlen : values.length = c.elementCount) (hne : values ≠ []) (hnone : ∀ i, t.arrayRaw name i = none)
    (h' : SameButVariable name t t') {v v' : Verdict F} (hv : compare m t name (.array values) = .ok v)
    (hv' : compare m t' name (.array values) = .ok v') : Agrees t t v v' := by
  obtain ⟨u, hu⟩ := List.exists_mem_of_ne_nil values hne
  obtain ⟨i, hi⟩ := List.getElem?_of_mem hu
  have hno : ¬ ∀ i v, values[i]? = some v → ElementReadable m t name i v := fun h => by
    obtain ⟨cur, raw, hcur, -⟩ := h i u hi
    cases (hnone i).symm.trans hcur
  have hno' : ¬ ∀ i v, values[i]? = some v → ElementReadable m t' name i v := fun h => by
    obtain ⟨cur, raw, hcur, -⟩ := h i u hi
    cases (hnone i).symm.trans ((h'.arrayRaw name i).symm.trans hcur)
  exact (agree_array_of_unreadable hc ((h'.constant name).trans hc) hcls hlen hno hno' hv hv').mpr rfl

/-- The elements that stand in the page are what the values are encoded to. -/
def AsEncoded (t : Tune F) (name : String) (c : ConstantDef F) (s : F × F) (values : List F) : Prop :=
  ∀ k v cur, values[k]? = some v → t.arrayRaw name k = some cur → cur = quantise c s v

section Encoded

variable {values : List F} {raws : List ℤ} {pageIdx offset : ℕ} {p : PageState} {s : F × F}

/-- All the elements are encoded with the scale and translate from before them. -/
theorem raws_encoded (hind : Independent m t c) (hloc : Tune.location c = some (pageIdx, offset))
    (hcount : values.length ≤ valueCount c) (henc : Encodes m t c pageIdx offset values raws)
    (hfull : raws.length = values.length) (hs : (t.coding m c).run = .ok (.ok s)) {k : ℕ} {u : F}
    (hu : values[k]? = some u) : raws[k]? = some (quantise c s u) := by
  have hk := List.getElem?_eq_getElem
    (show k < raws.length from hfull ▸ (List.getElem?_eq_some_iff.mp hu).1)
  have hso : SameOutside c t (t.store pageIdx offset c.ty (raws.take k)) := SameOutside.store hloc (by
    rw [List.length_take]
    omega)
  obtain ⟨s', hs', hq⟩ := henc.2 k u _ hu hk
  rw [hind _ hso, hs] at hs'
  rw [hk, ← hq, Except.ok.inj (Except.ok.inj hs')]

/-- What is encoded changes nothing exactly when it stands there. -/
theorem data_store_encoded (hc : t.constant name = some c) (hloc : Tune.location c = some (pageIdx, offset))
    (hp : t.page pageIdx = some p) (hrange : ∀ raw ∈ raws, InRange c.ty raw)
    (hfull : raws.length = values.length)
    (hraw : ∀ {k : ℕ} {u : F}, values[k]? = some u → raws[k]? = some (quantise c s u)) :
    (t.store pageIdx offset c.ty raws).data = t.data ↔ AsEncoded t name c s values := by
  rw [data_store_array hc hloc hp hrange]
  constructor
  · intro h k u cur hu hcur
    exact h k _ cur (hraw hu) hcur
  · intro h k raw cur hk hcur
    have hu := List.getElem?_eq_getElem
      (show k < values.length from hfull ▸ (List.getElem?_eq_some_iff.mp hk).1)
    exact (h k _ cur hu hcur).trans (Option.some.inj ((hraw hu).symm.trans hk))

/-- Of elements that can be compared, some differ exactly when they are not as encoded. -/
theorem exists_differs_iff (hc : t.constant name = some c) (hs : (t.coding m c).run = .ok (.ok s))
    (hall : ∀ i v, values[i]? = some v → ElementReadable m t name i v) :
    (∃ i u, values[i]? = some u ∧ ¬ ElementEqual m t name i u) ↔ ¬ AsEncoded t name c s values := by
  unfold AsEncoded
  push Not
  refine exists_congr fun i => exists_congr fun u => ?_
  constructor
  · rintro ⟨hu, hneq⟩
    obtain ⟨cur, raw, hcur, -⟩ := hall i u hu
    refine ⟨cur, hu, hcur, fun heq => hneq ⟨cur, hcur, (encodeUser_ok hc).mpr ⟨s, hs, heq.symm⟩⟩⟩
  · rintro ⟨cur, hu, hcur, hneq⟩
    refine ⟨hu, ?_⟩
    rintro ⟨raw, hraw', henc'⟩
    obtain ⟨s', hs', hq⟩ := (encodeUser_ok hc).mp henc'
    obtain rfl := Except.ok.inj (Except.ok.inj (hs.symm.trans hs'))
    exact hneq ((Option.some.inj (hcur.symm.trans hraw')).trans hq.symm)

/-- An array that lies in its page and is encoded: afterwards every element is equal. -/
theorem agree_array_inPage (hc : t.constant name = some c) (hcls : c.cls = .array)
    (hlen : values.length = c.elementCount) (hloc : Tune.location c = some (pageIdx, offset))
    (hp : t.page pageIdx = some p) (hin : InPage t c c.elementCount)
    (hs : (t.coding m c).run = .ok (.ok s)) (hs' : (t'.coding m c).run = .ok (.ok s))
    (hrange : ∀ raw ∈ raws, InRange c.ty raw) (hfull : raws.length = values.length)
    (hraw : ∀ {k : ℕ} {u : F}, values[k]? = some u → raws[k]? = some (quantise c s u))
    (h' : SameButVariable name (t.store pageIdx offset c.ty raws) t')
    (hall : ∀ i v, values[i]? = some v → ElementReadable m t name i v) {v v' : Verdict F}
    (hv : compare m t name (.array values) = .ok v) (hv' : compare m t' name (.array values) = .ok v') :
    Agrees t (t.store pageIdx offset c.ty raws) v v' := by
  have hc' : t'.constant name = some c := (h'.constant name).trans hc
  constructor
  · rw [listed_array hc hcls hlen hv, exists_differs_iff hc hs hall, ne_eq,
      data_store_encoded hc hloc hp hrange hfull hraw]
    exact and_iff_right hall
  · rw [listed_array hc' hcls hlen hv']
    rintro ⟨-, i, u, hu, hneq⟩
    refine hneq ⟨quantise c s u, ?_, (encodeUser_ok hc').mpr ⟨s, hs', rfl⟩⟩
    rw [h'.arrayRaw]
    refine (arrayRaw_store hc hloc hp hrange (hraw hu)).mpr ?_
    have hi := (List.getElem?_eq_some_iff.mp hu).1
    have hmul : i.succ * c.ty.size ≤ c.elementCount * c.ty.size :=
      Nat.mul_le_mul_right _ (by omega)
    have hle := (inPage_iff hloc hp).mp hin
    rw [Nat.add_assoc, ← Nat.succ_mul]
    omega

end Encoded

theorem agree_array (hc : t.constant name = some c) (hcls : c.cls = .array) {values : List F}
    (hlen : values.length = c.elementCount) (hind : Independent m t c)
    (hturn : applyValue m t name c (.array values) = .ok (r, t₁))
    (h' : SameButVariable name t₁ t') {v v' : Verdict F}
    (hv : compare m t name (.array values) = .ok v)
    (hv' : compare m t' name (.array values) = .ok v') :
    Agrees t t₁ v v' ↔ Representable m t name c (.array values) := by
  have hrep : Representable m t name c (.array values) ↔ ∀ s, (t.coding m c).run = .ok (.ok s) →
      ¬ InPage t c c.elementCount → AsEncoded t name c s values := by
    simp [Representable, hcls, hlen, AsEncoded]
  rw [hrep]
  by_cases hne : values = []
  · -- nothing to compare, nothing to write
    have ht : t₁ = t := by
      rcases turn_array hc hcls hlen hturn with ⟨-, -, h⟩ | ⟨-, -, -, h⟩ |
        ⟨i, o, -, raws, henc, h, -⟩
      · exact h
      · exact h
      · have hraws := henc.1
        rw [hne, List.length_nil, Nat.le_zero, List.length_eq_zero_iff] at hraws
        rw [h, hraws, Tune.store_nil]
    subst ht hne
    rw [Agrees, listed_array hc hcls hlen hv,
      listed_array ((h'.constant name).trans hc) hcls hlen hv']
    simp [AsEncoded]
  rcases turn_array hc hcls hlen hturn with ⟨h, -⟩ | ⟨-, hloc, -, rfl⟩ |
    ⟨pageIdx, offset, hloc, raws, henc, rfl, hpage, hend⟩
  · exact absurd h hne
  · have hnone : ∀ i, t₁.arrayRaw name i = none := fun i => by
      simp [Tune.arrayRaw, hc, Tune.located, hloc]
    refine iff_of_true (agree_array_unplaced hc hcls hlen hne hnone h' hv hv') fun s _ _ k v cur _ hcur => ?_
    cases (hnone k).symm.trans hcur
  · have hcount : values.length ≤ valueCount c := by simp [valueCount, hcls, hlen]
    have hso : SameOutside c t (t.store pageIdx offset c.ty raws) :=
      SameOutside.store hloc (henc.1.trans hcount)
    have hc' : t'.constant name = some c := (h'.constant name).trans hc
    have hcod := coding_after hc hind hso h'
    have hread' := elements_readable_iff (m := m) hc' hlen hne
    have hread := elements_readable_iff (m := m) hc hlen hne
    have hbefore : 0 < raws.length → ∃ s, (t.coding m c).run = .ok (.ok s) := by
      intro hpos
      obtain ⟨s, hs⟩ := henc.coding_ok hpos
      rw [List.take_zero, Tune.store_nil] at hs
      exact ⟨s, hs⟩
    rcases hend with ⟨-, hfull⟩ | ⟨-, e, -, he⟩
    · have hpos : 0 < raws.length := hfull ▸ List.length_pos_iff.mpr hne
      obtain ⟨p, hp⟩ := hpage (List.length_pos_iff.mp hpos)
      obtain ⟨s, hs⟩ := hbefore hpos
      have hraw {k : ℕ} {u : F} (hu : values[k]? = some u) : raws[k]? = some (quantise c s u) :=
        raws_encoded hind hloc hcount henc hfull hs hu
      by_cases hin : InPage t c c.elementCount
      · refine iff_of_true ?_ fun _ _ hno => absurd hin hno
        exact agree_array_inPage hc hcls hlen hloc hp hin hs (by rw [hcod, hs]) henc.inRange hfull hraw h'
          (hread.mpr ⟨hin, s, hs⟩) hv hv'
      · have hin' : InPage t' c c.elementCount ↔ InPage t c c.elementCount := by
          rw [inPage_iff hloc hp, inPage_iff hloc (show t'.page pageIdx = _ by
            rw [Tune.page, h'.pages]
            exact Tune.page_store_self hp raws), length_writeRaws]
        rw [agree_array_of_unreadable hc hc' hcls hlen (fun h => hin (hread.mp h).1)
          (fun h => hin (hin'.mp (hread'.mp h).1)) hv hv',
          data_store_encoded hc hloc hp henc.inRange hfull hraw]
        constructor
        · intro h s' hs' _
          obtain rfl := Except.ok.inj (Except.ok.inj (hs.symm.trans hs'))
          exact h
        · intro h
          exact h s hs hin
    · -- scale and translate do not evaluate, before the first element
      have hunscaled : ¬ Scaled m t c := by
        rintro ⟨s, hs⟩
        cases hs.symm.trans ((hind _ hso).symm ▸ he)
      have hscaled' : Scaled m t' c ↔ Scaled m t c := by simp only [Scaled, hcod]
      have hnil : raws = [] := by
        by_contra hraws
        exact hunscaled (hbefore (List.length_pos_iff.mpr hraws))
      rw [agree_array_of_unreadable hc hc' hcls hlen (fun h => hunscaled (hread.mp h).2)
        (fun h => hunscaled (hscaled'.mp (hread'.mp h).2)) hv hv', hnil, Tune.store_nil]
      refine iff_of_true rfl fun s hs => ?_
      exact absurd ⟨s, hs⟩ hunscaled

/-- **Comparing and applying a constant agree exactly when its value is representable.** -/
theorem agree_iff [WholeF64 F] (m : Machine) (file : MsqFile F) (t t' : Tune F) (name : String)
    (value : MsqValue F) (c : ConstantDef F) (d d' : MsqDiff F) (report : ApplyReport)
    (hmem : (name, value) ∈ file.constants.entries) (hc : t.constant name = some c)
    (hcls : c.cls ≠ .string) (hind : c.cls ≠ .bits → Independent m t c)
    (hd : diff m t file = .ok d) (ha : apply m file t (some [name]) = .ok (report, t'))
    (hd' : diff m t' file = .ok d') :
    ((name ∈ d.entries.map DiffEntry.name ↔ t'.data ≠ t.data) ∧
      name ∉ d'.entries.map DiffEntry.name) ↔ Representable m t name c value := by
  obtain ⟨r, t₁, hturn, hdf, hpages, hpc⟩ := apply_single hmem hc ha
  have h' : SameButVariable name t₁ t' := ⟨hdf, hpages, hpc⟩
  obtain ⟨v, hv⟩ := exists_compare hd hmem
  obtain ⟨v', hv'⟩ := exists_compare hd' hmem
  have hl : name ∈ d.entries.map DiffEntry.name ↔ v.group = some .entries :=
    lists_diff hd hmem hv .entries
  have hl' : name ∈ d'.entries.map DiffEntry.name ↔ v'.group = some .entries :=
    lists_diff hd' hmem hv' .entries
  rw [hl, hl', h'.data]
  change Agrees t t₁ v v' ↔ _
  have hmismatch (hmis : (c.cls = .scalar ∧ ∀ v, value ≠ .num v) ∨
        (c.cls = .array ∧ ∀ values, value = .array values → values.length ≠ c.elementCount))
      (hrep : Representable m t name c value) :
      Agrees t t₁ v v' ↔ Representable m t name c value := by
    obtain ⟨-, rfl⟩ := turn_mismatch (hmis.imp_right Or.inr) hturn
    refine iff_of_true ⟨iff_of_false (not_listed_mismatch hc hmis hv) fun h => h rfl, ?_⟩ hrep
    exact not_listed_mismatch ((h'.constant name).trans hc) hmis hv'
  cases hcls' : c.cls with
  | string => exact absurd hcls' hcls
  | bits => exact agree_bits hc hcls' hturn h' hv hv'
  | scalar =>
    cases value with
    | num user =>
      refine iff_of_true (agree_scalar hc hcls' (hind (by simp [hcls'])) hturn h' hv hv') ?_
      simp [Representable, hcls']
    | text _ | array _ => exact hmismatch (Or.inl ⟨hcls', nofun⟩) (by simp [Representable, hcls'])
  | array =>
    cases value with
    | array values =>
      by_cases hlen : values.length = c.elementCount
      · exact agree_array hc hcls' hlen (hind (by simp [hcls'])) hturn h' hv hv'
      · refine hmismatch (Or.inr ⟨hcls', fun vs hvs => ?_⟩) (by simp [Representable, hcls', hlen])
        rwa [← MsqValue.array.inj hvs]
    | num _ | text _ => exact hmismatch (Or.inr ⟨hcls', nofun⟩) (by simp [Representable, hcls'])

/-! ## An index past the end of a field -/

/-- A choice of two bits, the second one made. -/
def twoBits : Tune XRat :=
  plainTune [plainConstant "mode" .bits .u08 0 (some (.bits 0 1)) (.num 1)] [[2]]

theorem twoBits_agree_iff :
    ∃ d d' t', diff ⟨.debug, 8⟩ twoBits (oneEntry "mode" (.num 3)) = .ok d ∧
      diff ⟨.debug, 8⟩ t' (oneEntry "mode" (.num 3)) = .ok d' ∧
      (((("mode" ∈ d.entries.map DiffEntry.name) ↔ t'.data ≠ twoBits.data) ∧
        "mode" ∉ d'.entries.map DiffEntry.name) ↔
        ∀ c, twoBits.constant "mode" = some c →
          Representable ⟨.debug, 8⟩ twoBits "mode" c (.num 3)) := by
  have hrun : (do
      let _ ← diff ⟨.debug, 8⟩ twoBits (oneEntry "mode" (.num 3))
      let r ← apply ⟨.debug, 8⟩ (oneEntry "mode" (.num 3)) twoBits (some ["mode"])
      let _ ← diff ⟨.debug, 8⟩ r.2 (oneEntry "mode" (.num 3))
      return () : Exec Unit) = .ok () := by decide +kernel
  obtain ⟨d, hd, hrun⟩ := bind_eq_ok.mp hrun
  obtain ⟨⟨report, t'⟩, ha, hrun⟩ := bind_eq_ok.mp hrun
  obtain ⟨d', hd', -⟩ := bind_eq_ok.mp hrun
  refine ⟨d, d', t', hd, hd', ?_⟩
  rw [agree_iff ⟨.debug, 8⟩ (oneEntry "mode" (.num 3)) twoBits t' "mode" (.num 3) _ d d' report
    (by decide) rfl (by decide) (fun h => absurd rfl h) hd ha hd']
  exact ⟨fun h c hc => Option.some.inj hc ▸ h, fun h => h _ rfl⟩

/-- **An index that a field cannot hold is listed before and after it is applied.** -/
theorem tooLarge_not_agree :
    ¬ ∀ (m : Machine) (file : MsqFile XRat) (t t' : Tune XRat) (name : String)
      (value : MsqValue XRat) (c : ConstantDef XRat) (d d' : MsqDiff XRat) (report : ApplyReport),
      (name, value) ∈ file.constants.entries → t.constant name = some c → c.cls ≠ .string →
      (c.cls ≠ .bits → Independent m t c) → diff m t file = .ok d →
      apply m file t (some [name]) = .ok (report, t') → diff m t' file = .ok d' →
        (name ∈ d.entries.map DiffEntry.name ↔ t'.data ≠ t.data) ∧
          name ∉ d'.entries.map DiffEntry.name := by
  intro h
  have hrun : (do
      let _ ← diff ⟨.debug, 8⟩ twoBits (oneEntry "mode" (.num 9))
      let r ← apply ⟨.debug, 8⟩ (oneEntry "mode" (.num 9)) twoBits (some ["mode"])
      let d' ← diff ⟨.debug, 8⟩ r.2 (oneEntry "mode" (.num 9))
      return d'.entries.map DiffEntry.name : Exec (List String)) = .ok ["mode"] := by decide +kernel
  obtain ⟨d, hd, hrun⟩ := bind_eq_ok.mp hrun
  obtain ⟨⟨report, t'⟩, ha, hrun⟩ := bind_eq_ok.mp hrun
  obtain ⟨d', hd', hrun⟩ := bind_eq_ok.mp hrun
  refine (h ⟨.debug, 8⟩ _ _ t' "mode" (.num 9) _ d d' report (by decide) rfl (by decide)
    (fun h => absurd rfl h) hd ha hd').2 ?_
  rw [pure_eq_ok.mp hrun]
  exact List.mem_singleton_self _

end RustyTune.TuneModel.Msq
