import RustyTune.Lib.Places
import RustyTune.TuneModel.Msq.Partition
import RustyTune.TuneModel.Msq.Region

/-!
# The order of a file's entries

Each value is encoded against the tune as the entries before it have left it, so the order of the
entries matters where the scale or the translate of a constant depends on another entry.

* `Codes`: the raw values that the numbers of an entry encode to; **`turn_numbers`**: a turn stores
  them.
* `Indifferent`: an entry encodes to the same bytes against both tunes.
* **`orderFree_iff`**: the order of the entries does not matter exactly when each of them is
  indifferent to any of the others being in place; `res` and `load` are not (`order_matters`).
-/

namespace RustyTune.TuneModel.Msq

open TsIni Exec

variable {F : Type}

/-- The numbers that an entry gives its constant, as many as the constant has. -/
def numbers (c : ConstantDef F) : MsqValue F → Option (List F)
  | .num v => if c.cls = .scalar then some [v] else none
  | .array values =>
    if c.cls = .array ∧ values.length = c.elementCount then some values else none
  | .text _ => none

theorem numbers_eq_some {c : ConstantDef F} {value : MsqValue F} {values : List F} :
    numbers c value = some values ↔
      (c.cls = .scalar ∧ ∃ v, value = .num v ∧ values = [v]) ∨
        (c.cls = .array ∧ value = .array values ∧ values.length = c.elementCount) := by
  cases value with
  | num v => simp [numbers, eq_comm]
  | text s => simp [numbers]
  | array vs =>
    simp only [numbers, Option.ite_none_right_eq_some, Option.some.injEq, reduceCtorEq,
      false_and, exists_false, and_false, false_or, MsqValue.array.injEq]
    constructor
    · rintro ⟨⟨hcls, hlen⟩, rfl⟩
      exact ⟨hcls, rfl, hlen⟩
    · rintro ⟨hcls, rfl, hlen⟩
      exact ⟨⟨hcls, hlen⟩, rfl⟩

theorem numbers_count {c : ConstantDef F} {value : MsqValue F} {values : List F}
    (h : numbers c value = some values) :
    (c.cls = .scalar ∨ c.cls = .array) ∧ values.length = valueCount c := by
  rcases numbers_eq_some.mp h with ⟨hcls, v, -, rfl⟩ | ⟨hcls, -, hlen⟩
  · exact ⟨Or.inl hcls, by simp [valueCount, hcls]⟩
  · exact ⟨Or.inr hcls, by simp [valueCount, hcls, hlen]⟩

variable [F64 F] (m : Machine)

/-- The raw values that numbers encode to against `t`, one after the other, as far as scale and
translate evaluate. -/
def Codes (t : Tune F) (c : ConstantDef F) (pageIdx offset : ℕ) (values : List F) (raws : List ℤ) :
    Prop :=
  Encodes m t c pageIdx offset values raws ∧ Stops m t c pageIdx offset values raws

variable {m} {t t₁ t' : Tune F} {name : String} {c : ConstantDef F} {e : String × MsqValue F}
  {pageIdx offset : ℕ} {values : List F} {raws : List ℤ}

theorem Codes.unique {raws' : List ℤ} (h : Codes m t c pageIdx offset values raws)
    (h' : Codes m t c pageIdx offset values raws') : raws' = raws :=
  h.1.stops_unique h.2 h'.1 h'.2

theorem Codes.length_le (h : Codes m t c pageIdx offset values raws) :
    raws.length ≤ values.length := h.1.1

theorem codes_nil : Codes m t c pageIdx offset [] raws ↔ raws = [] := by
  constructor
  · intro h
    exact List.length_eq_zero_iff.mp (Nat.le_zero.mp h.length_le)
  · rintro rfl
    exact ⟨⟨Nat.le_refl _, fun _ _ _ h => nomatch h⟩, Or.inl rfl⟩

/-- The first number is not encoded, or it is and the others are after it is stored. -/
theorem codes_cons {v : F} : Codes m t c pageIdx offset (v :: values) raws ↔
    (raws = [] ∧ ∃ er, (t.coding m c).run = .ok (.error er)) ∨
      ∃ s raws', (t.coding m c).run = .ok (.ok s) ∧ raws = quantise c s v :: raws' ∧
        Codes m (t.writePage pageIdx offset c.ty (quantise c s v)) c pageIdx (offset + c.ty.size)
          values raws' := by
  constructor
  · rintro ⟨henc, hstop⟩
    cases raws with
    | nil =>
      rcases hstop with h | ⟨-, er, her⟩
      · exact absurd h (Nat.succ_ne_zero _).symm
      · rw [Tune.store_nil] at her
        exact Or.inl ⟨rfl, er, her⟩
    | cons raw raws =>
      obtain ⟨s, hs, rfl⟩ := henc.2 0 v raw rfl rfl
      rw [List.take_zero, Tune.store_nil] at hs
      refine Or.inr ⟨s, raws, hs, rfl, ⟨Nat.le_of_succ_le_succ henc.1, fun k v' raw' hv' hraw' => ?_⟩,
        ?_⟩
      · obtain ⟨s', hs', hq⟩ := henc.2 (k + 1) v' raw' hv' hraw'
        rw [List.take_succ_cons, Tune.store_cons] at hs'
        exact ⟨s', hs', hq⟩
      · rw [Stops, Tune.store_cons, List.length_cons, List.length_cons] at hstop
        exact hstop.imp Nat.succ.inj (And.imp_left Nat.lt_of_succ_lt_succ)
  · rintro (⟨rfl, er, her⟩ | ⟨s, raws', hs, rfl, henc, hstop⟩)
    · exact ⟨⟨Nat.zero_le _, fun _ _ _ _ h => nomatch h⟩,
        Or.inr ⟨Nat.succ_pos _, er, by rwa [Tune.store_nil]⟩⟩
    · refine ⟨henc.cons hs, ?_⟩
      rw [Stops, Tune.store_cons, List.length_cons, List.length_cons]
      exact hstop.imp (congrArg Nat.succ) (And.imp_left Nat.succ_lt_succ)

/-! ## Turns -/

theorem applyElements_of_codes (hcls : c.cls = .array)
    (hloc : Tune.location c = some (pageIdx, offset)) :
    ∀ {values : List F} {raws : List ℤ} {i : ℕ} {t : Tune F}, t.constant name = some c →
      i + values.length ≤ c.elementCount →
      Codes m t c pageIdx (offset + i * c.ty.size) values raws →
      (raws ≠ [] → ∃ p, t.page pageIdx = some p) →
      ∃ r, applyElements m name i values t =
        .ok (r, t.store pageIdx (offset + i * c.ty.size) c.ty raws)
  | [], raws, i, t, _, _, hcodes, _ => by
    obtain rfl := codes_nil.mp hcodes
    exact ⟨.ok (), by rw [Tune.store_nil]; rfl⟩
  | v :: values, raws, i, t, hc, hi, hcodes, hpage => by
    rw [List.length_cons] at hi
    rcases codes_cons.mp hcodes with ⟨rfl, er, her⟩ | ⟨s, raws, hs, rfl, hrest⟩
    · refine ⟨.error er, ?_⟩
      have hrun : (t.setArrayElementUnclamped m name i v).run = .ok (.error er) :=
        (Tune.setElement_error hc hcls (by omega)).mpr (Or.inr ⟨by simp [hloc], her⟩)
      rw [applyElements, hrun, Tune.store_nil]
      rfl
    · obtain ⟨p, hp⟩ := hpage (List.cons_ne_nil _ _)
      have hrun : (t.setArrayElementUnclamped m name i v).run = .ok (.ok _) :=
        (Tune.setElement_ok hc hcls (by omega)).mpr ⟨pageIdx, offset, s, p, hloc, hs, hp, rfl⟩
      rw [Nat.add_assoc, ← Nat.succ_mul] at hrest
      obtain ⟨r, hr⟩ := applyElements_of_codes hcls hloc
        ((Tune.constant_writePage name).trans hc) (by omega) hrest
        fun _ => ⟨_, Tune.page_writePage_self hp⟩
      refine ⟨r, ?_⟩
      rw [applyElements, hrun, Tune.store_cons, Nat.add_assoc, ← Nat.succ_mul]
      exact hr

/-- **The turn of an entry of numbers stores what they encode to.** -/
theorem turn_numbers (hc : t.constant e.1 = some c) (hn : numbers c e.2 = some values)
    (hloc : Tune.location c = some (pageIdx, offset)) : turn m t e = .ok t' ↔
      ∃ raws, Codes m t c pageIdx offset values raws ∧
        (raws ≠ [] → ∃ p, t.page pageIdx = some p) ∧ t' = t.store pageIdx offset c.ty raws := by
  rw [turn_of_constant hc]
  rcases numbers_eq_some.mp hn with ⟨hcls, v, hv, rfl⟩ | ⟨hcls, hv, hlen⟩
  · rw [hv]
    simp only [turn_scalar hc hcls, codes_cons, codes_nil]
    constructor
    · rintro ⟨r, ⟨er, -, rfl, ⟨hno, -⟩ | ⟨-, her⟩⟩ | ⟨i, o, s, p, hloc', hs, hp, -, rfl⟩⟩
      · exact nomatch hloc.symm.trans hno
      · exact ⟨[], Or.inl ⟨rfl, er, her⟩, fun h => absurd rfl h, Tune.store_nil.symm⟩
      · obtain ⟨rfl, rfl⟩ := Prod.mk.inj (Option.some.inj (hloc.symm.trans hloc'))
        exact ⟨_, Or.inr ⟨s, [], hs, rfl, rfl⟩, fun _ => ⟨p, hp⟩, (Tune.store_singleton _).symm⟩
    · rintro ⟨raws, ⟨rfl, er, her⟩ | ⟨s, raws', hs, rfl, rfl⟩, hpage, rfl⟩
      · exact ⟨_, Or.inl ⟨er, rfl, Tune.store_nil, Or.inr ⟨by simp [hloc], her⟩⟩⟩
      · obtain ⟨p, hp⟩ := hpage (List.cons_ne_nil _ _)
        exact ⟨_, Or.inr ⟨pageIdx, offset, s, p, hloc, hs, hp, rfl, Tune.store_singleton _⟩⟩
  · rw [hv]
    constructor
    · rintro ⟨r, hval⟩
      rcases turn_array hc hcls hlen hval with ⟨rfl, -, rfl⟩ | ⟨-, hno, -⟩ |
        ⟨i, o, hloc', raws, henc, rfl, hpage, hend⟩
      · exact ⟨[], codes_nil.mpr rfl, fun h => absurd rfl h, Tune.store_nil.symm⟩
      · exact nomatch hloc.symm.trans hno
      · obtain ⟨rfl, rfl⟩ := Prod.mk.inj (Option.some.inj (hloc.symm.trans hloc'))
        exact ⟨raws, ⟨henc, hend.imp And.right fun ⟨hlt, er, _, her⟩ => ⟨hlt, er, her⟩⟩, hpage, rfl⟩
    · rintro ⟨raws, hcodes, hpage, rfl⟩
      rw [show offset = offset + 0 * c.ty.size by rw [Nat.zero_mul, Nat.add_zero]] at hcodes
      obtain ⟨r, hr⟩ := applyElements_of_codes hcls hloc hc (by omega) hcodes hpage
      rw [Nat.zero_mul, Nat.add_zero] at hr
      refine ⟨r, ?_⟩
      simp only [applyValue, hcls, hlen, ne_eq, not_true_eq_false, if_false]
      exact hr

/-- An entry of no numbers, or without a place for them, leaves the tune. -/
theorem turn_idle (h : ∀ c, t.constant e.1 = some c → c.cls ≠ .bits ∧
    (numbers c e.2 = none ∨ Tune.location c = none)) : turn m t e = .ok t := by
  rcases hc : t.constant e.1 with - | c
  · exact (turn_of_unknown hc).mpr rfl
  obtain ⟨hbits, hidle⟩ := h c hc
  obtain ⟨name, value⟩ := e
  rw [turn_of_constant hc]
  cases hcls : c.cls with
  | bits => exact absurd hcls hbits
  | string => exact ⟨_, by simp only [applyValue, hcls]; rfl⟩
  | scalar =>
    cases value with
    | text _ | array _ => exact ⟨_, by simp only [applyValue, hcls]; rfl⟩
    | num v =>
      have hno : Tune.location c = none := hidle.resolve_left (by simp [numbers, hcls])
      exact ⟨_, (turn_scalar hc hcls).mpr (Or.inl ⟨_, rfl, rfl, Or.inl ⟨hno, rfl⟩⟩)⟩
  | array =>
    cases value with
    | num _ | text _ => exact ⟨_, by simp only [applyValue, hcls]; rfl⟩
    | array values =>
      by_cases hlen : values.length = c.elementCount
      · have hno : Tune.location c = none := hidle.resolve_left (by simp [numbers, hcls, hlen])
        simp only [applyValue, hcls, hlen, ne_eq, not_true_eq_false, if_false]
        cases values with
        | nil => exact ⟨_, rfl⟩
        | cons v values =>
          rw [List.length_cons] at hlen
          have hrun : (t.setArrayElementUnclamped m name 0 v).run = .ok (.error _) :=
            (Tune.setElement_error hc hcls (by omega)).mpr (Or.inl ⟨hno, rfl⟩)
          exact ⟨_, by rw [applyElements, hrun]; rfl⟩
      · exact ⟨_, by simp only [applyValue, hcls, hlen, ne_eq, not_false_eq_true, if_true]; rfl⟩

omit [F64 F] in
/-- Whether a field can be set does not depend on the word. -/
theorem fieldSet_total {lo hi : UInt8} {cur idx w : BitVec 64}
    (h : fieldSet m lo hi cur idx = .ok w) (cur' : BitVec 64) :
    ∃ w', fieldSet m lo hi cur' idx = .ok w' := by
  simp only [fieldSet, bind_eq_ok, pure_eq_ok] at h ⊢
  obtain ⟨mask, hm, shifted, hs, -⟩ := h
  exact ⟨_, mask, hm, shifted, hs, rfl⟩

omit [F64 F] in
theorem located_of_sameFrame (h : SameFrame t t₁) {p : PageState}
    (hl : t.located c = some (p, offset)) :
    ∃ p₁, t₁.located c = some (p₁, offset) ∧ p₁.data.length = p.data.length := by
  obtain ⟨i, hloc, hp⟩ := Tune.located_eq_some.mp hl
  obtain ⟨p₁, hp₁, hlen, -⟩ := h.page hp
  exact ⟨p₁, Tune.located_eq_some.mpr ⟨i, hloc, hp₁⟩, hlen⟩

omit [F64 F] in
theorem readRaw_of_length_eq {b b' : List UInt8} {ty : DataType} (hlen : b'.length = b.length)
    {cur : ℤ} (h : readRaw b offset ty = some cur) : ∃ cur', readRaw b' offset ty = some cur' :=
  ⟨_, readRaw_of_le (hlen ▸ (readRaw_eq_some.mp h).1)⟩

theorem fileBitsIndex_of_sameFrame (h : SameFrame t t₁) (n : String) (value : MsqValue F) :
    fileBitsIndex t₁ n value = fileBitsIndex t n value := by
  cases value <;> simp only [fileBitsIndex, h.constant]

/-- What is left of a bit field that cannot be set. -/
theorem bits_error_of_sameFrame (h : SameFrame t t₁) (hc : t.constant name = some c)
    (hcls : c.cls = .bits) {user : F} {er : TuneError}
    (hrun : (t.setConstantUnclamped m name user).run = .ok (.error er)) :
    (t₁.setConstantUnclamped m name user).run = .ok (.error er) := by
  refine (Tune.setBits_error ((h.constant name).trans hc) hcls).mpr ?_
  rcases (Tune.setBits_error hc hcls).mp hrun with hno | hno | ⟨lo, hi, p, o, hsh, hl, hno, he⟩
  · exact Or.inl hno
  · exact Or.inr (Or.inl hno)
  · obtain ⟨p₁, hl₁, hlen⟩ := located_of_sameFrame h hl
    refine Or.inr (Or.inr ⟨lo, hi, p₁, o, hsh, hl₁, ?_, he⟩)
    rw [readRaw_eq_none, hlen]
    exact readRaw_eq_none.mp hno

/-- **The turn of a bit field puts in the same bits, whatever the tune.** -/
theorem turn_bits_alike (h : SameFrame t t₁) (hc : t.constant e.1 = some c) (hcls : c.cls = .bits)
    (hturn : turn m t e = .ok t') : ∃ t₁', turn m t₁ e = .ok t₁' ∧ ∀ j i,
      t₁.bit j i = t.bit j i → t₁'.bit j i = t'.bit j i := by
  have hc₁ := (h.constant e.1).trans hc
  obtain ⟨r, hval⟩ := (turn_of_constant hc).mp hturn
  simp only [turn_of_constant hc₁]
  simp only [applyValue, hcls, fileBitsIndex_of_sameFrame h] at hval ⊢
  rcases hidx : fileBitsIndex t e.1 e.2 with - | idx
  · rw [hidx] at hval
    obtain ⟨rfl, rfl⟩ := Prod.mk.inj (pure_eq_ok.mp hval)
    exact ⟨t₁, ⟨_, rfl⟩, fun _ _ hbit => hbit⟩
  · rw [hidx] at hval
    rcases written_eq_ok.mp hval with ⟨er, hrun, rfl, rfl⟩ | ⟨hrun, rfl⟩
    · exact ⟨t₁, ⟨_, written_eq_ok.mpr (Or.inl ⟨er, bits_error_of_sameFrame h hc hcls hrun, rfl, rfl⟩)⟩,
        fun _ _ hbit => hbit⟩
    · obtain ⟨lo, hi, i, o, p, cur, w, hsh, hloc, hp, hcur, hset, rfl⟩ :=
        (Tune.setBits_ok hc hcls).mp hrun
      obtain ⟨p₁, hp₁, hlen, -⟩ := h.page hp
      obtain ⟨cur₁, hcur₁⟩ := readRaw_of_length_eq hlen hcur
      obtain ⟨w₁, hset₁⟩ := fieldSet_total hset (BitVec.ofInt 64 cur₁)
      obtain ⟨mask, hm, -⟩ := fieldSet_ok hset
      refine ⟨t₁.writePage i o c.ty w₁.toInt, ⟨.ok (), written_eq_ok.mpr (Or.inr
        ⟨(Tune.setBits_ok hc₁ hcls).mpr
          ⟨lo, hi, i, o, p₁, cur₁, w₁, hsh, hloc, hp₁, hcur₁, hset₁, rfl⟩, rfl⟩)⟩, ?_⟩
      intro j b hbit
      rw [Tune.bit_fieldSet hp hcur hset hm, Tune.bit_fieldSet hp₁ hcur₁ hset₁ hm, hbit]

/-! ## One entry over the others -/

variable (m)

/-- **Against `t₁` the numbers of an entry encode to the bytes that they encode to against `t`**;
on a page that the tune does not have, to nothing. -/
def Indifferent (t t₁ : Tune F) (c : ConstantDef F) (value : MsqValue F) : Prop :=
  ∀ values pageIdx offset, numbers c value = some values →
    Tune.location c = some (pageIdx, offset) →
    ∃ raws raws₁, Codes m t c pageIdx offset values raws ∧
      Codes m t₁ c pageIdx offset values raws₁ ∧
      match t.page pageIdx with
      | some p => writeRaws p.data offset c.ty raws₁ = writeRaws p.data offset c.ty raws
      | none => raws₁ = []

variable {m}

/-- **An entry leaves the same in its place exactly when it is indifferent.** -/
theorem alike_iff (h : SameFrame t t₁) (hsame : ∀ j i, Owns m c j i → t₁.bit j i = t.bit j i)
    (hc : t.constant e.1 = some c) (hturn : turn m t e = .ok t') :
    (∃ t₁', turn m t₁ e = .ok t₁' ∧ ∀ j i, Owns m c j i → t₁'.bit j i = t'.bit j i) ↔
      Indifferent m t t₁ c e.2 := by
  have hc₁ := (h.constant e.1).trans hc
  by_cases hcls : c.cls = .bits
  · refine iff_of_true ?_ fun values i o hn => ?_
    · obtain ⟨t₁', hturn₁, hbits⟩ := turn_bits_alike h hc hcls hturn
      exact ⟨t₁', hturn₁, fun j i hown => hbits j i (hsame j i hown)⟩
    · exact absurd (numbers_count hn).1 (by simp [hcls])
  by_cases hidle : numbers c e.2 = none ∨ Tune.location c = none
  · have hidles : ∀ u : Tune F, u.constant e.1 = some c → turn m u e = .ok u := fun u hu =>
      turn_idle fun c' hc' => by
        obtain rfl := Option.some.inj (hu.symm.trans hc')
        exact ⟨hcls, hidle⟩
    obtain rfl := Except.ok.inj (hturn.symm.trans (hidles t hc))
    refine iff_of_true ⟨t₁, hidles t₁ hc₁, hsame⟩ fun values i o hn hloc => ?_
    rcases hidle with hno | hno
    · exact nomatch hn.symm.trans hno
    · exact nomatch hloc.symm.trans hno
  obtain ⟨hn, hloc⟩ := not_or.mp hidle
  obtain ⟨values, hn⟩ := Option.ne_none_iff_exists'.mp hn
  obtain ⟨⟨pageIdx, offset⟩, hloc⟩ := Option.ne_none_iff_exists'.mp hloc
  obtain ⟨hbytes, hcount⟩ := numbers_count hn
  obtain ⟨raws, hcodes, hpage, rfl⟩ := (turn_numbers hc hn hloc).mp hturn
  constructor
  · rintro ⟨t₁', hturn₁, hown⟩ values' i o hn' hloc'
    obtain rfl := Option.some.inj (hn.symm.trans hn')
    obtain ⟨rfl, rfl⟩ := Prod.mk.inj (Option.some.inj (hloc.symm.trans hloc'))
    obtain ⟨raws₁, hcodes₁, hpage₁, rfl⟩ := (turn_numbers hc₁ hn hloc).mp hturn₁
    refine ⟨raws, raws₁, hcodes, hcodes₁, ?_⟩
    cases hp : t.page pageIdx with
    | none =>
      by_contra hne
      obtain ⟨p₁, hp₁⟩ := hpage₁ hne
      exact nomatch hp₁.symm.trans (h.page_none hp)
    | some p =>
      refine eq_of_testBit (by simp) fun i _ => ?_
      rw [← Tune.bit_of_page (Tune.page_store_self hp raws₁),
        ← Tune.bit_of_page (Tune.page_store_self hp raws)]
      by_cases hi : Owns m c pageIdx i
      · rw [← hown pageIdx i hi, h.bit_store_congr (hsame pageIdx i hi)]
      · have hle := hcodes.length_le
        have hle₁ := hcodes₁.length_le
        rw [bit_store_of_not_owns hbytes hloc (by omega) hi,
          bit_store_of_not_owns hbytes hloc (by omega) hi]
  · intro hind
    obtain ⟨raws', raws₁, hcodes', hcodes₁, hmatch⟩ := hind values pageIdx offset hn hloc
    obtain rfl := hcodes.unique hcodes'
    cases hp : t.page pageIdx with
    | none =>
      rw [hp] at hmatch
      obtain rfl : raws₁ = [] := hmatch
      have hnil : raws' = [] := by
        by_contra hne
        obtain ⟨p, hp'⟩ := hpage hne
        exact nomatch hp'.symm.trans hp
      refine ⟨t₁, (turn_numbers hc₁ hn hloc).mpr ⟨[], hcodes₁, fun h => absurd rfl h,
        Tune.store_nil.symm⟩, fun j i hi => ?_⟩
      rw [hnil, Tune.store_nil]
      exact hsame j i hi
    | some p =>
      rw [hp] at hmatch
      dsimp only at hmatch
      obtain ⟨p₁, hp₁, -⟩ := h.page hp
      refine ⟨_, (turn_numbers hc₁ hn hloc).mpr ⟨raws₁, hcodes₁, fun _ => ⟨p₁, hp₁⟩, rfl⟩, ?_⟩
      intro j i hi
      rw [h.bit_store_congr (hsame j i hi)]
      by_cases hj : pageIdx = j
      · subst hj
        rw [Tune.bit_of_page (Tune.page_store_self hp raws₁),
          Tune.bit_of_page (Tune.page_store_self hp raws')]
        exact congrArg (fun d => (leNat d).testBit i) hmatch
      · rw [Tune.bit_store fun h => hj h.1, Tune.bit_store fun h => hj h.1]

/-! ## The whole file -/

variable (m)

/-- The bit lies in the page and belongs to the entry's constant. -/
def Occupies (t : Tune F) (e : String × MsqValue F) (j i : ℕ) : Prop :=
  ∃ c p, t.constant e.1 = some c ∧ t.page j = some p ∧ i < 8 * p.data.length ∧ Owns m c j i

/-- No bit of a page belongs to two entries. -/
def PlacesDisjoint (t : Tune F) (file : MsqFile F) : Prop :=
  ∀ e ∈ file.constants.entries, ∀ e' ∈ file.constants.entries, e ≠ e' →
    ∀ j i, Occupies m t e j i → ¬ Occupies m t e' j i

variable {m}

omit [F64 F] in
/-- A bit past the end of its page is no bit of the frame. -/
theorem bit_past {u : Tune F} (h : SameFrame t u) {j i : ℕ}
    (hpast : ∀ p, t.page j = some p → 8 * p.data.length ≤ i) : u.bit j i = false := by
  refine Tune.bit_of_length_le fun p hp => ?_
  obtain ⟨p₀, hp₀, hlen, -⟩ := h.symm.page hp
  have := hpast p₀ hp₀
  omega

/-- A turn leaves the bits that its entry does not occupy. -/
theorem turn_keeps_bit {u u' : Tune F} (h : SameFrame t u) (hturn : turn m u e = .ok u') {j i : ℕ}
    (hno : ¬ Occupies m t e j i) : u'.bit j i = u.bit j i := by
  obtain ⟨hframe, hkeeps⟩ := turn_keeps hturn
  by_cases hpast : ∀ p, t.page j = some p → 8 * p.data.length ≤ i
  · rw [bit_past (h.trans hframe) hpast, bit_past h hpast]
  · push Not at hpast
    obtain ⟨p, hp, hi⟩ := hpast
    refine hkeeps j i fun c hc hown => hno ⟨c, p, ?_, hp, hi, hown⟩
    rwa [← h.constant]

/-- The turns of entries as actions on the bits of the pages of `t`. -/
def places (m : Machine) (t : Tune F) : Places (Tune F) (String × MsqValue F) (ℕ × ℕ) Bool where
  act := turn m
  read u i := u.bit i.1 i.2
  owns e i := Occupies m t e i.1 i.2
  Frame := SameFrame t
  act_frame h hturn := h.trans (turn_keeps hturn).1
  act_read h hturn hno := turn_keeps_bit h hturn hno
  ext h h' hbits := (h'.symm.trans h).eq_of_bits fun j i => hbits (j, i)

/-- **No entry depends on the others**: whatever selection of the others is in place, each as it
encodes against `t`, the entry encodes to the same bytes. -/
def Unaffected (m : Machine) (t : Tune F) (file : MsqFile F) : Prop :=
  ∀ e ∈ file.constants.entries, ∀ S, S.Sublist file.constants.entries → e ∉ S →
    ∀ t₁, (places m t).Overlaid t S t₁ → ∀ c, t.constant e.1 = some c → Indifferent m t t₁ c e.2

/-- Bits that agree where the entry lies in the page agree in all its constant's bits. -/
theorem bits_of_occupied {u u' : Tune F} (h : SameFrame t u) (h' : SameFrame t u')
    (hc : t.constant e.1 = some c) :
    (∀ i, (places m t).owns e i → (places m t).read u' i = (places m t).read u i) ↔
      ∀ j i, Owns m c j i → u'.bit j i = u.bit j i := by
  constructor
  · intro hocc j i hown
    by_cases hpast : ∀ p, t.page j = some p → 8 * p.data.length ≤ i
    · rw [bit_past h' hpast, bit_past h hpast]
    · push Not at hpast
      obtain ⟨p, hp, hi⟩ := hpast
      exact hocc (j, i) ⟨c, p, hc, hp, hi, hown⟩
  · rintro hown ⟨j, i⟩ ⟨c', p, hc', -, -, hown'⟩
    obtain rfl := Option.some.inj (hc.symm.trans hc')
    exact hown j i hown'

/-- A turn that returns from one tune of the frame, of an entry that is indifferent to the tune it
returns from, returns from `t`. -/
theorem turn_returns {u u' : Tune F} (h : SameFrame t u) (hturn : turn m u e = .ok u')
    (hind : ∀ c, t.constant e.1 = some c → Indifferent m t t c e.2) :
    ∃ t', turn m t e = .ok t' := by
  rcases hc : t.constant e.1 with - | c
  · exact ⟨t, (turn_of_unknown hc).mpr rfl⟩
  by_cases hcls : c.cls = .bits
  · obtain ⟨t', ht', -⟩ := turn_bits_alike h.symm ((h.constant e.1).trans hc) hcls hturn
    exact ⟨t', ht'⟩
  by_cases hidle : numbers c e.2 = none ∨ Tune.location c = none
  · refine ⟨t, turn_idle fun c' hc' => ?_⟩
    obtain rfl := Option.some.inj (hc.symm.trans hc')
    exact ⟨hcls, hidle⟩
  obtain ⟨hn, hloc⟩ := not_or.mp hidle
  obtain ⟨values, hn⟩ := Option.ne_none_iff_exists'.mp hn
  obtain ⟨⟨pageIdx, offset⟩, hloc⟩ := Option.ne_none_iff_exists'.mp hloc
  obtain ⟨raws, raws₁, hcodes, hcodes₁, hmatch⟩ := hind c hc values pageIdx offset hn hloc
  obtain rfl := hcodes.unique hcodes₁
  refine ⟨_, (turn_numbers hc hn hloc).mpr ⟨raws₁, hcodes, fun hne => ?_, rfl⟩⟩
  cases hp : t.page pageIdx with
  | none =>
    rw [hp] at hmatch
    exact absurd hmatch hne
  | some p => exact ⟨p, rfl⟩

/-- Entries that are done in any order are steady exactly when they are unaffected. -/
theorem steady_iff {file : MsqFile F} (hdisj : PlacesDisjoint m t file)
    (hrun : (places m t).run file.constants.entries t = .ok t') :
    (places m t).Steady t file.constants.entries ↔ Unaffected m t file := by
  -- the tune under an entry agrees with `t` in the entry's bits
  have hsame : ∀ {e S t₁ c}, e ∈ file.constants.entries → S.Sublist file.constants.entries →
      e ∉ S → (places m t).Overlaid t S t₁ → t.constant e.1 = some c →
      ∀ j i, Owns m c j i → t₁.bit j i = t.bit j i := by
    intro e S t₁ c he hS heS hover hc
    refine (bits_of_occupied (.refl t) hover.frame hc).mp fun i hown => ?_
    exact hover.outside i fun e' he' hown' =>
      hdisj e' (hS.subset he') e he (fun heq => heS (heq ▸ he')) i.1 i.2 hown' hown
  constructor
  · intro hsteady e he S hS heS t₁ hover c hc
    obtain ⟨u, u₁, hturn, hturn₁, hown⟩ := hsteady e he S hS heS t₁ hover
    refine (alike_iff hover.frame (hsame he hS heS hover hc) hc hturn).mp ⟨u₁, hturn₁, ?_⟩
    exact (bits_of_occupied (turn_keeps hturn).1
      (SameFrame.trans hover.frame (turn_keeps hturn₁).1) hc).mp hown
  · intro hun e he S hS heS t₁ hover
    -- the run gives a tune from which the turn returns
    obtain ⟨l₁, l₂, hl⟩ := List.append_of_mem he
    rw [hl] at hrun
    obtain ⟨u, hu, hrun'⟩ := Places.run_append_eq_ok.mp hrun
    obtain ⟨u', hu', -⟩ := Places.run_cons_eq_ok.mp hrun'
    have hframe : SameFrame t u := Places.run_frame (P := places m t) (SameFrame.refl t) hu
    obtain ⟨t₂, hturn⟩ := turn_returns hframe hu' fun c hc =>
      hun e he [] (List.nil_sublist _) List.not_mem_nil t (.nil (SameFrame.refl t)) c hc
    cases hc : t.constant e.1 with
    | none =>
      have hc₁ : t₁.constant e.1 = none := (Rewrites.constant (SameFrame.toRewrites hover.frame) e.1).trans hc
      refine ⟨t₂, t₁, hturn, (turn_of_unknown hc₁).mpr rfl, ?_⟩
      rintro i ⟨c, p, hc', -⟩
      exact nomatch hc.symm.trans hc'
    | some c =>
      obtain ⟨u₁, hturn₁, hown⟩ := (alike_iff hover.frame (hsame he hS heS hover hc) hc hturn).mpr
        (hun e he S hS heS t₁ hover c hc)
      exact ⟨t₂, u₁, hturn, hturn₁, (bits_of_occupied (turn_keeps hturn).1
        (SameFrame.trans hover.frame (turn_keeps hturn₁).1) hc).mpr hown⟩

/-! ## Applications -/

theorem applyConstant_snd (report : ApplyReport) (u : Tune F) (e : String × MsqValue F) :
    Prod.snd <$> applyConstant m none (report, u) e = turn m u e := by
  obtain ⟨name, value⟩ := e
  simp only [applyConstant, turn, passes, Bool.not_true, Bool.false_eq_true, if_false]
  rcases u.constant name with - | c
  · rfl
  · dsimp only
    rcases applyValue m u name c value with er | ⟨r | r, u'⟩ <;> rfl

/-- One variable of the file, without the report. -/
def pcTurn (m : Machine) (u : Tune F) (e : String × MsqValue F) : Exec (Tune F) :=
  Prod.snd <$> applyPcVariable m none (ApplyReport.empty, u) e

theorem applyPcVariable_snd (report : ApplyReport) (u : Tune F) (e : String × MsqValue F) :
    Prod.snd <$> applyPcVariable m none (report, u) e = pcTurn m u e := by
  obtain ⟨name, value⟩ := e
  simp only [pcTurn, applyPcVariable, passes, Bool.not_true, Bool.false_eq_true, if_false]
  rcases (u.df.pcVariables.get? name).bind fun c => pcUser c value with - | user
  · rfl
  · dsimp only
    rcases (u.setPcValue m name user).run with er | er | u' <;> rfl

theorem apply_iff (m : Machine) (file : MsqFile F) (t t' : Tune F) :
    (∃ report, apply m file t none = .ok (report, t')) ↔
      ∃ t₁, (places m t).run file.constants.entries t = .ok t₁ ∧
        file.pcVariables.entries.foldlM (pcTurn m) t₁ = .ok t' := by
  have hconst : ∀ a, Prod.snd <$> applyConstants m none file.constants.entries (a, t) =
      (places m t).run file.constants.entries t := fun a =>
    foldlM_hom (fun s e => applyConstant_snd s.1 s.2 e) file.constants.entries (a, t)
  have hpc : ∀ a u, Prod.snd <$> file.pcVariables.entries.foldlM (applyPcVariable m none) (a, u) =
      file.pcVariables.entries.foldlM (pcTurn m) u := fun a u =>
    foldlM_hom (fun s e => applyPcVariable_snd s.1 s.2 e) file.pcVariables.entries (a, u)
  rw [← hconst ApplyReport.empty]
  rcases h : applyConstants m none file.constants.entries (ApplyReport.empty, t) with er | ⟨a, u⟩
  · refine iff_of_false ?_ ?_
    · rintro ⟨report, happ⟩
      rw [apply, h] at happ
      cases happ
    · rintro ⟨t₁, hrun, -⟩
      cases hrun
  · have hsnd : ∀ t₁, (Prod.snd <$> (Except.ok (a, u) : Exec (ApplyReport × Tune F))) = .ok t₁ ↔
        u = t₁ := fun t₁ => by simp [Functor.map, Except.map]
    simp only [apply, h, ok_bind, hsnd, exists_eq_left', ← hpc a u]
    rcases file.pcVariables.entries.foldlM (applyPcVariable m none) (a, u) with er | ⟨a', u'⟩ <;>
      simp [Functor.map, Except.map]

/-- The variables leave the local data. -/
theorem pcTurns_data : ∀ {es : List (String × MsqValue F)} {u u' : Tune F},
    es.foldlM (pcTurn m) u = .ok u' → u'.data = u.data := by
  intro es u u' h
  rw [← foldlM_hom (fun s e => applyPcVariable_snd s.1 s.2 e) es (ApplyReport.empty, u)] at h
  rcases hrun : es.foldlM (applyPcVariable m none) (ApplyReport.empty, u) with er | ⟨a, u₁⟩
  · rw [hrun] at h
    exact nomatch h
  · rw [hrun] at h
    obtain rfl : u₁ = u' := Except.ok.inj h
    exact congrArg (List.map PageState.data) (pcVariables_stay hrun).pages

/-- **The order of the entries does not matter exactly when no entry depends on the others.** -/
theorem orderFree_iff (m : Machine) (file : MsqFile F) (t t' : Tune F) (report : ApplyReport)
    (h : apply m file t none = .ok (report, t')) (hdisj : PlacesDisjoint m t file) :
    (∀ file' : MsqFile F, file'.constants.entries.Perm file.constants.entries →
      file'.pcVariables = file.pcVariables →
        ∃ report'' t'', apply m file' t none = .ok (report'', t'') ∧ t''.data = t'.data) ↔
      Unaffected m t file := by
  obtain ⟨t₁, hrun, hpc⟩ := (apply_iff m file t t').mp ⟨report, h⟩
  have hnd : file.constants.entries.Nodup := List.Nodup.of_map Prod.fst file.constants.nodup
  have hdisj' : (places m t).Disjoint file.constants.entries := fun e he e' he' hne i hown =>
    hdisj e he e' he' hne i.1 i.2 hown
  have hframe : ∀ {l u}, (places m t).run l t = .ok u → SameFrame t u := fun hu =>
    Places.run_frame (P := places m t) (SameFrame.refl t) hu
  rw [← steady_iff hdisj hrun,
    ← Places.perm_iff (P := places m t) (SameFrame.refl t) hnd hdisj' hrun]
  constructor
  · intro hall l' hl'
    have hnd' : (l'.map Prod.fst).Nodup :=
      (hl'.map Prod.fst).nodup_iff.mpr file.constants.nodup
    obtain ⟨report'', t'', happ, hdata⟩ := hall { file with constants := ⟨l', hnd'⟩ } hl' rfl
    obtain ⟨t₂, hrun₂, hpc₂⟩ := (apply_iff m _ t t'').mp ⟨report'', happ⟩
    rw [pcTurns_data hpc, pcTurns_data hpc₂] at hdata
    have heq : t₂ = t₁ := ((hframe hrun).symm.trans (hframe hrun₂)).eq_of_bits
      (SameFrame.bit_eq_of_data hdata)
    exact heq ▸ hrun₂
  · intro hall file' hperm hpcs
    obtain ⟨report'', happ⟩ := (apply_iff m file' t t').mpr ⟨t₁, hall _ hperm, hpcs ▸ hpc⟩
    exact ⟨report'', t', happ, rfl⟩

/-! ## A scale that is another entry -/

/-- A load in steps of the resolution that the byte before it gives. -/
def resolution : Tune XRat :=
  plainTune [plainConstant "res" .scalar .u08 0 none (.num 1),
    plainConstant "load" .scalar .u08 1 none (.expr (.ident "res"))] [[1, 0]]

/-- A file of a resolution and a load, in the order of the flag. -/
def resAndLoad (resFirst : Bool) : MsqFile XRat :=
  { MsqFile.empty with
    constants := IndexMap.ofList (if resFirst then [("res", .num 2), ("load", .num 10)]
      else [("load", .num 10), ("res", .num 2)]) }

theorem resolution_disjoint (resFirst : Bool) :
    PlacesDisjoint ⟨.debug, 8⟩ resolution (resAndLoad resFirst) := by
  have hone : ∀ name offset, resolution.constant name = some (plainConstant name .scalar .u08 offset
      none (if name = "res" then .num 1 else .expr (.ident "res"))) →
      ∀ v j i, Occupies ⟨.debug, 8⟩ resolution (name, v) j i → i / 8 = offset.toNat := by
    rintro name offset hname v j i ⟨c, p, hc, -, -, hown⟩
    obtain rfl := Option.some.inj (hname.symm.trans hc)
    obtain ⟨o, hloc, h1, h2⟩ := (Owns.of_bytes (Or.inl rfl)).mp hown
    obtain ⟨-, rfl⟩ : 0 = j ∧ offset.toNat = o := by simpa [Tune.location, plainConstant] using hloc
    have : i / 8 < offset.toNat + 1 := h2
    omega
  have hentries : ∀ e ∈ (resAndLoad resFirst).constants.entries,
      e = ("res", .num 2) ∨ e = ("load", .num 10) := by
    cases resFirst <;> decide
  intro e he e' he' hne j i hocc hocc'
  rcases hentries e he with rfl | rfl <;> rcases hentries e' he' with rfl | rfl
  · exact hne rfl
  · exact absurd ((hone "res" 0 rfl _ j i hocc).symm.trans (hone "load" 1 rfl _ j i hocc')) (by decide)
  · exact absurd ((hone "load" 1 rfl _ j i hocc).symm.trans (hone "res" 0 rfl _ j i hocc')) (by decide)
  · exact hne rfl

theorem exists_apply_of_data (file : MsqFile XRat) (u : Tune XRat) (d : List (List UInt8))
    (h : (apply ⟨.debug, 8⟩ file u none).map (fun r => r.2.data) = .ok d) :
    ∃ report u', apply ⟨.debug, 8⟩ file u none = .ok (report, u') ∧ u'.data = d := by
  rcases happ : apply ⟨.debug, 8⟩ file u none with er | ⟨report, u'⟩
  · rw [happ] at h
    exact nomatch h
  · rw [happ] at h
    exact ⟨report, u', rfl, Except.ok.inj h⟩

theorem resolution_orderFree_iff : ∃ t' : Tune XRat, t'.data = [[2, 5]] ∧
    ((∀ file' : MsqFile XRat, file'.constants.entries.Perm (resAndLoad true).constants.entries →
      file'.pcVariables = (resAndLoad true).pcVariables →
        ∃ report'' t'', apply ⟨.debug, 8⟩ file' resolution none = .ok (report'', t'') ∧
          t''.data = t'.data) ↔
      Unaffected ⟨.debug, 8⟩ resolution (resAndLoad true)) := by
  obtain ⟨report, t', happ, hdata⟩ := exists_apply_of_data (resAndLoad true) resolution
    [[2, 5]] (by decide +kernel)
  exact ⟨t', hdata, orderFree_iff _ _ _ t' report happ (resolution_disjoint true)⟩

/-- **The order of the entries matters**: the load is encoded with the resolution of the file, or
with the one that stood on the page. -/
theorem order_matters :
    ¬ ∀ (m : Machine) (file file' : MsqFile XRat) (t t' : Tune XRat) (report : ApplyReport),
      apply m file t none = .ok (report, t') → PlacesDisjoint m t file →
      file'.constants.entries.Perm file.constants.entries → file'.pcVariables = file.pcVariables →
        ∃ report'' t'', apply m file' t none = .ok (report'', t'') ∧ t''.data = t'.data := by
  intro h
  obtain ⟨report, t', happ, hdata⟩ := exists_apply_of_data (resAndLoad true) resolution
    [[2, 5]] (by decide +kernel)
  obtain ⟨report₂, t₂, happ₂, hdata₂⟩ := exists_apply_of_data (resAndLoad false) resolution
    [[2, 10]] (by decide +kernel)
  obtain ⟨report₃, t₃, happ₃, hdata₃⟩ := h _ _ (resAndLoad false) _ t' report happ
    (resolution_disjoint true) (by decide) rfl
  obtain ⟨-, rfl⟩ := Prod.mk.inj (Except.ok.inj (happ₂.symm.trans happ₃))
  exact absurd ((hdata₂.symm.trans hdata₃).trans hdata) (by decide)

end RustyTune.TuneModel.Msq
