import RustyTune.TuneModel.Fields
import RustyTune.TuneModel.Msq.Apply

/-!
# The turn of an entry

What the turn of one entry of a file does to the tune.

* `Tune.store`: raw values written one after the other on a page.
* `Encodes`: each raw value is what its element encodes to, the elements before it being written.
* **`turn_scalar`**, **`turn_bits`**, **`turn_array`**: the outcomes of a turn, with the tune it
  leaves.
-/

namespace RustyTune.TuneModel

open TsIni Exec

variable {F : Type}

namespace Tune

/-- The tune with raw values written on a page, one after the other. -/
def store (t : Tune F) (pageIdx offset : ℕ) (ty : DataType) (raws : List ℤ) : Tune F :=
  t.modifyPage pageIdx fun p => { p with data := writeRaws p.data offset ty raws }

variable {t : Tune F} {pageIdx offset : ℕ} {ty : DataType}

@[simp] theorem store_nil : t.store pageIdx offset ty [] = t := by
  have h : t.pages.modify pageIdx (fun p => { p with data := writeRaws p.data offset ty [] }) =
      t.pages := by
    refine List.ext_getElem? fun j => ?_
    rw [List.getElem?_modify]
    simp [writeRaws]
  rw [store, modifyPage, h]

theorem store_cons (raw : ℤ) (raws : List ℤ) : t.store pageIdx offset ty (raw :: raws) =
    (t.writePage pageIdx offset ty raw).store pageIdx (offset + ty.size) ty raws := by
  simp only [store, writePage, modifyPage, List.modify_modify_eq]
  rfl

theorem store_singleton (raw : ℤ) :
    t.store pageIdx offset ty [raw] = t.writePage pageIdx offset ty raw := by
  rw [store_cons, store_nil]

@[simp] theorem df_store (raws : List ℤ) : (t.store pageIdx offset ty raws).df = t.df := rfl

@[simp] theorem constant_store (raws : List ℤ) (name : String) :
    (t.store pageIdx offset ty raws).constant name = t.constant name := rfl

theorem page_store (raws : List ℤ) (j : ℕ) : (t.store pageIdx offset ty raws).page j =
    if pageIdx = j then (t.page j).map fun p => { p with data := writeRaws p.data offset ty raws }
    else t.page j := page_modifyPage ..

theorem page_store_self {p : PageState} (hp : t.page pageIdx = some p) (raws : List ℤ) :
    (t.store pageIdx offset ty raws).page pageIdx =
      some { p with data := writeRaws p.data offset ty raws } := by
  rw [page_store, if_pos rfl, hp, Option.map_some]

/-- The local data of all pages. -/
def data (t : Tune F) : List (List UInt8) := t.pages.map PageState.data

theorem getElem?_data (t : Tune F) (j : ℕ) : t.data[j]? = (t.page j).map PageState.data :=
  List.getElem?_map

/-- Values stored on a page change the data unless they change the page. -/
theorem data_store_eq_iff {p : PageState} (hp : t.page pageIdx = some p) (raws : List ℤ) :
    (t.store pageIdx offset ty raws).data = t.data ↔ writeRaws p.data offset ty raws = p.data := by
  constructor
  · intro h
    have := congrArg (·[pageIdx]?) h
    simp only [getElem?_data, page_store_self hp, hp, Option.map_some] at this
    exact Option.some.inj this
  · intro h
    refine List.ext_getElem? fun j => ?_
    rw [getElem?_data, getElem?_data, page_store]
    split_ifs with hj
    · subst hj
      rw [hp, Option.map_some, Option.map_some, Option.map_some, h]
    · rfl

end Tune

namespace Msq

theorem written_eq_ok {t t' : Tune F} {r : Except TuneError Unit} {x : Attempt (Tune F)} :
    written t x = .ok (r, t') ↔
      (∃ e, x.run = .ok (.error e) ∧ r = .error e ∧ t' = t) ∨
        (x.run = .ok (.ok t') ∧ r = .ok ()) := by
  rw [written, bind_eq_ok]
  constructor
  · rintro ⟨e | t₁, hx, h⟩
    · obtain ⟨rfl, rfl⟩ := Prod.mk.inj (pure_eq_ok.mp h)
      exact Or.inl ⟨e, hx, rfl, rfl⟩
    · obtain ⟨rfl, rfl⟩ := Prod.mk.inj (pure_eq_ok.mp h)
      exact Or.inr ⟨hx, rfl⟩
  · rintro (⟨e, hx, rfl, rfl⟩ | ⟨hx, rfl⟩)
    · exact ⟨_, hx, rfl⟩
    · exact ⟨_, hx, rfl⟩

variable [F64 F] {m : Machine} {t t' : Tune F} {name : String} {c : ConstantDef F}
  {r : Except TuneError Unit}

/-- **The turn of a scalar.** -/
theorem turn_scalar (hc : t.constant name = some c) (hcls : c.cls = .scalar) {user : F} :
    applyValue m t name c (.num user) = .ok (r, t') ↔
      (∃ e, r = .error e ∧ t' = t ∧
        ((Tune.location c = none ∧ e = .notEditable name "not a page constant") ∨
          (Tune.location c ≠ none ∧ (t.coding m c).run = .ok (.error e)))) ∨
      (∃ pageIdx offset s p, Tune.location c = some (pageIdx, offset) ∧
        (t.coding m c).run = .ok (.ok s) ∧ t.page pageIdx = some p ∧ r = .ok () ∧
        t' = t.writePage pageIdx offset c.ty (quantise c s user)) := by
  simp only [applyValue, hcls, written_eq_ok, Tune.setScalar_ok hc hcls, Tune.setScalar_error hc hcls]
  constructor
  · rintro (⟨e, h, hr, ht⟩ | ⟨⟨i, o, s, p, hloc, hs, hp, ht⟩, hr⟩)
    · exact Or.inl ⟨e, hr, ht, h⟩
    · exact Or.inr ⟨i, o, s, p, hloc, hs, hp, hr, ht⟩
  · rintro (⟨e, hr, ht, h⟩ | ⟨i, o, s, p, hloc, hs, hp, hr, ht⟩)
    · exact Or.inl ⟨e, h, hr, ht⟩
    · exact Or.inr ⟨⟨i, o, s, p, hloc, hs, hp, ht⟩, hr⟩

/-- **The turn of a bit field.** -/
theorem turn_bits (hc : t.constant name = some c) (hcls : c.cls = .bits) {value : MsqValue F}
    (h : applyValue m t name c value = .ok (r, t')) :
    ((∃ e, r = .error e) ∧ t' = t ∧ ¬ ∃ idx lo hi p offset current,
      fileBitsIndex t name value = some idx ∧ c.shape = some (.bits lo hi) ∧
        t.located c = some (p, offset) ∧ readRaw p.data offset c.ty = some current) ∨
      (∃ idx lo hi pageIdx offset p current raw, fileBitsIndex t name value = some idx ∧
        c.shape = some (.bits lo hi) ∧ Tune.location c = some (pageIdx, offset) ∧
        t.page pageIdx = some p ∧ readRaw p.data offset c.ty = some current ∧
        fieldSet m lo hi (BitVec.ofInt 64 current) (indexBits F idx) = .ok raw ∧ r = .ok () ∧
        t' = t.writePage pageIdx offset c.ty raw.toInt) := by
  simp only [applyValue, hcls] at h
  rcases hidx : fileBitsIndex t name value with - | idx
  · rw [hidx] at h
    obtain ⟨rfl, rfl⟩ := Prod.mk.inj (pure_eq_ok.mp h)
    exact Or.inl ⟨⟨_, rfl⟩, rfl, fun ⟨_, _, _, _, _, _, h, _⟩ => nomatch h⟩
  · rw [hidx] at h
    rcases written_eq_ok.mp h with ⟨e, hrun, hr, ht⟩ | ⟨hrun, hr⟩
    · refine Or.inl ⟨⟨e, hr⟩, ht, ?_⟩
      rintro ⟨idx, lo, hi, p, offset, current, -, hsh, hl, hcur⟩
      rcases (Tune.setBits_error hc hcls).mp hrun with ⟨hloc, -⟩ | ⟨-, hno, -⟩ |
        ⟨lo', hi', p', offset', -, hl', hnone, -⟩
      · obtain ⟨i, hloc', -⟩ := Tune.located_eq_some.mp hl
        exact nomatch hloc.symm.trans hloc'
      · exact hno lo hi hsh
      · obtain ⟨rfl, rfl⟩ := Prod.mk.inj (Option.some.inj (hl.symm.trans hl'))
        exact nomatch hcur.symm.trans hnone
    · obtain ⟨lo, hi, i, o, p, cur, raw, hsh, hloc, hp, hcur, hraw, ht⟩ :=
        (Tune.setBits_ok hc hcls).mp hrun
      exact Or.inr ⟨idx, lo, hi, i, o, p, cur, raw, rfl, hsh, hloc, hp, hcur, hraw, hr, ht⟩

/-! ## Arrays -/

/-- The raw values are what the first elements encode to, one after the other, each against the tune
with those before it written. -/
def Encodes (m : Machine) (t : Tune F) (c : ConstantDef F) (pageIdx offset : ℕ) (values : List F)
    (raws : List ℤ) : Prop :=
  raws.length ≤ values.length ∧ ∀ k v raw, values[k]? = some v → raws[k]? = some raw →
    ∃ s, ((t.store pageIdx offset c.ty (raws.take k)).coding m c).run = .ok (.ok s) ∧
      quantise c s v = raw

theorem Encodes.inRange {pageIdx offset : ℕ} {values : List F} {raws : List ℤ}
    (h : Encodes m t c pageIdx offset values raws) : ∀ raw ∈ raws, InRange c.ty raw := by
  intro raw hraw
  obtain ⟨k, hk, rfl⟩ := List.getElem_of_mem hraw
  obtain ⟨s, -, hs⟩ := h.2 k _ _ (List.getElem?_eq_getElem (Nat.lt_of_lt_of_le hk h.1))
    (List.getElem?_eq_getElem hk)
  rw [← hs]
  exact Tune.quantise_inRange s

theorem Encodes.cons {pageIdx offset : ℕ} {user : F} {values : List F} {s : F × F} {raws : List ℤ}
    (hs : (t.coding m c).run = .ok (.ok s))
    (h : Encodes m (t.writePage pageIdx offset c.ty (quantise c s user)) c pageIdx
      (offset + c.ty.size) values raws) :
    Encodes m t c pageIdx offset (user :: values) (quantise c s user :: raws) := by
  refine ⟨Nat.succ_le_succ h.1, fun k v raw hv hraw => ?_⟩
  cases k with
  | zero =>
    obtain rfl := Option.some.inj (show some user = some v from hv)
    obtain rfl := Option.some.inj (show some _ = some raw from hraw)
    exact ⟨s, by rwa [List.take_zero, Tune.store_nil], rfl⟩
  | succ k =>
    rw [List.take_succ_cons, Tune.store_cons]
    exact h.2 k v raw hv hraw

theorem Encodes.coding_ok {pageIdx offset : ℕ} {values : List F} {raws : List ℤ}
    (h : Encodes m t c pageIdx offset values raws) {k : ℕ} (hk : k < raws.length) :
    ∃ s, ((t.store pageIdx offset c.ty (raws.take k)).coding m c).run = .ok (.ok s) :=
  let ⟨s, hs, _⟩ := h.2 k _ _ (List.getElem?_eq_getElem (Nat.lt_of_lt_of_le hk h.1))
    (List.getElem?_eq_getElem hk)
  ⟨s, hs⟩

theorem Encodes.eq_take {pageIdx offset : ℕ} {values : List F} {raws raws' : List ℤ}
    (h : Encodes m t c pageIdx offset values raws) (h' : Encodes m t c pageIdx offset values raws')
    (hle : raws'.length ≤ raws.length) : raws' = raws.take raws'.length := by
  suffices hk : ∀ k ≤ raws'.length, raws'.take k = raws.take k by
    rw [← hk _ (Nat.le_refl _), List.take_length]
  intro k hk
  induction k with
  | zero => rfl
  | succ k ih =>
    have ih := ih (by omega)
    have hv := List.getElem?_eq_getElem (Nat.lt_of_lt_of_le (Nat.lt_of_succ_le hk) h'.1)
    have hr' := List.getElem?_eq_getElem (Nat.lt_of_succ_le hk)
    have hr := List.getElem?_eq_getElem (Nat.lt_of_lt_of_le (Nat.lt_of_succ_le hk) hle)
    obtain ⟨s, hs, hq⟩ := h.2 k _ _ hv hr
    obtain ⟨s', hs', hq'⟩ := h'.2 k _ _ hv hr'
    rw [ih] at hs'
    obtain rfl := Except.ok.inj (Except.ok.inj (hs.symm.trans hs'))
    rw [List.take_add_one, List.take_add_one, ih, hr, hr', ← hq, ← hq']

/-- The raw values are all there are: one for each element, or no further element is encoded. -/
def Stops (m : Machine) (t : Tune F) (c : ConstantDef F) (pageIdx offset : ℕ) (values : List F)
    (raws : List ℤ) : Prop :=
  raws.length = values.length ∨ (raws.length < values.length ∧
    ∃ e, ((t.store pageIdx offset c.ty raws).coding m c).run = .ok (.error e))

theorem Encodes.stops_unique {pageIdx offset : ℕ} {values : List F} {raws raws' : List ℤ}
    (h : Encodes m t c pageIdx offset values raws) (hs : Stops m t c pageIdx offset values raws)
    (h' : Encodes m t c pageIdx offset values raws')
    (hs' : Stops m t c pageIdx offset values raws') : raws' = raws := by
  have hle : ∀ {a b : List ℤ}, Encodes m t c pageIdx offset values a →
      Encodes m t c pageIdx offset values b → Stops m t c pageIdx offset values b →
      b.length ≤ a.length → b = a := by
    intro a b ha hb hsb hba
    have htake := ha.eq_take hb hba
    rcases Nat.lt_or_ge b.length a.length with hlt | hge
    · rcases hsb with hfull | ⟨-, e, he⟩
      · have := ha.1
        omega
      · obtain ⟨s, hs⟩ := ha.coding_ok hlt
        rw [← htake, he] at hs
        exact nomatch hs
    · rw [htake, List.take_of_length_le hge]
  rcases Nat.le_total raws'.length raws.length with hl | hl
  · exact hle h h' hs' hl
  · exact (hle h' h hs hl).symm

/-- How the element loop ends: all elements are written, or those before one that has no place or
cannot be encoded. -/
def ElementsDone (m : Machine) (t : Tune F) (c : ConstantDef F) (values : List F)
    (pageIdx offset : ℕ) (r : Except TuneError Unit) (t' : Tune F) : Prop :=
  ∃ raws, Encodes m t c pageIdx offset values raws ∧
    t' = t.store pageIdx offset c.ty raws ∧ (raws ≠ [] → ∃ p, t.page pageIdx = some p) ∧
    ((r = .ok () ∧ raws.length = values.length) ∨
      (raws.length < values.length ∧ ∃ e, r = .error e ∧ (t'.coding m c).run = .ok (.error e)))

/-- **The element loop.** -/
theorem applyElements_done (hcls : c.cls = .array) {pageIdx offset : ℕ}
    (hloc : Tune.location c = some (pageIdx, offset)) :
    ∀ {values : List F} {i : ℕ} {t : Tune F}, t.constant name = some c →
      i + values.length ≤ c.elementCount → applyElements m name i values t = .ok (r, t') →
      ElementsDone m t c values pageIdx (offset + i * c.ty.size) r t'
  | [], i, t, _, _, h => by
    obtain ⟨rfl, rfl⟩ := Prod.mk.inj (pure_eq_ok.mp h)
    exact ⟨[], ⟨Nat.le_refl _, fun k v raw hv => nomatch hv⟩, by simp, fun h => absurd rfl h,
      Or.inl ⟨rfl, rfl⟩⟩
  | user :: values, i, t, hc, hi, h => by
    rw [List.length_cons] at hi
    rw [applyElements, bind_eq_ok] at h
    obtain ⟨e | t₁, hrun, h⟩ := h
    · obtain ⟨rfl, rfl⟩ := Prod.mk.inj (pure_eq_ok.mp h)
      rcases (Tune.setElement_error hc hcls (by omega)).mp hrun with ⟨hno, -⟩ | ⟨-, herr⟩
      · exact absurd (hno.symm.trans hloc) nofun
      · exact ⟨[], ⟨Nat.zero_le _, fun k v raw _ hraw => nomatch hraw⟩, by simp,
          fun h => absurd rfl h, Or.inr ⟨Nat.succ_pos _, e, rfl, herr⟩⟩
    · obtain ⟨i', o', s, p, hloc', hs, hp, rfl⟩ :=
        (Tune.setElement_ok hc hcls (by omega)).mp hrun
      obtain ⟨rfl, rfl⟩ := Prod.mk.inj (Option.some.inj (hloc.symm.trans hloc'))
      obtain ⟨raws, henc, ht', -, hend⟩ := applyElements_done hcls hloc
        ((Tune.constant_writePage name).trans hc) (by omega) h
      rw [Nat.succ_mul, ← Nat.add_assoc] at henc ht'
      refine ⟨quantise c s user :: raws, henc.cons hs, ?_, fun _ => ⟨p, hp⟩, ?_⟩
      · rw [Tune.store_cons, ht']
      · simpa using hend

/-- Without a place for the array its first element ends the loop. -/
theorem applyElements_of_no_location (hc : t.constant name = some c) (hcls : c.cls = .array)
    (hloc : Tune.location c = none) {values : List F} (hlen : values.length = c.elementCount)
    (hne : values ≠ []) (h : applyElements m name 0 values t = .ok (r, t')) :
    r = .error (.notEditable name "not a page constant") ∧ t' = t := by
  cases values with
  | nil => exact absurd rfl hne
  | cons user values =>
    rw [List.length_cons] at hlen
    rw [applyElements, bind_eq_ok] at h
    obtain ⟨e | t₁, hrun, h⟩ := h
    · obtain ⟨rfl, rfl⟩ := Prod.mk.inj (pure_eq_ok.mp h)
      rcases (Tune.setElement_error hc hcls (by omega)).mp hrun with ⟨-, rfl⟩ | ⟨hsome, -⟩
      · exact ⟨rfl, rfl⟩
      · exact absurd hloc hsome
    · obtain ⟨i', o', s, p, hloc', -⟩ := (Tune.setElement_ok hc hcls (by omega)).mp hrun
      exact absurd (hloc.symm.trans hloc') nofun

section Stored

variable {p : PageState} {pageIdx offset : ℕ} {raws : List ℤ}

omit [F64 F] in
theorem arrayRaw_of_page (hc : t.constant name = some c)
    (hloc : Tune.location c = some (pageIdx, offset)) (hp : t.page pageIdx = some p) (k : ℕ) :
    t.arrayRaw name k = readRaw p.data (offset + k * c.ty.size) c.ty := by
  simp [Tune.arrayRaw, hc, Tune.located, hloc, hp]

omit [F64 F] in
/-- A stored element reads back exactly when it lies in the page. -/
theorem arrayRaw_store (hc : t.constant name = some c)
    (hloc : Tune.location c = some (pageIdx, offset)) (hp : t.page pageIdx = some p)
    (hr : ∀ raw ∈ raws, InRange c.ty raw) {k : ℕ} {raw : ℤ} (hk : raws[k]? = some raw) :
    (t.store pageIdx offset c.ty raws).arrayRaw name k = some raw ↔
      offset + k * c.ty.size + c.ty.size ≤ p.data.length := by
  rw [arrayRaw_of_page ((Tune.constant_store raws name).trans hc) hloc (Tune.page_store_self hp raws)]
  constructor
  · intro h
    have := (readRaw_eq_some.mp h).1
    rwa [length_writeRaws] at this
  · exact readRaw_writeRaws hr hk

omit [F64 F] in
/-- Storing elements changes no data exactly when those in the page stand there already. -/
theorem data_store_array (hc : t.constant name = some c)
    (hloc : Tune.location c = some (pageIdx, offset)) (hp : t.page pageIdx = some p)
    (hr : ∀ raw ∈ raws, InRange c.ty raw) :
    (t.store pageIdx offset c.ty raws).data = t.data ↔
      ∀ (k : ℕ) (raw cur : ℤ), raws[k]? = some raw → t.arrayRaw name k = some cur → cur = raw := by
  rw [Tune.data_store_eq_iff hp, writeRaws_eq_self_iff hr]
  simp only [arrayRaw_of_page hc hloc hp]

end Stored

/-- **The turn of an array** of the right length. -/
theorem turn_array (hc : t.constant name = some c) (hcls : c.cls = .array) {values : List F}
    (hlen : values.length = c.elementCount)
    (h : applyValue m t name c (.array values) = .ok (r, t')) :
    (values = [] ∧ r = .ok () ∧ t' = t) ∨
      (values ≠ [] ∧ Tune.location c = none ∧ (∃ e, r = .error e) ∧ t' = t) ∨
      ∃ pageIdx offset, Tune.location c = some (pageIdx, offset) ∧
        ElementsDone m t c values pageIdx offset r t' := by
  simp only [applyValue, hcls, hlen, ne_eq, not_true_eq_false, if_false] at h
  rcases hloc : Tune.location c with - | ⟨pageIdx, offset⟩
  · by_cases hne : values = []
    · subst hne
      obtain ⟨rfl, rfl⟩ := Prod.mk.inj (pure_eq_ok.mp h)
      exact Or.inl ⟨rfl, rfl, rfl⟩
    · obtain ⟨hr, ht⟩ := applyElements_of_no_location hc hcls hloc hlen hne h
      exact Or.inr (Or.inl ⟨hne, rfl, ⟨_, hr⟩, ht⟩)
  · have hdone := applyElements_done hcls hloc hc (by omega) h
    rw [Nat.zero_mul, Nat.add_zero] at hdone
    exact Or.inr (Or.inr ⟨pageIdx, offset, rfl, hdone⟩)

/-- An entry whose value does not fit its constant is skipped. -/
theorem turn_mismatch {value : MsqValue F}
    (hmis : (c.cls = .scalar ∧ ∀ v, value ≠ .num v) ∨ c.cls = .string ∨
      (c.cls = .array ∧ ∀ values, value = .array values → values.length ≠ c.elementCount))
    (h : applyValue m t name c value = .ok (r, t')) : (∃ e, r = .error e) ∧ t' = t := by
  rcases hmis with ⟨hcls, hv⟩ | hcls | ⟨hcls, hv⟩
  · cases value with
    | num v => exact absurd rfl (hv v)
    | text _ | array _ =>
      simp only [applyValue, hcls] at h
      obtain ⟨rfl, rfl⟩ := Prod.mk.inj (pure_eq_ok.mp h)
      exact ⟨⟨_, rfl⟩, rfl⟩
  · simp only [applyValue, hcls] at h
    obtain ⟨rfl, rfl⟩ := Prod.mk.inj (pure_eq_ok.mp h)
    exact ⟨⟨_, rfl⟩, rfl⟩
  · cases value with
    | num _ | text _ =>
      simp only [applyValue, hcls] at h
      obtain ⟨rfl, rfl⟩ := Prod.mk.inj (pure_eq_ok.mp h)
      exact ⟨⟨_, rfl⟩, rfl⟩
    | array values =>
      simp only [applyValue, hcls, ne_eq, hv values rfl, not_false_eq_true, if_true] at h
      obtain ⟨rfl, rfl⟩ := Prod.mk.inj (pure_eq_ok.mp h)
      exact ⟨⟨_, rfl⟩, rfl⟩

end Msq

end RustyTune.TuneModel
