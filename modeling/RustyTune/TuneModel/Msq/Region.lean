import RustyTune.TuneModel.Msq.Run

/-!
# Places on the pages

* `Tune.bit`: a bit of the local data. `Rewrites`: tunes that differ in local data and in variables at
  most; `SameFrame`: in local data at most, which their bits then tell apart (`SameFrame.eq_of_bits`).
* `Owns`: the bits that a constant occupies on its page.
* **`turn_keeps`**: the turn of an entry changes bits of its constant only.
-/

namespace RustyTune.TuneModel

open TsIni Exec

variable {F : Type}

/-! ## Bits of bytes -/

/-- Bytes that agree in one place agree in the bits of that place. -/
theorem testBit_leNat_congr {b b' : List UInt8} {i : ℕ} (h : b'[i / 8]? = b[i / 8]?) :
    (leNat b').testBit i = (leNat b).testBit i := by
  have hi : i = 8 * (i / 8) + i % 8 := (Nat.div_add_mod i 8).symm
  have hlt : i % 8 < 8 := Nat.mod_lt _ (by decide)
  rw [hi, testBit_leNat b' _ hlt, testBit_leNat b _ hlt, h]

theorem testBit_slice {b : List UInt8} {offset n k : ℕ} (hk : k < 8 * n) :
    (leNat (slice b offset n)).testBit k = (leNat b).testBit (8 * offset + k) := by
  have hsplit : 8 * offset + k = 8 * (offset + k / 8) + k % 8 := by omega
  have hlt : k % 8 < 8 := Nat.mod_lt _ (by decide)
  have hb := testBit_leNat (slice b offset n) (k / 8) hlt
  rw [Nat.div_add_mod] at hb
  rw [hb, hsplit, testBit_leNat b _ hlt, getElem?_slice, if_pos (by omega)]

/-- A write sets the bits of its place, if that lies in the page. -/
theorem testBit_writeRaw {b : List UInt8} {offset : ℕ} {ty : DataType} {raw : ℤ} (i : ℕ) :
    (leNat (writeRaw b offset ty raw).1).testBit i =
      if offset + ty.size ≤ b.length ∧ 8 * offset ≤ i ∧ i < 8 * (offset + ty.size) then
        (leNat (rawBytes ty raw)).testBit (i - 8 * offset)
      else (leNat b).testBit i := by
  by_cases hin : offset + ty.size ≤ b.length ∧ 8 * offset ≤ i ∧ i < 8 * (offset + ty.size)
  · obtain ⟨hlen, h1, h2⟩ := hin
    have hsl : slice (overwrite b offset (rawBytes ty raw)) offset (rawBytes ty raw).length = _ :=
      slice_overwrite (by rwa [length_rawBytes])
    rw [length_rawBytes] at hsl
    have hk : i - 8 * offset < 8 * ty.size := by omega
    have hbit : (leNat (slice (overwrite b offset (rawBytes ty raw)) offset ty.size)).testBit _ = _ :=
      testBit_slice hk
    rw [hsl, show 8 * offset + (i - 8 * offset) = i by omega] at hbit
    rw [if_pos ⟨hlen, h1, h2⟩, writeRaw_of_le hlen, hbit]
  · rw [if_neg hin]
    rcases Nat.lt_or_ge b.length (offset + ty.size) with hlt | hle
    · rw [writeRaw_of_lt hlt]
    · exact testBit_leNat_congr (getElem?_writeRaw fun hi => hin ⟨hle, by omega, by omega⟩)

theorem testBit_writeRaws_congr {b b' : List UInt8} {offset i : ℕ} {ty : DataType} {raws : List ℤ}
    (hlen : b'.length = b.length) (h : (leNat b').testBit i = (leNat b).testBit i) :
    (leNat (writeRaws b' offset ty raws)).testBit i =
      (leNat (writeRaws b offset ty raws)).testBit i := by
  induction raws generalizing b b' offset with
  | nil => exact h
  | cons raw raws ih =>
    refine ih (by rw [length_writeRaw, length_writeRaw, hlen]) ?_
    rw [testBit_writeRaw, testBit_writeRaw, hlen, h]

namespace Tune

/-- A bit of the local data of a page. -/
def bit (t : Tune F) (j i : ℕ) : Bool :=
  ((t.page j).map fun p => (leNat p.data).testBit i).getD false

variable {t t' : Tune F} {pageIdx offset : ℕ} {ty : DataType}

theorem bit_of_page {p : PageState} {j : ℕ} (hp : t.page j = some p) (i : ℕ) :
    t.bit j i = (leNat p.data).testBit i := by
  rw [bit, hp, Option.map_some, Option.getD_some]

theorem bit_of_length_le {j i : ℕ} (h : ∀ p, t.page j = some p → 8 * p.data.length ≤ i) :
    t.bit j i = false := by
  cases hp : t.page j with
  | none => rw [bit, hp, Option.map_none, Option.getD_none]
  | some p =>
    have hlt := leNat_lt p.data
    rw [show 256 = 2 ^ 8 by norm_num, ← pow_mul] at hlt
    rw [bit_of_page hp, Nat.testBit_lt_two_pow]
    exact Nat.lt_of_lt_of_le hlt (Nat.pow_le_pow_right (by decide) (h p hp))

theorem bit_store {raws : List ℤ} {j i : ℕ} (h : ¬ (pageIdx = j ∧ 8 * offset ≤ i ∧
    i < 8 * (offset + raws.length * ty.size))) :
    (t.store pageIdx offset ty raws).bit j i = t.bit j i := by
  rw [bit, bit, page_store]
  split_ifs with hj
  · cases t.page j with
    | none => rfl
    | some p =>
      simp only [Option.map_some, Option.getD_some]
      exact testBit_leNat_congr (getElem?_writeRaws fun hi => h ⟨hj, by omega, by omega⟩)
  · rfl

/-- **A field set in the word on the page**: its bits are those of the index, the others stay. -/
theorem bit_fieldSet {m : Machine} {lo hi : UInt8} {p : PageState} (hp : t.page pageIdx = some p)
    {cur : ℤ} (hcur : readRaw p.data offset ty = some cur) {idx w mask : BitVec 64}
    (hset : fieldSet m lo hi (BitVec.ofInt 64 cur) idx = .ok w)
    (hm : fieldMask m lo hi = .ok mask) (j i : ℕ) :
    (t.writePage pageIdx offset ty w.toInt).bit j i =
      if pageIdx = j ∧ 8 * offset ≤ i ∧ i < 8 * (offset + ty.size) ∧
          mask.getLsbD (i - 8 * offset) = true then
        idx.getLsbD (i - 8 * offset - lo.toNat % 64)
      else t.bit j i := by
  obtain ⟨hlen, rfl⟩ := readRaw_eq_some.mp hcur
  by_cases hin : pageIdx = j ∧ 8 * offset ≤ i ∧ i < 8 * (offset + ty.size)
  · obtain ⟨rfl, h1, h2⟩ := hin
    have hk : i - 8 * offset < 8 * ty.size := by omega
    have hold : (BitVec.ofInt 64 (decodeRaw ty (slice p.data offset ty.size))).getLsbD
        (i - 8 * offset) = t.bit pageIdx i := by
      rw [getLsbD_decodeRaw ty _ hk, testBit_slice hk, bit_of_page hp,
        show 8 * offset + (i - 8 * offset) = i by omega]
    rw [bit_of_page (page_writePage_self hp)]
    simp only [testBit_writeRaw, hlen, h1, h2, true_and, if_true, testBit_rawBytes ty w hk,
      getLsbD_fieldSet hset hm, hold]
  · rw [if_neg fun h => hin ⟨h.1, h.2.1, h.2.2.1⟩, ← store_singleton]
    refine bit_store fun h => hin ⟨h.1, h.2.1, ?_⟩
    simpa using h.2.2

end Tune

/-! ## Tunes of one frame -/

/-- The two tunes differ in local data and in variables at most. -/
structure Rewrites (t t' : Tune F) : Prop where
  df : t'.df = t.df
  loaded : t'.loaded = t.loaded
  pages : t'.pages.map (fun p => (p.data.length, p.ecu, p.burned)) =
    t.pages.map fun p => (p.data.length, p.ecu, p.burned)

namespace Rewrites

variable {t t' t'' : Tune F}

theorem refl (t : Tune F) : Rewrites t t := ⟨rfl, rfl, rfl⟩

theorem symm (h : Rewrites t t') : Rewrites t' t := ⟨h.df.symm, h.loaded.symm, h.pages.symm⟩

theorem trans (h : Rewrites t t') (h' : Rewrites t' t'') : Rewrites t t'' :=
  ⟨h'.df.trans h.df, h'.loaded.trans h.loaded, h'.pages.trans h.pages⟩

theorem constant (h : Rewrites t t') (name : String) : t'.constant name = t.constant name := by
  simp only [Tune.constant, h.df]

theorem page (h : Rewrites t t') {j : ℕ} {p : PageState} (hp : t.page j = some p) :
    ∃ p', t'.page j = some p' ∧ p'.data.length = p.data.length ∧ p'.ecu = p.ecu ∧
      p'.burned = p.burned := by
  have hj := congrArg (·[j]?) h.pages
  simp only [List.getElem?_map] at hj
  rw [show t.pages[j]? = some p from hp, Option.map_some, Option.map_eq_some_iff] at hj
  obtain ⟨p', hp', heq⟩ := hj
  simp only [Prod.mk.injEq] at heq
  exact ⟨p', hp', heq⟩

theorem page_none (h : Rewrites t t') {j : ℕ} (hp : t.page j = none) : t'.page j = none := by
  cases hp' : t'.page j with
  | none => rfl
  | some p' =>
    obtain ⟨p, hp₁, -⟩ := h.symm.page hp'
    cases hp.symm.trans hp₁

end Rewrites

/-- The two tunes differ in local data at most. -/
structure SameFrame (t t' : Tune F) : Prop extends Rewrites t t' where
  pcValues : t'.pcValues = t.pcValues

namespace SameFrame

variable {t t' t'' : Tune F}

theorem refl (t : Tune F) : SameFrame t t := ⟨.refl t, rfl⟩

theorem symm (h : SameFrame t t') : SameFrame t' t := ⟨h.toRewrites.symm, h.pcValues.symm⟩

theorem trans (h : SameFrame t t') (h' : SameFrame t' t'') : SameFrame t t'' :=
  ⟨h.toRewrites.trans h'.toRewrites, h'.pcValues.trans h.pcValues⟩

theorem store {pageIdx offset : ℕ} {ty : DataType} {raws : List ℤ} :
    SameFrame t (t.store pageIdx offset ty raws) := by
  refine ⟨⟨rfl, rfl, List.ext_getElem? fun j => ?_⟩, rfl⟩
  rw [List.getElem?_map, List.getElem?_map]
  change ((t.store pageIdx offset ty raws).page j).map _ = (t.page j).map _
  rw [Tune.page_store]
  split_ifs
  · cases t.page j <;> simp
  · rfl

theorem bit_store_congr (h : SameFrame t t') {pageIdx offset j i : ℕ} {ty : DataType}
    {raws : List ℤ} (hbit : t'.bit j i = t.bit j i) :
    (t'.store pageIdx offset ty raws).bit j i = (t.store pageIdx offset ty raws).bit j i := by
  cases hp : t.page j with
  | none =>
    have hp' := h.page_none hp
    rw [Tune.bit_of_length_le fun p hq => ?_, Tune.bit_of_length_le fun p hq => ?_]
    · cases (SameFrame.store.page_none hp).symm.trans hq
    · cases (SameFrame.store.page_none hp').symm.trans hq
  | some p =>
    obtain ⟨p', hp', hlen, -⟩ := h.page hp
    by_cases hj : pageIdx = j
    · subst hj
      rw [Tune.bit_of_page hp', Tune.bit_of_page hp] at hbit
      rw [Tune.bit_of_page (Tune.page_store_self hp' raws),
        Tune.bit_of_page (Tune.page_store_self hp raws)]
      exact testBit_writeRaws_congr hlen hbit
    · rw [Tune.bit_store fun h => hj h.1, Tune.bit_store fun h => hj h.1, hbit]

theorem writePage {pageIdx offset : ℕ} {ty : DataType} {raw : ℤ} :
    SameFrame t (t.writePage pageIdx offset ty raw) := by
  rw [← Tune.store_singleton]
  exact store

/-- **Tunes of one frame and of the same bits are the same.** -/
theorem eq_of_bits (h : SameFrame t t') (hbits : ∀ j i, t'.bit j i = t.bit j i) : t' = t := by
  have hpages : t'.pages = t.pages := by
    refine List.ext_getElem? fun j => ?_
    change t'.page j = t.page j
    cases hp : t.page j with
    | none => exact h.page_none hp
    | some p =>
      obtain ⟨p', hp', hlen, hecu, hburned⟩ := h.page hp
      have hdata : p'.data = p.data := eq_of_testBit hlen fun i _ => by
        rw [← Tune.bit_of_page hp', ← Tune.bit_of_page hp]
        exact hbits j i
      obtain ⟨d, e, b⟩ := p
      obtain ⟨d', e', b'⟩ := p'
      dsimp only at hdata hecu hburned
      rw [hp', hdata, hecu, hburned]
  obtain ⟨df, ps, pcs, l⟩ := t
  obtain ⟨df', ps', pcs', l'⟩ := t'
  cases h.df
  cases h.pcValues
  cases h.loaded
  cases hpages
  rfl

theorem bit_eq_of_data (h : t'.data = t.data) (j i : ℕ) : t'.bit j i = t.bit j i := by
  have hj := congrArg (·[j]?) h
  simp only [Tune.getElem?_data] at hj
  have hmap : ∀ u : Tune F, u.bit j i =
      (((u.page j).map PageState.data).map fun d => (leNat d).testBit i).getD false := fun u => by
    rw [Option.map_map]
    rfl
  rw [hmap, hmap, hj]

end SameFrame

namespace Msq

/-! ## The bits of a constant -/

/-- How many values a constant has on its page. -/
def valueCount (c : ConstantDef F) : ℕ :=
  match c.cls with
  | .array => c.elementCount
  | _ => 1

/-- The byte is one of the constant's. -/
def OwnByte (c : ConstantDef F) (j i : ℕ) : Prop :=
  ∃ offset, Tune.location c = some (j, offset) ∧
    offset ≤ i ∧ i < offset + valueCount c * c.ty.size

/-- The bit is one of those that the constant occupies: of its bytes, or of its field. -/
def Owns (m : Machine) (c : ConstantDef F) (j i : ℕ) : Prop :=
  match c.cls with
  | .scalar | .array => OwnByte c j (i / 8)
  | .string => ∃ offset len, Tune.location c = some (j, offset) ∧ c.stringLen = some len ∧
      offset ≤ i / 8 ∧ i / 8 < offset + len.toNat
  | .bits => ∃ offset lo hi mask k, Tune.location c = some (j, offset) ∧
      c.shape = some (.bits lo hi) ∧ fieldMask m lo hi = .ok mask ∧ mask.getLsbD k = true ∧
      k < 8 * c.ty.size ∧ i = 8 * offset + k

theorem Owns.of_bytes {m : Machine} {c : ConstantDef F} (hcls : c.cls = .scalar ∨ c.cls = .array)
    {j i : ℕ} : Owns m c j i ↔ OwnByte c j (i / 8) := by
  rcases hcls with hcls | hcls <;> simp only [Owns, hcls]

/-! ## The turn of an entry -/

variable [F64 F] (m : Machine)

/-- The tune after the turn of an entry. -/
def turn (t : Tune F) (e : String × MsqValue F) : Exec (Tune F) :=
  match t.constant e.1 with
  | none => .ok t
  | some c => Prod.snd <$> applyValue m t e.1 c e.2

variable {m} {t t' : Tune F} {e : String × MsqValue F} {c : ConstantDef F}

theorem turn_of_constant (hc : t.constant e.1 = some c) :
    turn m t e = .ok t' ↔ ∃ r, applyValue m t e.1 c e.2 = .ok (r, t') := by
  simp only [turn, hc]
  rw [map_eq_pure_bind, bind_eq_ok]
  constructor
  · rintro ⟨⟨r, t₁⟩, hval, h⟩
    exact ⟨r, by rw [hval, ← pure_eq_ok.mp h]⟩
  · rintro ⟨r, hval⟩
    exact ⟨_, hval, rfl⟩

theorem turn_of_unknown (hc : t.constant e.1 = none) : turn m t e = .ok t' ↔ t' = t := by
  simp only [turn, hc, Except.ok.injEq, eq_comm]

omit [F64 F] in
/-- Values stored at the place of a constant change its bits at most. -/
theorem bit_store_of_not_owns (hcls : c.cls = .scalar ∨ c.cls = .array) {pageIdx offset : ℕ}
    (hloc : Tune.location c = some (pageIdx, offset)) {raws : List ℤ}
    (hlen : raws.length ≤ valueCount c) {j i : ℕ} (hno : ¬ Owns m c j i) :
    (t.store pageIdx offset c.ty raws).bit j i = t.bit j i := by
  have hmul : raws.length * c.ty.size ≤ valueCount c * c.ty.size := Nat.mul_le_mul_right _ hlen
  rw [Owns.of_bytes hcls] at hno
  refine Tune.bit_store ?_
  rintro ⟨rfl, h1, h2⟩
  exact hno ⟨offset, hloc, by omega, by omega⟩

/-- **The turn of an entry changes bits of its constant only.** -/
theorem turn_keeps (h : turn m t e = .ok t') : SameFrame t t' ∧ ∀ j i,
    (∀ c, t.constant e.1 = some c → ¬ Owns m c j i) → t'.bit j i = t.bit j i := by
  have hself (ht : t' = t) : SameFrame t t' ∧ ∀ j i,
      (∀ c, t.constant e.1 = some c → ¬ Owns m c j i) → t'.bit j i = t.bit j i :=
    ht ▸ ⟨.refl t', fun _ _ _ => rfl⟩
  rcases hc : t.constant e.1 with - | c
  · rw [← hc]
    exact hself ((turn_of_unknown hc).mp h)
  · rw [← hc]
    obtain ⟨r, hval⟩ := (turn_of_constant hc).mp h
    have hmismatch (hmis : (c.cls = .scalar ∧ ∀ v, e.2 ≠ .num v) ∨ c.cls = .string ∨
        (c.cls = .array ∧ ∀ values, e.2 = .array values → values.length ≠ c.elementCount)) :=
      hself (turn_mismatch hmis hval).2
    cases hcls : c.cls with
    | string => exact hmismatch (Or.inr (Or.inl hcls))
    | bits =>
      rcases turn_bits hc hcls hval with ⟨-, ht, -⟩ |
        ⟨idx, lo, hi, i, o, p, cur, w, hidx, hsh, hloc, hp, hcur, hset, -, rfl⟩
      · exact hself ht
      · refine ⟨.writePage, fun j i hno => ?_⟩
        obtain ⟨mask, hm, -⟩ := fieldSet_ok hset
        rw [Tune.bit_fieldSet hp hcur hset hm, if_neg]
        rintro ⟨rfl, h1, h2, hmask⟩
        have := hno c hc
        simp only [Owns, hcls] at this
        exact this ⟨o, lo, hi, mask, _, hloc, hsh, hm, hmask, by omega, by omega⟩
    | scalar =>
      rcases hv : e.2 with v | s | vs
      · rw [hv] at hval
        rcases (turn_scalar hc hcls).mp hval with ⟨-, -, ht, -⟩ | ⟨i, o, s, p, hloc, -, -, -, rfl⟩
        · exact hself ht
        · rw [← Tune.store_singleton]
          exact ⟨.store, fun j i hno => bit_store_of_not_owns (Or.inl hcls) hloc
            (by simp [valueCount, hcls]) (hno c hc)⟩
      · exact hmismatch (Or.inl ⟨hcls, by simp [hv]⟩)
      · exact hmismatch (Or.inl ⟨hcls, by simp [hv]⟩)
    | array =>
      rcases hv : e.2 with v | s | values
      · exact hmismatch (Or.inr (Or.inr ⟨hcls, by simp [hv]⟩))
      · exact hmismatch (Or.inr (Or.inr ⟨hcls, by simp [hv]⟩))
      · by_cases hlen : values.length = c.elementCount
        · rw [hv] at hval
          rcases turn_array hc hcls hlen hval with ⟨-, -, ht⟩ | ⟨-, -, -, ht⟩ |
            ⟨i, o, hloc, raws, henc, rfl, -⟩
          · exact hself ht
          · exact hself ht
          · have hle := henc.1
            exact ⟨.store, fun j i hno => bit_store_of_not_owns (Or.inr hcls) hloc
              (by simp only [valueCount, hcls]; omega) (hno c hc)⟩
        · refine hmismatch (Or.inr (Or.inr ⟨hcls, fun vs hvs => ?_⟩))
          rwa [← MsqValue.array.inj (hv.symm.trans hvs)]

end Msq

end RustyTune.TuneModel
