import RustyTune.TuneModel.Msq.Order
import RustyTune.TuneModel.Msq.Written

/-!
# A saved file applied

* `Covers`: the bits of a scalar, an array or a choice; `Sets`: those that a value put there sets.
* `Readable`: a definition whose values are all read back; `Plain`: its fields lie within their words.
* `turn_numbers_restores`, `turn_choice_restores`: what is read of a saved file puts the bits of the
  constant as they were.
* **`restore_sets`**: applied to any tune of the definition, a saved file restores the bits that its values
  set, and leaves the others; `restore`: in a plain definition these are the bits of the constants.
-/

namespace RustyTune.TuneModel.Msq

open TsIni Exec XRat

open Text (Recoding)

open Xml (Reader)

variable {m : Machine} {t u u' : Tune XRat} {name : String} {c : ConstantDef XRat} {line : Line XRat}
  {r : Recoding}

/-- The bit is one of the values of the constant, or of its field. -/
def Covers (c : ConstantDef XRat) (j i : ℕ) : Prop :=
  match c.cls with
  | .scalar | .array => OwnByte c j (i / 8)
  | .bits => ∃ offset lo hi, Tune.location c = some (j, offset) ∧ c.shape = some (.bits lo hi) ∧
      8 * offset + lo.toNat ≤ i ∧ i ≤ 8 * offset + hi.toNat
  | .string => False

/-- Bits `lo` to `hi` of a word as the masks of the code have them: shifts and widths are taken modulo 64. -/
def InMask (lo hi : UInt8) (k : ℕ) : Prop :=
  lo.toNat % 64 ≤ k ∧ k < lo.toNat % 64 + maskWidth lo hi

/-- The bit is one that a value of the constant sets: of its bytes, or of its mask within the word. -/
def Sets (c : ConstantDef XRat) (j i : ℕ) : Prop :=
  match c.cls with
  | .scalar | .array => OwnByte c j (i / 8)
  | .bits => ∃ offset lo hi, Tune.location c = some (j, offset) ∧ c.shape = some (.bits lo hi) ∧
      8 * offset ≤ i ∧ i < 8 * (offset + c.ty.size) ∧ InMask lo hi (i - 8 * offset)
  | .string => False

/-- Literal scales, greater than the last decimal that is written, and literal translates; arrays of two
elements or more; labels that are read back. -/
structure Readable (r : Recoding) (t : Tune XRat) : Prop where
  literal : ∀ name c, t.constant name = some c → c.cls = .scalar ∨ c.cls = .array →
    ∃ scale translate, c.scale = .num (fin scale) ∧ c.translate = .num (fin translate) ∧
      1 / 1000000 < |scale|
  arrays : ∀ name c, t.constant name = some c → c.cls = .array → 2 ≤ c.elementCount
  labels : ∀ name c, t.constant name = some c → c.cls = .bits → ∀ (i : ℕ) label,
    c.labels[i]? = some label → label ≠ "INVALID" → Kept r label ∧ c.labels.idxOf label = i

/-- Literal scales, greater than the last decimal that is written, and literal translates; arrays of two
elements or more; fields within their words, with labels that are read back. -/
structure Plain (r : Recoding) (t : Tune XRat) : Prop where
  fields : FieldsFit t
  literal : ∀ name c, t.constant name = some c → c.cls = .scalar ∨ c.cls = .array →
    ∃ scale translate, c.scale = .num (fin scale) ∧ c.translate = .num (fin translate) ∧
      1 / 1000000 < |scale|
  arrays : ∀ name c, t.constant name = some c → c.cls = .array → 2 ≤ c.elementCount
  labels : ∀ name c, t.constant name = some c → c.cls = .bits → ∀ (i : ℕ) label,
    c.labels[i]? = some label → label ≠ "INVALID" → Kept r label ∧ c.labels.idxOf label = i

theorem Plain.readable (h : Plain r t) : Readable r t := ⟨h.literal, h.arrays, h.labels⟩

/-- A field that lies within its word is its mask. -/
theorem covers_iff_sets (hfit : FieldsFit t) (hc : t.constant name = some c) {j i : ℕ} :
    Covers c j i ↔ Sets c j i := by
  cases hcls : c.cls with
  | scalar | array | string => simp only [Covers, Sets, hcls]
  | bits =>
    simp only [Covers, Sets, hcls]
    refine exists_congr fun offset => exists₂_congr fun lo hi => ?_
    refine and_congr_right fun _ => and_congr_right fun hshape => ?_
    obtain ⟨hle, hhi⟩ := hfit name c lo hi hc hcls hshape
    have hsize := size_bits_le c.ty
    rw [InMask, maskWidth_eq hle (by omega), bitWidth]
    omega

/-- Tunes of one definition, with pages of the same lengths. -/
structure SameForm (t u : Tune XRat) : Prop where
  df : u.df = t.df
  lengths : ∀ j p, t.page j = some p → ∃ p', u.page j = some p' ∧ p'.data.length = p.data.length

theorem SameForm.constant (h : SameForm t u) (name : String) : u.constant name = t.constant name := by
  simp only [Tune.constant, h.df]

theorem SameForm.frame (h : SameForm t u) (h' : SameFrame u u') : SameForm t u' := by
  refine ⟨h'.df.trans h.df, fun j p hp => ?_⟩
  obtain ⟨p', hp', hlen⟩ := h.lengths j p hp
  obtain ⟨p'', hp'', hlen', -⟩ := h'.page hp'
  exact ⟨p'', hp'', hlen'.trans hlen⟩

/-! ## Numbers -/

section Numbers

variable {pageIdx offset : ℕ} {p : PageState} {ty : DataType}

/-- A value that stands on one page, written on another, puts its bits there. -/
theorem bit_writePage_of_read (hp : t.page pageIdx = some p) {q : PageState}
    (hq : u.page pageIdx = some q) (hlen : q.data.length = p.data.length) {raw : ℤ}
    (hread : readRaw p.data offset ty = some raw) (j i : ℕ) :
    (u.writePage pageIdx offset ty raw).bit j i =
      if pageIdx = j ∧ 8 * offset ≤ i ∧ i < 8 * (offset + ty.size) then t.bit j i else u.bit j i := by
  obtain ⟨hin, rfl⟩ := readRaw_eq_some.mp hread
  by_cases hplace : pageIdx = j ∧ 8 * offset ≤ i ∧ i < 8 * (offset + ty.size)
  · obtain ⟨rfl, h1, h2⟩ := hplace
    have hbit : (leNat (slice p.data offset ty.size)).testBit (i - 8 * offset) =
        (leNat p.data).testBit (8 * offset + (i - 8 * offset)) := testBit_slice (by omega)
    rw [if_pos ⟨rfl, h1, h2⟩, Tune.bit_of_page (Tune.page_writePage_self hq), testBit_writeRaw,
      if_pos ⟨hlen ▸ hin, h1, h2⟩, rawBytes_decodeRaw (slice_length hin), hbit, Tune.bit_of_page hp,
      Nat.add_sub_cancel' h1]
  · rw [if_neg hplace, ← Tune.store_singleton, Tune.bit_store]
    simpa using hplace

/-- **The values that stand on one page, stored on another**, put their bits there. -/
theorem bit_store_of_read (hp : t.page pageIdx = some p) (raws : List ℤ) {q : PageState}
    (hq : u.page pageIdx = some q) (hlen : q.data.length = p.data.length)
    (hread : ∀ k raw, raws[k]? = some raw → readRaw p.data (offset + k * ty.size) ty = some raw)
    (j i : ℕ) : (u.store pageIdx offset ty raws).bit j i =
      if pageIdx = j ∧ 8 * offset ≤ i ∧ i < 8 * (offset + raws.length * ty.size) then t.bit j i
      else u.bit j i := by
  induction raws generalizing u q offset with
  | nil =>
    rw [Tune.store_nil, if_neg]
    rintro ⟨-, h1, h2⟩
    simp only [List.length_nil] at h2
    omega
  | cons raw raws ih =>
    have hraw : readRaw p.data offset ty = some raw := by
      have := hread 0 raw rfl
      rwa [Nat.zero_mul, Nat.add_zero] at this
    have hrest : ∀ k raw, raws[k]? = some raw →
        readRaw p.data (offset + ty.size + k * ty.size) ty = some raw := by
      intro k raw' hk
      rw [Nat.add_assoc, Nat.add_comm ty.size, ← Nat.succ_mul]
      exact hread (k + 1) raw' hk
    rw [Tune.store_cons, ih (Tune.page_writePage_self hq) (by rw [length_writeRaw, hlen]) hrest,
      bit_writePage_of_read hp hq hlen hraw, List.length_cons, Nat.succ_mul raws.length]
    split_ifs <;> first | rfl | omega

theorem codes_of_literal {scale translate : ℚ} (hscale : c.scale = .num (fin scale))
    (htranslate : c.translate = .num (fin translate)) (hne : scale ≠ 0) (values : List XRat) :
    Codes m u c pageIdx offset values
      (values.map (quantise c (fin scale, fin translate))) := by
  have hcoding : ∀ u : Tune XRat, (u.coding m c).run = .ok (.ok (fin scale, fin translate)) := by
    intro u
    rw [(Tune.coded_of_num m u hscale htranslate).coding (by simpa [F64.eq, XRat.eq] using hne)]
    rfl
  refine ⟨⟨(List.length_map _).le, fun k v raw hv hraw => ⟨_, hcoding _, ?_⟩⟩, .inl (List.length_map _)⟩
  rw [List.getElem?_map, hv] at hraw
  exact Option.some.inj hraw

theorem sets_of_numbers (hcls : c.cls = .scalar ∨ c.cls = .array)
    (hloc : Tune.location c = some (pageIdx, offset)) {j i : ℕ} : Sets c j i ↔
      pageIdx = j ∧ 8 * offset ≤ i ∧ i < 8 * (offset + valueCount c * c.ty.size) := by
  have hsets : Sets c j i ↔ OwnByte c j (i / 8) := by
    rcases hcls with hcls | hcls <;> simp only [Sets, hcls]
  rw [hsets, OwnByte]
  constructor
  · rintro ⟨o, hloc', h1, h2⟩
    obtain ⟨rfl, rfl⟩ := Prod.mk.inj (Option.some.inj (hloc.symm.trans hloc'))
    exact ⟨rfl, by omega, by omega⟩
  · rintro ⟨rfl, h1, h2⟩
    exact ⟨offset, hloc, by omega, by omega⟩

end Numbers

/-- What is read of a constant puts the bits that it sets as they were, and leaves the others. -/
def Restores (m : Machine) (t u : Tune XRat) (c : ConstantDef XRat) (e : String × MsqValue XRat) : Prop :=
  ∃ u', turn m u e = .ok u' ∧ SameFrame u u' ∧ (∀ j i, Sets c j i → u'.bit j i = t.bit j i) ∧
    ∀ j i, ¬ Sets c j i → u'.bit j i = u.bit j i

/-- **Numbers that encode to what stands on the page** restore it. -/
theorem turn_numbers_restores {pageIdx offset : ℕ} {p : PageState} {scale translate : ℚ}
    {value : MsqValue XRat} {values : List XRat} (hform : SameForm t u) (hc : t.constant name = some c)
    (hscale : c.scale = .num (fin scale)) (htranslate : c.translate = .num (fin translate))
    (hne : scale ≠ 0) (hn : numbers c value = some values)
    (hloc : Tune.location c = some (pageIdx, offset)) (hp : t.page pageIdx = some p)
    (hread : ∀ k v, values[k]? = some v → readRaw p.data (offset + k * c.ty.size) c.ty =
      some (quantise c (fin scale, fin translate) v)) :
    Restores m t u c (name, value) := by
  have hcu := (hform.constant name).trans hc
  obtain ⟨q, hq, hlen⟩ := hform.lengths pageIdx p hp
  obtain ⟨hcls, hcount⟩ := numbers_count hn
  have hturn := (turn_numbers (m := m) (e := (name, value)) hcu hn hloc).mpr
    ⟨_, codes_of_literal hscale htranslate hne values, fun _ => ⟨q, hq⟩, rfl⟩
  have hraws : ∀ k raw, (values.map (quantise c (fin scale, fin translate)))[k]? = some raw →
      readRaw p.data (offset + k * c.ty.size) c.ty = some raw := by
    intro k raw hk
    rw [List.getElem?_map, Option.map_eq_some_iff] at hk
    obtain ⟨v, hv, rfl⟩ := hk
    exact hread k v hv
  have hbit := bit_store_of_read hp _ hq hlen hraws
  rw [List.length_map, hcount] at hbit
  refine ⟨_, hturn, .store, fun j i hset => ?_, fun j i hset => ?_⟩
  · rw [hbit, if_pos ((sets_of_numbers hcls hloc).mp hset)]
  · rw [hbit, if_neg fun h => hset ((sets_of_numbers hcls hloc).mpr h)]

/-! ## Choices -/

theorem fieldMask_iff {lo hi : UInt8} {mask : BitVec 64} (h : fieldMask m lo hi = .ok mask) {k : ℕ}
    (hk : k < 64) : mask.getLsbD k = true ↔ InMask lo hi k := by
  obtain ⟨ones, hones, -⟩ := fieldMask_ok h
  rw [getLsbD_fieldMask h hones, getLsbD_onesU64_wrapped hones, decide_eq_true_iff, InMask]
  omega

/-- Where a field can be read it can be set. -/
theorem fieldSet_of_fieldValue {lo hi : UInt8} {word v : BitVec 64} (h : fieldValue m lo hi word = .ok v)
    (cur idx : BitVec 64) : ∃ w, fieldSet m lo hi cur idx = .ok w := by
  simp only [fieldValue, bind_eq_ok, pure_eq_ok] at h
  obtain ⟨ones, hones, shifted, hs, -⟩ := h
  have hshl : ∀ a : BitVec 64, m.shlU64 a lo.toNat = .ok (a <<< (lo.toNat % 64)) := by
    intro a
    simp only [Machine.shrU64, Machine.shlU64, Machine.checked] at hs ⊢
    split_ifs at hs with hno
    rw [if_neg hno]
  let mask := ones <<< (lo.toNat % 64)
  refine ⟨(cur &&& ~~~mask) ||| ((idx <<< (lo.toNat % 64)) &&& mask), ?_⟩
  rw [fieldSet, fieldMask, hones, ok_bind, hshl, ok_bind, hshl]
  rfl

/-- **The number of a field, set in another word**, puts the bits of the mask there. -/
theorem turn_choice_restores {pageIdx offset : ℕ} {p : PageState} {lo hi : UInt8} {raw : ℤ}
    {v : BitVec 64} {value : MsqValue XRat} (hform : SameForm t u) (hc : t.constant name = some c)
    (hcls : c.cls = .bits) (hshape : c.shape = some (.bits lo hi))
    (hloc : Tune.location c = some (pageIdx, offset)) (hp : t.page pageIdx = some p)
    (hread : readRaw p.data offset c.ty = some raw)
    (hv : fieldValue m lo hi (BitVec.ofInt 64 raw) = .ok v)
    (hidx : fileBitsIndex t name value = some (v.toNat : ℤ)) : Restores m t u c (name, value) := by
  have hsize := size_bits_le c.ty
  have hcu := (hform.constant name).trans hc
  obtain ⟨q, hq, hlen⟩ := hform.lengths pageIdx p hp
  have hidxu : fileBitsIndex u name value = some (v.toNat : ℤ) := by
    rw [← hidx]
    cases value <;> simp only [fileBitsIndex, hform.constant]
  obtain ⟨cur, hcur⟩ := readRaw_of_length_eq hlen hread
  have hindex : indexBits XRat v.toNat = v := by
    refine BitVec.eq_of_toNat_eq ((toNat_index ((v.toNat : ℤ) : ℚ)).trans ?_)
    rw [roundAway_intCast]
    have := fieldValue_lt hv
    omega
  obtain ⟨w, hw⟩ := fieldSet_of_fieldValue hv (BitVec.ofInt 64 cur) (indexBits XRat v.toNat)
  obtain ⟨mask, hmask, -⟩ := fieldSet_ok hw
  have hsets : ∀ j i, Sets c j i ↔ pageIdx = j ∧ 8 * offset ≤ i ∧ i < 8 * (offset + c.ty.size) ∧
      mask.getLsbD (i - 8 * offset) = true := by
    intro j i
    simp only [Sets, hcls]
    constructor
    · rintro ⟨o, lo', hi', hloc', hshape', h1, h2, hbit⟩
      obtain ⟨rfl, rfl⟩ := Prod.mk.inj (Option.some.inj (hloc.symm.trans hloc'))
      obtain ⟨rfl, rfl⟩ := Shape.bits.inj (Option.some.inj (hshape.symm.trans hshape'))
      exact ⟨rfl, h1, h2, (fieldMask_iff hmask (by omega)).mpr hbit⟩
    · rintro ⟨rfl, h1, h2, hbit⟩
      exact ⟨offset, lo, hi, hloc, hshape, h1, h2, (fieldMask_iff hmask (by omega)).mp hbit⟩
  have hturn : turn m u (name, value) = .ok (u.writePage pageIdx offset c.ty w.toInt) := by
    refine (turn_of_constant hcu).mpr ⟨.ok (), ?_⟩
    simp only [applyValue, hcls, hidxu]
    refine written_eq_ok.mpr (.inr ⟨?_, rfl⟩)
    exact (Tune.setBits_ok hcu hcls).mpr
      ⟨lo, hi, pageIdx, offset, q, cur, w, hshape, hloc, hq, hcur, hw, rfl⟩
  refine ⟨_, hturn, .writePage, fun j i hset => ?_, fun j i hset => ?_⟩
  · -- a bit of the mask is one of the number, and so of the word on the page
    obtain ⟨rfl, h1, h2, hbit⟩ := (hsets j i).mp hset
    obtain ⟨h3, h4⟩ := (fieldMask_iff hmask (by omega)).mp hbit
    obtain ⟨ones, hones, -⟩ := fieldValue_ok hv
    obtain ⟨hin, rfl⟩ := readRaw_eq_some.mp hread
    rw [Tune.bit_fieldSet hq hcur hw hmask, if_pos ⟨rfl, h1, h2, hbit⟩, hindex,
      getLsbD_fieldValue hv hones, getLsbD_onesU64_wrapped hones, decide_eq_true (by omega),
      Bool.and_true, Nat.add_sub_cancel' h3, getLsbD_decodeRaw c.ty _ (by omega),
      testBit_slice (by omega), Tune.bit_of_page hp, Nat.add_sub_cancel' h1]
  · rw [Tune.bit_fieldSet hq hcur hw hmask, if_neg fun h => hset ((hsets j i).mpr h)]

/-! ## The file -/

theorem ne_zero_of_abs {scale : ℚ} (hs : 1 / 1000000 < |scale|) : scale ≠ 0 := by
  rintro rfl
  norm_num at hs

theorem quantise_literal {raw : ℤ} {scale translate : ℚ} {s tr : XRat} (hcoded : t.Coded m c s tr)
    (hscale : c.scale = .num (fin scale)) (htranslate : c.translate = .num (fin translate))
    (hs : 1 / 1000000 < |scale|) (hraw : InRange c.ty raw) :
    quantise c (fin scale, fin translate) (sixDecimals (userOf s tr raw)) = raw := by
  obtain ⟨rfl, rfl⟩ := (Tune.coded_of_num m t hscale htranslate).unique hcoded
  exact (quantise_sixDecimals (ne_zero_of_abs hs)).trans
    ((nearestRaw_eq_iff hraw _).mpr (roundsTo_toMillionths hs))

theorem numbers_ofNumbers {values : List XRat} (hcls : c.cls = .array) (htwo : 2 ≤ c.elementCount)
    (hlen : values.length = c.elementCount) : numbers c (ofNumbers values) = some values := by
  refine numbers_eq_some.mpr (.inr ⟨hcls, ?_, hlen⟩)
  rcases values with - | ⟨v, - | ⟨w, values⟩⟩
  · rw [List.length_nil] at hlen
    omega
  · rw [List.length_singleton] at hlen
    omega
  · rfl

/-- **What is read of a constant that was written restores it.** -/
theorem written_restores (hread : Readable r t) (hform : SameForm t u) (h : Written m t name c line) :
    Restores m t u c (name, line.value r) := by
  have hc := h.1
  cases hcls : c.cls with
  | scalar =>
    obtain ⟨scale, translate, hscale, htranslate, hs⟩ := hread.literal name c hc (.inl hcls)
    obtain ⟨p, offset, raw, s, tr, digits, units, hl, hraw, hcoded, rfl⟩ :=
      lineOf_scalar hc hcls h.lineOf
    obtain ⟨pageIdx, hloc, hp⟩ := Tune.located_eq_some.mp hl
    refine turn_numbers_restores hform hc hscale htranslate (ne_zero_of_abs hs)
      (numbers_eq_some.mpr (.inl ⟨hcls, _, rfl, rfl⟩)) hloc hp fun k v hv => ?_
    obtain ⟨rfl, rfl⟩ : k = 0 ∧ _ = v := by simpa [List.getElem?_singleton] using hv
    rw [quantise_literal hcoded hscale htranslate hs (readRaw_inRange hraw), Nat.zero_mul, Nat.add_zero,
      hraw]
  | bits =>
    obtain ⟨p, offset, raw, lo, hi, v, hl, hraw, hshape, hv, rfl⟩ := lineOf_choice hc hcls h.lineOf
    obtain ⟨pageIdx, hloc, hp⟩ := Tune.located_eq_some.mp hl
    exact turn_choice_restores hform hc hcls hshape hloc hp hraw hv
      ((fileBitsIndex_choice hc (fieldValue_lt hv)).mpr fun label =>
        hread.labels name c hc hcls v.toNat label)
  | array =>
    obtain ⟨cols, rows, digits, units, values, rfl, hlen, helements⟩ := lineOf_array hc hcls h.lineOf
    obtain ⟨scale, translate, hscale, htranslate, hs⟩ := hread.literal name c hc (.inr hcls)
    have htwo := hread.arrays name c hc hcls
    -- the array has a place, for it has elements
    obtain ⟨p, offset, hl⟩ : ∃ p offset, t.located c = some (p, offset) := by
      obtain ⟨raw, -, -, hraw, -⟩ :=
        arrayElement_coded hc (helements 0 _ (List.getElem?_eq_getElem (by omega : 0 < values.length)))
      obtain ⟨p, offset, hl, -⟩ := (arrayRaw_eq_some hc).mp hraw
      exact ⟨p, offset, hl⟩
    obtain ⟨pageIdx, hloc, hp⟩ := Tune.located_eq_some.mp hl
    refine turn_numbers_restores hform hc hscale htranslate (ne_zero_of_abs hs)
      (numbers_ofNumbers hcls htwo (by rw [List.length_map, hlen])) hloc hp fun k v hv => ?_
    rw [List.getElem?_map, Option.map_eq_some_iff] at hv
    obtain ⟨v, hv, rfl⟩ := hv
    obtain ⟨raw, s, tr, hraw, hcoded, rfl⟩ := arrayElement_coded hc (helements k v hv)
    obtain ⟨p', offset', hl', hraw⟩ := (arrayRaw_eq_some hc).mp hraw
    obtain ⟨rfl, rfl⟩ := Prod.mk.inj (Option.some.inj (hl.symm.trans hl'))
    rw [quantise_literal hcoded hscale htranslate hs (readRaw_inRange hraw), hraw]
  | string =>
    have hcu := (hform.constant name).trans hc
    refine ⟨u, turn_idle fun c' hc' => ?_, .refl u, fun j i hset => ?_, fun _ _ _ => rfl⟩
    · obtain rfl := Option.some.inj (hcu.symm.trans hc')
      obtain ⟨text, -, rfl⟩ := lineOf_string hcls h.lineOf
      exact ⟨by simp [hcls], .inl rfl⟩
    · simp only [Sets, hcls] at hset

theorem sameForm_of_sized (ht : t.Sized) (hu : u.Sized) (hdf : u.df = t.df) : SameForm t u := by
  refine ⟨hdf, fun j p hp => ?_⟩
  obtain ⟨size, hsize, hpage⟩ := ht.page hp
  have hlen : j < u.pages.length := by
    have := hu.pageCount
    have := (List.getElem?_eq_some_iff.mp hsize).1
    rw [Tune.pageCount, hdf] at *
    omega
  have hq : u.page j = some u.pages[j] := List.getElem?_eq_getElem hlen
  obtain ⟨size', hsize', hpage'⟩ := hu.page hq
  rw [hdf] at hsize'
  obtain rfl := Option.some.inj (hsize.symm.trans hsize')
  exact ⟨_, hq, hpage'.data.trans hpage.data.symm⟩

/-- The bit is one of a constant that is written. -/
def Saved (m : Machine) (t : Tune XRat) (j i : ℕ) : Prop :=
  ∃ name c line, Written m t name c line ∧ Covers c j i

/-- The bit is one that the value of a constant that is written sets. -/
def Reset (m : Machine) (t : Tune XRat) (j i : ℕ) : Prop :=
  ∃ name c line, Written m t name c line ∧ Sets c j i

theorem saved_iff_reset (hfit : FieldsFit t) {j i : ℕ} : Saved m t j i ↔ Reset m t j i :=
  exists_congr fun _ => exists₂_congr fun _ _ => and_congr_right fun h => covers_iff_sets hfit h.1

/-- **A saved file that is applied restores what its values set**, whatever the order of overlapping
constants; every other bit stays. -/
theorem restore_sets (reader : Reader) {symbols : List String} {author writeDate text : String}
    (ht : t.Sized) (hu : u.Sized) (hdf : u.df = t.df) (hnames : PlainNames t)
    (hkept : ∀ name c, t.constant name = some c → r.string name = name) (hread : Readable r t)
    (hsave : save m t symbols author writeDate = .ok text) :
    ∃ file report u₁, MsqFile.parse reader (r.apply text.toList) = .ok file ∧
      applyConstants m none file.constants.entries (ApplyReport.empty, u) = .ok (report, u₁) ∧
      (∀ j i, Reset m t j i → u₁.bit j i = t.bit j i) ∧
      (∀ j i, ¬ Reset m t j i → u₁.bit j i = u.bit j i) ∧
      ∀ report' u', apply m file u none = .ok (report', u') → u'.data = u₁.data := by
  obtain ⟨vars, pages, -, hpages, hparse⟩ := parse_save reader r hnames hsave
  have hmem : ∀ name value,
      (name, value) ∈ (savedFile r t symbols author writeDate vars pages).constants.entries ↔
        ∃ c line, Written m t name c line ∧ value = line.value r := fun name value =>
    mem_constants_savedFile hkept hpages
  generalize savedFile r t symbols author writeDate vars pages = file at hparse hmem
  have hstep : ∀ e ∈ file.constants.entries, ∀ s, SameFrame u s → ∃ s', turn m s e = .ok s' ∧
      SameFrame u s' ∧
      (∀ i : ℕ × ℕ, (∃ c, t.constant e.1 = some c ∧ Sets c i.1 i.2) →
        s'.bit i.1 i.2 = t.bit i.1 i.2) ∧
      ∀ i : ℕ × ℕ, (¬ ∃ c, t.constant e.1 = some c ∧ Sets c i.1 i.2) →
        s'.bit i.1 i.2 = s.bit i.1 i.2 := by
    rintro ⟨name, value⟩ he s hs
    obtain ⟨c, line, hwritten, rfl⟩ := (hmem name value).mp he
    obtain ⟨s', hturn, hframe, hset, hkeep⟩ :=
      written_restores hread ((sameForm_of_sized ht hu hdf).frame hs) hwritten
    refine ⟨s', hturn, hs.trans hframe, ?_, fun i hi => ?_⟩
    · rintro i ⟨c', hc', hsets⟩
      obtain rfl := Option.some.inj (hwritten.1.symm.trans hc')
      exact hset i.1 i.2 hsets
    · exact hkeep i.1 i.2 fun hsets => hi ⟨c, hwritten.1, hsets⟩
  obtain ⟨u₁, hrun, -, hset, hkeep⟩ := foldlM_sets hstep (SameFrame.refl u)
  have hreset : ∀ j i, Reset m t j i ↔
      ∃ e ∈ file.constants.entries, ∃ c, t.constant e.1 = some c ∧ Sets c j i := by
    intro j i
    constructor
    · rintro ⟨name, c, line, hwritten, hsets⟩
      exact ⟨(name, line.value r), (hmem name _).mpr ⟨c, line, hwritten, rfl⟩, c, hwritten.1, hsets⟩
    · rintro ⟨⟨name, value⟩, he, c, hc, hsets⟩
      obtain ⟨c', line, hwritten, rfl⟩ := (hmem name value).mp he
      obtain rfl := Option.some.inj (hc.symm.trans hwritten.1)
      exact ⟨name, c, line, hwritten, hsets⟩
  have hturns : Prod.snd <$> applyConstants m none file.constants.entries (ApplyReport.empty, u) =
      .ok u₁ := (foldlM_hom (fun s e => applyConstant_snd s.1 s.2 e) _ _).trans hrun
  rcases happ : applyConstants m none file.constants.entries (ApplyReport.empty, u) with
    er | ⟨report, u₂⟩
  · rw [happ] at hturns
    cases hturns
  · rw [happ] at hturns
    obtain rfl : u₂ = u₁ := Except.ok.inj hturns
    refine ⟨file, report, u₂, hparse, happ, fun j i hi => hset (j, i) ((hreset j i).mp hi),
      fun j i hi => hkeep (j, i) fun h => hi ((hreset j i).mpr h), fun report' u' h => ?_⟩
    rw [apply, happ] at h
    exact congrArg (List.map PageState.data) (pcVariables_stay h).pages

/-- **A saved file that is applied restores what was saved**: every bit of a number, of an array or of a
choice that the file has; every other bit stays. -/
theorem restore (reader : Reader) (r : Recoding) (m : Machine) (t u : Tune XRat) (symbols : List String)
    (author writeDate text : String) (ht : t.Sized) (hu : u.Sized) (hdf : u.df = t.df)
    (hnames : PlainNames t) (hascii : ∀ name c, t.constant name = some c → Text.IsAscii name.toList)
    (hplain : Plain r t) (hsave : save m t symbols author writeDate = .ok text) :
    ∃ file report u₁, MsqFile.parse reader (r.apply text.toList) = .ok file ∧
      applyConstants m none file.constants.entries (ApplyReport.empty, u) = .ok (report, u₁) ∧
      (∀ j i, Saved m t j i → u₁.bit j i = t.bit j i) ∧
      (∀ j i, ¬ Saved m t j i → u₁.bit j i = u.bit j i) ∧
      ∀ report' u', apply m file u none = .ok (report', u') → u'.data = u₁.data := by
  obtain ⟨file, report, u₁, hparse, happ, hset, hkeep, hwhole⟩ := restore_sets reader ht hu hdf hnames
    (fun name c hc => r.string_of_isAscii (hascii name c hc)) hplain.readable hsave
  have hsaved : ∀ j i, Saved m t j i ↔ Reset m t j i := fun _ _ => saved_iff_reset hplain.fields
  exact ⟨file, report, u₁, hparse, happ, fun j i h => hset j i ((hsaved j i).mp h),
    fun j i h => hkeep j i fun h' => h ((hsaved j i).mpr h'), hwhole⟩

theorem plain_garage (bytes : List UInt8) : Plain Recoding.latin1 (garage bytes) := by
  refine ⟨fun name c lo hi hc hcls hshape => ?_, fun name c hc hcls => ?_, fun name c hc hcls => ?_,
    fun name c hc hcls i label hlabel hne => ?_⟩
  all_goals
    have hmem := garage_constant hc
    simp only [garageConstants, List.map_cons, List.map_nil, List.mem_cons, List.not_mem_nil, or_false,
      Prod.mk.injEq] at hmem
  · rcases hmem with ⟨-, rfl⟩ | ⟨-, rfl⟩ | ⟨-, rfl⟩ | ⟨-, rfl⟩
    · cases hcls
    · cases hcls
    · obtain ⟨rfl, rfl⟩ := Shape.bits.inj (Option.some.inj hshape)
      decide
    · cases hcls
  · rcases hmem with ⟨-, rfl⟩ | ⟨-, rfl⟩ | ⟨-, rfl⟩ | ⟨-, rfl⟩
    · exact ⟨1 / 10, 0, rfl, rfl, by norm_num⟩
    · exact ⟨1 / 2, 0, rfl, rfl, by norm_num⟩
    · exact absurd hcls (by decide)
    · exact absurd hcls (by decide)
  · rcases hmem with ⟨-, rfl⟩ | ⟨-, rfl⟩ | ⟨-, rfl⟩ | ⟨-, rfl⟩
    · cases hcls
    · decide
    · cases hcls
    · cases hcls
  · rcases hmem with ⟨-, rfl⟩ | ⟨-, rfl⟩ | ⟨-, rfl⟩ | ⟨-, rfl⟩
    · cases hcls
    · cases hcls
    · have hlabels : ∀ e ∈ ["Off", "On/Off", "PWM"].zipIdx,
          Text.IsAscii e.1.toList ∧ e.1.toList.getLast? ≠ some '"' ∧
            ["Off", "On/Off", "PWM"].idxOf e.1 = e.2 := by decide
      obtain ⟨hascii, hlast, hidx⟩ := hlabels (label, i) (List.mk_mem_zipIdx_iff_getElem?.mpr hlabel)
      exact ⟨⟨Recoding.latin1.apply_of_isAscii hascii, hlast⟩, hidx⟩
    · cases hcls

theorem restore_garage : ∃ text,
    save ⟨.debug, 8⟩ (garage garageBytes) ["LAMBDA"] "Ann & Bo" "today" = .ok text ∧
    ∃ file report u₁, MsqFile.parse Xml.scanner (Recoding.latin1.apply text.toList) = .ok file ∧
      applyConstants ⟨.debug, 8⟩ none file.constants.entries
        (ApplyReport.empty, garage [9, 9, 9, 9, 9, 9, 9, 9]) = .ok (report, u₁) ∧
      (∀ j i, Saved ⟨.debug, 8⟩ (garage garageBytes) j i →
        u₁.bit j i = (garage garageBytes).bit j i) ∧
      (∀ j i, ¬ Saved ⟨.debug, 8⟩ (garage garageBytes) j i →
        u₁.bit j i = (garage [9, 9, 9, 9, 9, 9, 9, 9]).bit j i) ∧
      ∀ report' u', apply ⟨.debug, 8⟩ file (garage [9, 9, 9, 9, 9, 9, 9, 9]) none = .ok (report', u') →
        u'.data = u₁.data := by
  obtain ⟨text, hsave⟩ := save_garage
  exact ⟨text, hsave, restore Xml.scanner Recoding.latin1 _ _ _ _ _ _ _ (.cons ⟨rfl, rfl, rfl⟩ .nil)
    (.cons ⟨rfl, rfl, rfl⟩ .nil) rfl (garage_names _) (fun _ _ => garage_ascii) (plain_garage _) hsave⟩

end RustyTune.TuneModel.Msq
