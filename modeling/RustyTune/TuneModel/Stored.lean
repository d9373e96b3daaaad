import RustyTune.Lib.Nearest
import RustyTune.TuneModel.Cells

/-!
# What a write stores

Scale and translate are rationals here, and so are the values; the arithmetic on them is exact.

* `decoded`, `nearestRaw`: the value of a raw number, and the raw number that is written for a value.
* `Tune.StoresNearest`: the cell holds a number of its type that is the nearest one to a value.
* **`setCell_nearest`**: a write does that, for the value first put within the limits where it is
  clamped; it leaves what it would put there.
* **`setCell_within_iff`**: when a clamped write leaves a value that is within the limits.
  **`stored_beyond_limit`**: not always.
-/

namespace RustyTune.TuneModel

open TsIni Exec XRat

/-! ## Exact arithmetic -/

/-- The value of a raw number in user units. -/
def decoded (scale translate : ℚ) (raw : ℤ) : ℚ := (raw + translate) * scale

def inRaw (scale translate user : ℚ) : ℚ := user / scale - translate

/-- The raw number that is written for a value. -/
def nearestRaw (ty : DataType) (scale translate user : ℚ) : ℤ :=
  clampRaw ty (roundAway (inRaw scale translate user))

section Exact

variable {scale translate : ℚ} {ty : DataType}

theorem inRaw_decoded (hs : scale ≠ 0) (raw : ℤ) :
    inRaw scale translate (decoded scale translate raw) = raw := by
  rw [inRaw, decoded, mul_div_cancel_right₀ _ hs, add_sub_cancel_right]

theorem decoded_sub (hs : scale ≠ 0) (raw : ℤ) (user : ℚ) :
    decoded scale translate raw - user = (raw - inRaw scale translate user) * scale := by
  rw [inRaw, decoded]
  field_simp
  ring

theorem nearestRaw_inRange (user : ℚ) : InRange ty (nearestRaw ty scale translate user) :=
  clampRaw_inRange _ _

theorem nearestRaw_decoded (hs : scale ≠ 0) {raw : ℤ} (hr : InRange ty raw) :
    nearestRaw ty scale translate (decoded scale translate raw) = raw := by
  rw [nearestRaw, inRaw_decoded hs, roundAway_intCast, clampRaw_of_inRange hr]

/-- **No number of the type is nearer.** -/
theorem nearestRaw_nearest (hs : scale ≠ 0) (user : ℚ) {raw : ℤ} (hr : InRange ty raw) :
    |decoded scale translate (nearestRaw ty scale translate user) - user| ≤
      |decoded scale translate raw - user| := by
  rw [decoded_sub hs, decoded_sub hs, abs_mul, abs_mul]
  exact mul_le_mul_of_nonneg_right (abs_clamp_sub_le (abs_roundAway_sub_le _) hr.1 hr.2)
    (abs_nonneg scale)

/-- The cast to 64 bits takes nothing from a number of the type. -/
theorem clampRaw_toI64 (n : ℤ) :
    clampRaw ty (F64.toI64 (XRat.fin n)).toInt = clampRaw ty n := by
  rw [toInt_toI64, clampRaw, clampRaw]
  cases ty <;> simp only [typeRange] <;> omega

theorem quantise_fin {c : ConstantDef XRat} (hs : scale ≠ 0) (user : ℚ) :
    quantise c (.fin scale, .fin translate) (.fin user) = nearestRaw c.ty scale translate user := by
  have hdiv : F64.div (XRat.fin user) (.fin scale) = .fin (user / scale) := if_neg hs
  have hround : F64.round (F64.sub (F64.div (XRat.fin user) (.fin scale)) (.fin translate)) =
      .fin (roundAway (inRaw scale translate user) : ℤ) := by
    rw [hdiv, inRaw, sub_eq_add_neg]
    rfl
  rw [quantise, hround, clampRaw_toI64, nearestRaw]

end Exact

namespace Tune

variable {m : Machine} {t t' : Tune XRat} {cell : Cell} {c : ConstantDef XRat} {pageIdx offset : ℕ}
  {p : PageState} {scale translate : ℚ}

/-! ## One write -/

theorem Coded.encode (hcode : t.Coded m c (.fin scale) (.fin translate)) (hs : scale ≠ 0) (user : ℚ) :
    t.encodeImpl m c (.fin user) false = pure (nearestRaw c.ty scale translate user) := by
  have hzero : F64.eq (XRat.fin scale) 0 = false := decide_eq_false hs
  rw [encodeImpl_eq_bind, hcode.coding hzero]
  simp only [Bool.false_eq_true, if_false, pure_bind, quantise_fin hs]

theorem cellValue_fin (h : t.Stands cell c pageIdx offset) (hp : t.page pageIdx = some p)
    (hcode : t.Coded m c (.fin scale) (.fin translate)) {raw : ℤ}
    (hraw : readRaw p.data offset c.ty = some raw) :
    t.cellValue m cell = .ok (some (.fin (decoded scale translate raw))) := by
  rw [cellValue_eq h hp, hraw]
  exact hcode.scaled raw

/-- The value that a cell without a word in the page has is none. -/
theorem cellValue_none (h : t.Stands cell c pageIdx offset) (hp : t.page pageIdx = some p)
    (hlen : p.data.length < offset + c.ty.size) : t.cellValue m cell = .ok none := by
  rw [cellValue_eq h hp, readRaw_eq_none.mpr hlen]
  rfl

/-- Scale and translate are these whatever the bytes of the cell are. -/
def CodedApart (m : Machine) (t : Tune XRat) (c : ConstantDef XRat) (pageIdx offset : ℕ)
    (scale translate : ℚ) : Prop :=
  ∀ raw, (t.writePage pageIdx offset c.ty raw).Coded m c (.fin scale) (.fin translate)

/-- The cell holds a number of its type that is the nearest one to the value. -/
def StoresNearest (m : Machine) (t : Tune XRat) (cell : Cell) (ty : DataType) (scale translate : ℚ)
    (user : ℚ) : Prop :=
  ∃ raw, InRange ty raw ∧ t.cellValue m cell = .ok (some (.fin ((raw + translate) * scale))) ∧
    ∀ r, InRange ty r → |(raw + translate) * scale - user| ≤ |(r + translate) * scale - user|

/-- Limits that are there and evaluate. -/
structure Limits (m : Machine) (t : Tune XRat) (c : ConstantDef XRat) (lo hi : Option ℚ) : Prop where
  lo : t.limit m c.lo = .ok (lo.map .fin)
  hi : t.limit m c.hi = .ok (hi.map .fin)

end Tune

/-- A value first limited to `lo`, then to `hi`. -/
def limited (lo hi : Option ℚ) (user : ℚ) : ℚ :=
  let user := lo.elim user (max user)
  hi.elim user (min user)

namespace Tune

variable {m : Machine} {t t' : Tune XRat} {cell : Cell} {c : ConstantDef XRat} {pageIdx offset : ℕ}
  {p : PageState} {scale translate : ℚ} {lo hi : Option ℚ}

theorem max_fin (a b : ℚ) : F64.max (XRat.fin a) (.fin b) = .fin (max a b) := by
  change (if XRat.lt (.fin a) (.fin b) then XRat.fin b else .fin a) = _
  rw [max_def]
  by_cases h : a < b
  · simp [XRat.lt, h, h.le]
  · rcases (not_lt.mp h).lt_or_eq with h' | rfl
    · simp [XRat.lt, h, not_le.mpr h']
    · simp [XRat.lt]

theorem min_fin (a b : ℚ) : F64.min (XRat.fin a) (.fin b) = .fin (min a b) := by
  change (if XRat.lt (.fin b) (.fin a) then XRat.fin b else .fin a) = _
  rw [min_def]
  by_cases h : b < a
  · simp [XRat.lt, h, not_le.mpr h]
  · simp [XRat.lt, h, not_lt.mp h]

theorem Limits.clampUser (h : t.Limits m c lo hi) (user : ℚ) :
    t.clampUser m c (.fin user) = .ok (.fin (limited lo hi user)) := by
  rw [Tune.clampUser, h.lo, ok_bind, h.hi, ok_bind]
  cases lo <;> cases hi <;> simp only [Option.map_none, Option.map_some, limited, Option.elim_none,
    Option.elim_some, max_fin, min_fin] <;> rfl

theorem Limits.setCell (h : t.Limits m c lo hi) (hc : t.Stands cell c pageIdx offset) (user : ℚ) :
    t.setCell m cell (.fin user) true = t.setCell m cell (.fin (limited lo hi user)) false := by
  rw [setCell_eq hc, setCell_eq hc, encodeImpl_eq_bind, encodeImpl_eq_bind, h.clampUser]
  rfl

theorem CodedApart.self (hcode : t.CodedApart m c pageIdx offset scale translate)
    (hp : t.page pageIdx = some p) {raw : ℤ} (hraw : readRaw p.data offset c.ty = some raw) :
    t.Coded m c (.fin scale) (.fin translate) := by
  have h := hcode raw
  rwa [writePage_eq_self hp (writeRaw_readRaw hraw)] at h

/-- **A write of a value puts the nearest number of the type on the page.** -/
theorem Coded.setCell (hcode : t.Coded m c (.fin scale) (.fin translate)) (hs : scale ≠ 0)
    (hc : t.Stands cell c pageIdx offset) (hp : t.page pageIdx = some p) (user : ℚ) :
    (t.setCell m cell (.fin user) false).run =
      .ok (.ok (t.writePage pageIdx offset c.ty (nearestRaw c.ty scale translate user))) := by
  refine (setCell_ok hc).mpr ⟨_, p, ?_, hp, rfl⟩
  rw [hcode.encode hs]
  rfl

section Nearest

variable (hc : t.Stands cell c pageIdx offset) (hp : t.page pageIdx = some p)
  (hin : offset + c.ty.size ≤ p.data.length)
include hc hp hin

/-- What stands in the cell after a write of a raw number. -/
theorem cellValue_writePage (hcode : t.CodedApart m c pageIdx offset scale translate) {raw : ℤ}
    (hr : InRange c.ty raw) : (t.writePage pageIdx offset c.ty raw).cellValue m cell =
      .ok (some (.fin (decoded scale translate raw))) :=
  cellValue_fin (hc.writePage ..) (page_writePage_self hp) (hcode raw) (readRaw_writeRaw hin hr)

omit hc in
theorem writePage_writePage {raw : ℤ} (hr : InRange c.ty raw) :
    (t.writePage pageIdx offset c.ty raw).writePage pageIdx offset c.ty raw =
      t.writePage pageIdx offset c.ty raw :=
  writePage_eq_self (page_writePage_self hp) (writeRaw_readRaw (readRaw_writeRaw hin hr))

theorem storesNearest (hs : scale ≠ 0)
    (hcode : t.CodedApart m c pageIdx offset scale translate) (user : ℚ) :
    (t.writePage pageIdx offset c.ty (nearestRaw c.ty scale translate user)).StoresNearest m cell c.ty
      scale translate user :=
  ⟨_, nearestRaw_inRange user, cellValue_writePage hc hp hin hcode (nearestRaw_inRange user),
    fun _ hr => nearestRaw_nearest hs user hr⟩

theorem setCell_again (hs : scale ≠ 0)
    (hcode : t.CodedApart m c pageIdx offset scale translate) (user : ℚ) :
    let t' := t.writePage pageIdx offset c.ty (nearestRaw c.ty scale translate user)
    (t'.setCell m cell (.fin user) false).run = .ok (.ok t') := by
  intro t'
  rw [(hcode _).setCell hs (hc.writePage ..) (page_writePage_self hp),
    writePage_writePage hp hin (nearestRaw_inRange user)]

theorem setCell_read (hs : scale ≠ 0)
    (hcode : t.CodedApart m c pageIdx offset scale translate) :
    ∃ v, t.cellValue m cell = .ok (some (.fin v)) ∧
      (t.setCell m cell (.fin v) false).run = .ok (.ok t) := by
  have hraw := readRaw_of_le hin
  have hself := hcode.self hp hraw
  refine ⟨_, cellValue_fin hc hp hself hraw, ?_⟩
  rw [hself.setCell hs hc hp, nearestRaw_decoded hs (readRaw_inRange hraw),
    writePage_eq_self hp (writeRaw_readRaw hraw)]

/-- **A write stores the nearest value.** Unclamped, of the value itself; clamped, of the value first
limited. What was read is written back, and a write is repeated, to no effect. -/
theorem setCell_nearest (hs : scale ≠ 0)
    (hcode : t.CodedApart m c pageIdx offset scale translate) :
    (∀ user : ℚ, ∃ t', (t.setCell m cell (.fin user) false).run = .ok (.ok t') ∧
      t'.StoresNearest m cell c.ty scale translate user ∧
      (t'.setCell m cell (.fin user) false).run = .ok (.ok t')) ∧
    (∃ v, t.cellValue m cell = .ok (some (.fin v)) ∧
      (t.setCell m cell (.fin v) false).run = .ok (.ok t)) ∧
    ∀ lo hi, t.Limits m c lo hi →
      (∀ user : ℚ, ∃ t', (t.setCell m cell (.fin user) true).run = .ok (.ok t') ∧
        t'.StoresNearest m cell c.ty scale translate (limited lo hi user) ∧
        (t'.Limits m c lo hi → (t'.setCell m cell (.fin user) true).run = .ok (.ok t'))) ∧
      ∀ v, t.cellValue m cell = .ok (some (.fin v)) → limited lo hi v = v →
        (t.setCell m cell (.fin v) true).run = .ok (.ok t) := by
  have hself := hcode.self hp (readRaw_of_le hin)
  obtain ⟨v, hv, hback⟩ := setCell_read hc hp hin hs hcode
  refine ⟨fun user => ?_, ⟨v, hv, hback⟩, fun lo hi hlim => ⟨fun user => ?_, fun v' hv' hlimited => ?_⟩⟩
  · exact ⟨_, hself.setCell hs hc hp user, storesNearest hc hp hin hs hcode user,
      setCell_again hc hp hin hs hcode user⟩
  · refine ⟨_, ?_, storesNearest hc hp hin hs hcode (limited lo hi user), fun hlim' => ?_⟩
    · rw [hlim.setCell hc]
      exact hself.setCell hs hc hp _
    · rw [hlim'.setCell (hc.writePage ..)]
      exact setCell_again hc hp hin hs hcode _
  · have heq : v = v' := XRat.fin.inj (Option.some.inj (Except.ok.inj (hv.symm.trans hv')))
    rw [hlim.setCell hc, hlimited, ← heq]
    exact hback

end Nearest

end Tune

/-! ## Limits -/

section Limits

variable {scale translate lo hi : ℚ} {ty : DataType}

theorem inRaw_mono (hs : 0 < scale) (translate : ℚ) : Monotone (inRaw scale translate) :=
  fun _ _ h => sub_le_sub_right (div_le_div_of_nonneg_right h hs.le) translate

theorem inRaw_anti (hs : scale < 0) (translate : ℚ) : Antitone (inRaw scale translate) :=
  fun _ _ h => sub_le_sub_right (div_le_div_of_nonpos_of_le hs.le h) translate

/-- The limits in raw units; with a negative scale they change places. -/
def rawLow (scale translate lo hi : ℚ) : ℚ := min (inRaw scale translate lo) (inRaw scale translate hi)

def rawHigh (scale translate lo hi : ℚ) : ℚ := max (inRaw scale translate lo) (inRaw scale translate hi)

/-- The last raw number within each limit is the last one of the type, or the limit itself is rounded to
it, or the value is rounded to it or to one further inside. -/
def StaysWithin (ty : DataType) (scale translate lo hi user : ℚ) : Prop :=
  let low := rawLow scale translate lo hi
  let high := rawHigh scale translate lo hi
  let value := inRaw scale translate user
  ((typeRange ty).2 ≤ ⌊high⌋ ∨ RoundsDownTo ⌊high⌋ high ∨ RoundsDownTo ⌊high⌋ value) ∧
    (⌈low⌉ ≤ (typeRange ty).1 ∨ RoundsUpTo ⌈low⌉ low ∨ RoundsUpTo ⌈low⌉ value)

theorem decoded_within_iff (hs : scale ≠ 0) (hle : lo ≤ hi) (raw : ℤ) :
    (lo ≤ decoded scale translate raw ∧ decoded scale translate raw ≤ hi) ↔
      ⌈rawLow scale translate lo hi⌉ ≤ raw ∧ raw ≤ ⌊rawHigh scale translate lo hi⌋ := by
  rw [Int.ceil_le, Int.le_floor, rawLow, rawHigh, decoded]
  rcases hs.lt_or_gt with hneg | hpos
  · have hanti := inRaw_anti hneg translate hle
    rw [min_eq_right hanti, max_eq_left hanti, inRaw, inRaw, sub_le_iff_le_add, le_sub_iff_add_le,
      div_le_iff_of_neg hneg, le_div_iff_of_neg hneg, and_comm]
  · have hmono := inRaw_mono hpos translate hle
    rw [min_eq_left hmono, max_eq_right hmono, inRaw, inRaw, sub_le_iff_le_add, le_sub_iff_add_le,
      div_le_iff₀ hpos, le_div_iff₀ hpos]

theorem inRaw_limited (hs : scale ≠ 0) (hle : lo ≤ hi) (user : ℚ) :
    inRaw scale translate (limited (some lo) (some hi) user) =
      max (rawLow scale translate lo hi)
        (min (inRaw scale translate user) (rawHigh scale translate lo hi)) := by
  have hlimited : limited (some lo) (some hi) user = min hi (max lo user) := by
    simp only [limited, Option.elim_some, max_comm, min_comm]
  rw [hlimited, rawLow, rawHigh]
  rcases hs.lt_or_gt with hneg | hpos
  · have hanti := inRaw_anti hneg translate
    rw [hanti.map_min, hanti.map_max, min_eq_right (hanti hle), max_eq_left (hanti hle),
      min_comm (inRaw scale translate lo)]
  · have hmono := inRaw_mono hpos translate
    rw [hmono.map_min, hmono.map_max, min_eq_left (hmono hle), max_eq_right (hmono hle),
      min_comm (inRaw scale translate hi), max_min_distrib_left, max_eq_right (hmono hle)]

/-- **The raw number that is written is within the limits exactly when the value stays there**, if there
is a number of the type that is. -/
theorem nearestRaw_within_iff (hs : scale ≠ 0) (hle : lo ≤ hi)
    (hsome : ∃ r, InRange ty r ∧ lo ≤ decoded scale translate r ∧ decoded scale translate r ≤ hi)
    (user : ℚ) :
    let raw := nearestRaw ty scale translate (limited (some lo) (some hi) user)
    (lo ≤ decoded scale translate raw ∧ decoded scale translate raw ≤ hi) ↔
      StaysWithin ty scale translate lo hi user := by
  intro raw
  obtain ⟨r, ⟨hmin, hmax⟩, hr⟩ := hsome
  obtain ⟨hlow, hhigh⟩ := (decoded_within_iff hs hle r).mp hr
  rw [decoded_within_iff hs hle, StaysWithin]
  have hlow' := Int.ceil_le.mp hlow
  have hhigh' := Int.le_floor.mp hhigh
  have hraw : raw = max (typeRange ty).1 (min (roundAway (max (rawLow scale translate lo hi)
      (min (inRaw scale translate user) (rawHigh scale translate lo hi)))) (typeRange ty).2) := by
    rw [← inRaw_limited hs hle]
    rfl
  -- a raw number within the limits is between the two ends
  have hdown : RoundsDownTo ⌊rawHigh scale translate lo hi⌋ (rawLow scale translate lo hi) :=
    roundsDownTo_of_le (hlow'.trans (Int.cast_le.mpr hhigh))
  have hup : RoundsUpTo ⌈rawLow scale translate lo hi⌉ (rawHigh scale translate lo hi) :=
    roundsUpTo_of_le ((Int.cast_le.mpr hlow).trans hhigh')
  have hbelow : raw ≤ ⌊rawHigh scale translate lo hi⌋ ↔
      (typeRange ty).2 ≤ ⌊rawHigh scale translate lo hi⌋ ∨
        RoundsDownTo ⌊rawHigh scale translate lo hi⌋ (rawHigh scale translate lo hi) ∨
        RoundsDownTo ⌊rawHigh scale translate lo hi⌋ (inRaw scale translate user) := by
    rw [hraw, max_le_iff, min_le_iff, roundAway_le_iff, roundsDownTo_max, roundsDownTo_min]
    have hfirst : (typeRange ty).1 ≤ ⌊rawHigh scale translate lo hi⌋ := hmin.trans hhigh
    simp only [hfirst, hdown, true_and]
    exact or_comm.trans (or_congr_right or_comm)
  have habove : ⌈rawLow scale translate lo hi⌉ ≤ raw ↔
      ⌈rawLow scale translate lo hi⌉ ≤ (typeRange ty).1 ∨
        RoundsUpTo ⌈rawLow scale translate lo hi⌉ (rawLow scale translate lo hi) ∨
        RoundsUpTo ⌈rawLow scale translate lo hi⌉ (inRaw scale translate user) := by
    rw [hraw, le_max_iff, le_min_iff, le_roundAway_iff, roundsUpTo_max, roundsUpTo_min]
    have hlast : ⌈rawLow scale translate lo hi⌉ ≤ (typeRange ty).2 := hlow.trans hmax
    simp only [hlast, hup, and_true]
  rw [hbelow, habove, and_comm]

end Limits

namespace Tune

variable {m : Machine} {t t' : Tune XRat} {cell : Cell} {c : ConstantDef XRat} {pageIdx offset : ℕ}
  {p : PageState} {scale translate : ℚ} {lo hi : ℚ}

theorem scale_ne_zero (hc : t.Stands cell c pageIdx offset)
    (hcode : t.Coded m c (.fin scale) (.fin translate)) {user : XRat} {clamp : Bool}
    (hset : (t.setCell m cell user clamp).run = .ok (.ok t')) : scale ≠ 0 := by
  rintro rfl
  obtain ⟨raw, p, henc, -⟩ := (setCell_ok hc).mp hset
  have hzero : F64.eq (XRat.fin 0) 0 = true := by decide
  rw [encodeImpl_eq_bind, attempt_bind_eq_ok] at henc
  obtain ⟨s, hs, -⟩ := henc
  rw [hcode.coding_zero hzero] at hs
  exact throw_ne_ok hs

theorem limits_of_num (m : Machine) (t : Tune XRat) (hlo : c.lo = some (.num (.fin lo)))
    (hhi : c.hi = some (.num (.fin hi))) : t.Limits m c (some lo) (some hi) :=
  ⟨by rw [hlo]; rfl, by rw [hhi]; rfl⟩

/-- **A clamped write leaves a value within the limits exactly when the value stays there.** A cell past
the end of its page has no value. -/
theorem setCell_within_iff (hc : t.Stands cell c pageIdx offset) (hscale : c.scale = .num (.fin scale))
    (htranslate : c.translate = .num (.fin translate)) (hlo : c.lo = some (.num (.fin lo)))
    (hhi : c.hi = some (.num (.fin hi))) (hle : lo ≤ hi)
    (hsome : ∃ r, InRange c.ty r ∧ lo ≤ decoded scale translate r ∧ decoded scale translate r ≤ hi)
    (user : ℚ) (hset : (t.setCell m cell (.fin user) true).run = .ok (.ok t')) :
    (∀ v, t'.cellValue m cell = .ok (some (.fin v)) → lo ≤ v ∧ v ≤ hi) ↔
      (∃ p, t.page pageIdx = some p ∧ p.data.length < offset + c.ty.size) ∨
        StaysWithin c.ty scale translate lo hi user := by
  have hcode (u : Tune XRat) : u.Coded m c (.fin scale) (.fin translate) :=
    coded_of_num m u hscale htranslate
  have hs := scale_ne_zero hc (hcode t) hset
  obtain ⟨-, p, -, hp, -⟩ := (setCell_ok hc).mp hset
  rw [(limits_of_num m t hlo hhi).setCell hc, (hcode t).setCell hs hc hp] at hset
  obtain rfl := Except.ok.inj (Except.ok.inj hset)
  by_cases hin : p.data.length < offset + c.ty.size
  · refine iff_of_true (fun v hv => ?_) (.inl ⟨p, hp, hin⟩)
    rw [cellValue_none (hc.writePage ..) (page_writePage_self hp) (by rwa [length_writeRaw])] at hv
    exact nomatch Except.ok.inj hv
  · have hr : InRange c.ty (nearestRaw c.ty scale translate (limited (some lo) (some hi) user)) :=
      nearestRaw_inRange _
    have hval := cellValue_writePage hc hp (Nat.not_lt.mp hin) (m := m) (fun raw => hcode _) hr
    refine Iff.trans ?_ (or_congr Iff.rfl (nearestRaw_within_iff hs hle hsome user))
    rw [hval]
    constructor
    · intro h
      exact .inr (h _ rfl)
    · rintro (⟨p', hp', hout⟩ | h) v hv
      · rw [Option.some.inj (hp.symm.trans hp')] at hin
        exact absurd hout hin
      · rwa [← XRat.fin.inj (Option.some.inj (Except.ok.inj hv))]

end Tune

/-! ## Beyond a limit -/

/-- A definition of one page, with one constant. -/
def oneConstant (size : UInt32) (c : ConstantDef XRat) : IniDef XRat where
  header := { pageSizes := [size] }
  constants := IndexMap.ofList [(c.name, c)]

/-- A number of a byte at the start of its page. -/
def byteScalar (name : String) (scale lo hi : ℚ) : ConstantDef XRat where
  name
  cls := .scalar
  ty := .u08
  page := some 1
  offset := some 0
  shape := none
  units := none
  scale := .num (.fin scale)
  translate := .num (.fin 0)
  lo := some (.num (.fin lo))
  hi := some (.num (.fin hi))
  digits := none
  labels := []
  stringLen := none
  noMsqSave := false

/-- A gain in steps of 1/32, up to 7.96. -/
def idleKP : ConstantDef XRat := byteScalar "idleKP" (1 / 32) 0 (199 / 25)

def gains : Tune XRat := Tune.new (oneConstant 1 idleKP)

theorem gains_stands : gains.Stands (.scalar "idleKP") idleKP 0 0 := ⟨rfl, rfl, 0, rfl, rfl⟩

/-- A gain that is not stored exactly. -/
theorem setCell_nearest_gain :
    ∃ t', (gains.setCell ⟨.debug, 8⟩ (.scalar "idleKP") (.fin (1 / 3)) false).run = .ok (.ok t') ∧
      t'.StoresNearest ⟨.debug, 8⟩ (.scalar "idleKP") .u08 (1 / 32) 0 (1 / 3) ∧
      (t'.setCell ⟨.debug, 8⟩ (.scalar "idleKP") (.fin (1 / 3)) false).run = .ok (.ok t') :=
  (Tune.setCell_nearest (t := gains) (p := ⟨[0], [0], [0]⟩) gains_stands rfl (by decide)
    (by norm_num) fun _ => Tune.coded_of_num _ _ rfl rfl).1 (1 / 3)

theorem gains_setCell {user : ℚ} {raw : ℤ}
    (hraw : nearestRaw .u08 (1 / 32) 0 (limited (some 0) (some (199 / 25)) user) = raw) :
    (gains.setCell ⟨.debug, 8⟩ (.scalar "idleKP") (.fin user) true).run =
      .ok (.ok (gains.writePage 0 0 .u08 raw)) := by
  rw [(Tune.limits_of_num (c := idleKP) _ gains rfl rfl).setCell gains_stands, ← hraw]
  exact (Tune.coded_of_num _ gains rfl rfl).setCell (by norm_num) gains_stands rfl _

/-- A gain asked for within the limits is stored within them. -/
theorem setCell_within_iff_gain :
    (∀ v, (gains.writePage 0 0 .u08 160).cellValue ⟨.debug, 8⟩ (.scalar "idleKP") =
      .ok (some (.fin v)) → 0 ≤ v ∧ v ≤ 199 / 25) ↔
      (∃ p, gains.page 0 = some p ∧ p.data.length < 0 + DataType.u08.size) ∨
        StaysWithin .u08 (1 / 32) 0 0 (199 / 25) 5 :=
  Tune.setCell_within_iff gains_stands rfl rfl rfl rfl (by norm_num)
    ⟨0, ⟨by decide, by decide⟩, by norm_num [decoded], by norm_num [decoded]⟩ 5
    (gains_setCell (by decide +kernel))

/-- **A gain above its limit is stored.** 7.96 is 254.72 steps, and 255 are written. -/
theorem stored_beyond_limit : ¬ ∀ (m : Machine) (t t' : Tune XRat) (cell : Cell)
    (c : ConstantDef XRat) (pageIdx offset : ℕ) (scale translate lo hi user : ℚ),
    t.Stands cell c pageIdx offset → c.scale = .num (.fin scale) →
    c.translate = .num (.fin translate) → c.lo = some (.num (.fin lo)) →
    c.hi = some (.num (.fin hi)) → lo ≤ hi →
    (∃ r, InRange c.ty r ∧ lo ≤ decoded scale translate r ∧ decoded scale translate r ≤ hi) →
    (t.setCell m cell (.fin user) true).run = .ok (.ok t') →
    ∀ v, t'.cellValue m cell = .ok (some (.fin v)) → lo ≤ v ∧ v ≤ hi := by
  intro h
  have hval : (gains.writePage 0 0 .u08 255).cellValue ⟨.debug, 8⟩ (.scalar "idleKP") =
      .ok (some (.fin (decoded (1 / 32) 0 255))) :=
    Tune.cellValue_writePage (p := ⟨[0], [0], [0]⟩) gains_stands rfl (by decide)
      (fun _ => Tune.coded_of_num _ _ rfl rfl) ⟨by decide, by decide⟩
  have hv := h ⟨.debug, 8⟩ gains _ (.scalar "idleKP") idleKP 0 0 (1 / 32) 0 0 (199 / 25) (199 / 25)
    gains_stands rfl rfl rfl rfl (by norm_num)
    ⟨0, ⟨by decide, by decide⟩, by norm_num [decoded], by norm_num [decoded]⟩
    (gains_setCell (by decide +kernel)) _ hval
  norm_num [decoded] at hv

end RustyTune.TuneModel
