import RustyTune.TuneModel.Views

/-!
# The table editor

The browser shows what an edit will store before it posts it: an axis value as it is typed, and cells
as they are nudged. It rounds halves up and knows the limits that it was served, but not the type.

* `encoded`, with `encodedValue` and `nudge`: the previews.
* `Kept`, `CellKept`: when a value within the limits is stored as its preview.
  **`nearestRaw_snapped_iff`**, **`nearestRaw_cell_iff`**: then, and only then, both round to the same
  raw number.
* **`axis_stored_iff`**, **`cell_stored_iff`**: the preview is what is read back, exactly then.
  **`preview_beyond_type`**: not always.
-/

namespace RustyTune.Web

open TsIni TuneModel Exec

open XRat (roundAway)

/-! ## The browser -/

/-- `Math.round`: to the nearest whole number, halves up. -/
def mathRound : XRat → XRat := XRat.mapFin roundUp

/-- A value within the limits, on the nearest raw step. -/
def encoded (lo hi scale translate value : XRat) : XRat :=
  let clamped := F64.min hi (F64.max lo value)
  let raw := mathRound (F64.sub (F64.div clamped scale) translate)
  F64.mul (F64.add raw translate) scale

/-- The preview of an axis value. -/
def encodedValue (value : XRat) (axis : AxisMeta XRat) : XRat :=
  encoded (axis.lo.getD (.inf true)) (axis.hi.getD (.inf false)) axis.scale axis.translate value

inductive AdjustMode
  | fixed
  | percent
  deriving DecidableEq, Repr

/-- A rectangle of cells, by two corners. -/
structure Sel where
  r0 : ℕ
  c0 : ℕ
  r1 : ℕ
  c1 : ℕ
  deriving DecidableEq, Repr

/-- The cell lies in the rectangle, whichever corners are given. -/
def Sel.Has (s : Sel) (row col : ℕ) : Prop :=
  min s.r0 s.r1 ≤ row ∧ row ≤ max s.r0 s.r1 ∧ min s.c0 s.c1 ≤ col ∧ col ≤ max s.c0 s.c1

instance (s : Sel) (row col : ℕ) : Decidable (s.Has row col) := inferInstanceAs (Decidable (_ ∧ _))

/-- What a nudge adds: the number entered, or else one unit of the last digit or one percent. -/
def amountOf (d : TableData XRat) (mode : AdjustMode) (entered : Option XRat) : XRat :=
  entered.getD <|
    match mode with
    | .fixed => .fin (1 / 10 ^ d.zDigits.toNat)
    | .percent => .fin 1

/-- A value moved up or down. -/
def adjusted (mode : AdjustMode) (up : Bool) (amount current : XRat) : XRat :=
  let step := F64.mul (if up then 1 else F64.neg 1) amount
  match mode with
  | .fixed => F64.add current step
  | .percent => F64.mul current (F64.add 1 (F64.div step 100))

/-- The cells that have a preview. -/
abbrev Pending := ℕ → ℕ → Option XRat

def Pending.shown (pending : Pending) (d : TableData XRat) (row col : ℕ) : Option XRat :=
  (pending row col).or (d.cell row col)

/-- The preview of a nudged cell. -/
def nudgedValue (d : TableData XRat) (mode : AdjustMode) (up : Bool) (amount current : XRat) : XRat :=
  encoded d.zLo d.zHi d.zScale d.zTranslate (adjusted mode up amount current)

/-- The selected cells are nudged, from what they show. -/
def nudge (d : TableData XRat) (sel : Option Sel) (mode : AdjustMode) (entered : Option XRat)
    (up : Bool) (pending : Pending) : Pending :=
  match sel with
  | none => pending
  | some s =>
    let amount := amountOf d mode entered
    if !F64.isFinite amount || F64.lt amount 0 then pending
    else fun row col =>
      if s.Has row col then (pending.shown d row col).map (nudgedValue d mode up amount)
      else pending row col

/-! ## Limits -/

section Limits

variable {lo hi : Option ℚ}

/-- What is within the limits holds the limited values between itself and what is limited. -/
theorem limited_between {x : ℚ} (hx : limited lo hi x = x) (p : ℚ) :
    min x p ≤ limited lo hi p ∧ limited lo hi p ≤ max x p := by
  cases lo with
  | none =>
    cases hi with
    | none => exact ⟨min_le_right .., le_max_right ..⟩
    | some hi =>
      have hle : x ≤ hi := min_eq_left_iff.mp hx
      exact ⟨le_min (min_le_right ..) ((min_le_left ..).trans hle),
        (min_le_left ..).trans (le_max_right ..)⟩
  | some lo =>
    cases hi with
    | none =>
      have hle : lo ≤ x := max_eq_left_iff.mp hx
      exact ⟨(min_le_right ..).trans (le_max_left ..),
        max_le (le_max_right ..) (hle.trans (le_max_left ..))⟩
    | some hi =>
      change min (max x lo) hi = x at hx
      change min x p ≤ min (max p lo) hi ∧ min (max p lo) hi ≤ max x p
      have hle : x ≤ hi := hx ▸ min_le_right ..
      refine ⟨le_min ((min_le_right ..).trans (le_max_left ..)) ((min_le_left ..).trans hle), ?_⟩
      rcases le_total lo hi with hlohi | hhilo
      · have hlo : lo ≤ x := hx ▸ le_min (le_max_right ..) hlohi
        exact (min_le_left ..).trans (max_le (le_max_right ..) (hlo.trans (le_max_left ..)))
      · -- limits that cross: everything is limited to the upper one
        have hhi : hi ≤ x := hx ▸ le_min (hhilo.trans (le_max_right ..)) le_rfl
        exact (min_le_right ..).trans (hhi.trans (le_max_left ..))

theorem limited_limited (user : ℚ) : limited lo hi (limited lo hi user) = limited lo hi user := by
  cases lo with
  | none =>
    cases hi with
    | none => rfl
    | some hi => exact min_eq_left (min_le_right user hi)
  | some lo =>
    cases hi with
    | none => exact max_eq_left (le_max_right user lo)
    | some hi =>
      change min (max (min (max user lo) hi) lo) hi = min (max user lo) hi
      rcases le_total lo hi with h | h
      · rw [max_eq_left (le_min (le_max_right ..) h), min_assoc, min_self]
      · rw [min_eq_right (h.trans (le_max_right ..)), min_eq_right (h.trans (le_max_right ..))]

end Limits

/-! ## A preview and what is stored for it -/

section Preview

variable {ty : DataType} {scale translate : ℚ} {lo hi : Option ℚ}

/-- A value put on the nearest raw step; halves go up. -/
def snapped (scale translate value : ℚ) : ℚ :=
  decoded scale translate (roundUp (inRaw scale translate value))

theorem inRaw_injective (hs : scale ≠ 0) {a b : ℚ}
    (h : inRaw scale translate a = inRaw scale translate b) : a = b := by
  rw [inRaw, inRaw, sub_left_inj] at h
  exact (div_left_inj' hs).mp h

/-- Raw units keep what is between two values there, whichever way they go. -/
theorem inRaw_between (hs : scale ≠ 0) (translate : ℚ) {a b v : ℚ} (h1 : min a b ≤ v) (h2 : v ≤ max a b) :
    min (inRaw scale translate a) (inRaw scale translate b) ≤ inRaw scale translate v ∧
      inRaw scale translate v ≤ max (inRaw scale translate a) (inRaw scale translate b) := by
  rcases hs.lt_or_gt with hneg | hpos
  · have hanti := inRaw_anti hneg translate
    rw [← hanti.map_max, ← hanti.map_min]
    exact ⟨hanti h2, hanti h1⟩
  · have hmono := inRaw_mono hpos translate
    rw [← hmono.map_max, ← hmono.map_min]
    exact ⟨hmono h1, hmono h2⟩

theorem roundUp_bounds (q : ℚ) : (roundUp q : ℚ) - 1 / 2 ≤ q ∧ q < roundUp q + 1 / 2 :=
  roundUp_eq_iff.mp rfl

theorem decoded_eq_snapped_iff (hs : scale ≠ 0) {r : ℤ} {x : ℚ} :
    decoded scale translate r = snapped scale translate x ↔ r = roundUp (inRaw scale translate x) := by
  constructor
  · intro h
    have hraw := congrArg (inRaw scale translate) h
    rw [snapped, inRaw_decoded hs, inRaw_decoded hs] at hraw
    exact_mod_cast hraw
  · rintro rfl
    rfl

theorem inRange_roundUp_iff {q : ℚ} : InRange ty (roundUp q) ↔
    ((typeRange ty).1 : ℚ) - 1 / 2 ≤ q ∧ q < (typeRange ty).2 + 1 / 2 := by
  rw [InRange, roundUp, Int.le_floor, ← Int.lt_add_one_iff, Int.floor_lt]
  push_cast
  exact and_congr ⟨fun h => by linarith, fun h => by linarith⟩
    ⟨fun h => by linarith, fun h => by linarith⟩

/-- The value within the limits is kept as its preview: it lies in the type's range to half a step,
and it is not half way between two raw numbers below zero, unless the limits let its preview through. -/
def Kept (ty : DataType) (scale translate : ℚ) (lo hi : Option ℚ) (x : ℚ) : Prop :=
  let raw := inRaw scale translate x
  ((typeRange ty).1 : ℚ) - 1 / 2 ≤ raw ∧ raw < (typeRange ty).2 + 1 / 2 ∧
    ¬ ∃ n : ℤ, raw = n + 1 / 2 ∧ (typeRange ty).1 ≤ n ∧ n < 0 ∧ limited lo hi (x + scale / 2) = x

theorem clampRaw_roundAway_eq_iff {r : ℤ} {w : ℚ} (hr : InRange ty r) (h1 : (r : ℚ) - 1 / 2 ≤ w)
    (h2 : w < r + 1 / 2) :
    clampRaw ty (roundAway w) = r ↔ (r : ℚ) - 1 / 2 < w ∨ 0 < r ∨ r = (typeRange ty).1 := by
  by_cases hup : RoundsUpTo r w
  · rw [roundAway_eq_iff.mpr ⟨.inl h2, hup⟩]
    refine iff_of_true (clampRaw_of_inRange hr) ?_
    rcases hup with h | ⟨h, -⟩
    · exact .inl h
    · exact .inr (.inl h)
  · -- half way, and not above zero: the next lower number
    obtain ⟨hle, hneg⟩ := not_or.mp hup
    have hw : w = r - 1 / 2 := le_antisymm (not_lt.mp hle) h1
    have hr0 : ¬ 0 < r := fun h => hneg ⟨h, hw⟩
    have hround : roundAway w = r - 1 := by
      refine roundAway_eq_iff.mpr ⟨.inr ⟨by omega, ?_⟩, .inl ?_⟩ <;> push_cast <;> linarith
    rw [hround, clampRaw]
    obtain ⟨hmin, hmax⟩ := hr
    constructor
    · intro h
      exact .inr (.inr (by omega))
    · rintro (h | h | h)
      · exact absurd h hle
      · exact absurd h hr0
      · omega

/-- Half way between two raw numbers, the preview is half a step up. -/
theorem snapped_of_half (hs : scale ≠ 0) {x : ℚ}
    (h : inRaw scale translate x = roundUp (inRaw scale translate x) - 1 / 2) :
    snapped scale translate x = x + scale / 2 := by
  have hsub : decoded scale translate (roundUp (inRaw scale translate x)) - x =
      (roundUp (inRaw scale translate x) - inRaw scale translate x) * scale := decoded_sub hs _ x
  have hstep : (roundUp (inRaw scale translate x) : ℚ) - inRaw scale translate x = 1 / 2 := by linarith
  rw [hstep] at hsub
  rw [snapped]
  linarith

/-- **The raw number that is stored for a preview is the preview's own exactly when the value is kept.** -/
theorem nearestRaw_snapped_iff (hs : scale ≠ 0) {x : ℚ} (hx : limited lo hi x = x) :
    nearestRaw ty scale translate (limited lo hi (snapped scale translate x)) =
      roundUp (inRaw scale translate x) ↔ Kept ty scale translate lo hi x := by
  obtain ⟨hlow, hhigh⟩ := roundUp_bounds (inRaw scale translate x)
  obtain ⟨hp1, hp2⟩ := limited_between hx (snapped scale translate x)
  obtain ⟨hw1, hw2⟩ := inRaw_between hs translate hp1 hp2
  rw [snapped, inRaw_decoded hs, ← snapped] at hw1 hw2
  rw [nearestRaw, Kept, ← and_assoc, ← inRange_roundUp_iff]
  have hw3 := (le_min hlow (by linarith)).trans hw1
  have hw4 := hw2.trans_lt (max_lt hhigh (by linarith))
  by_cases hr : InRange ty (roundUp (inRaw scale translate x))
  · rw [clampRaw_roundAway_eq_iff hr hw3 hw4, and_iff_right hr]
    constructor
    · rintro h ⟨n, hn, hmin, hneg, hlimited⟩
      have hround : roundUp (inRaw scale translate x) = n + 1 := by
        rw [roundUp_eq_iff, hn]
        push_cast
        constructor <;> linarith
      have hhalf : inRaw scale translate x = roundUp (inRaw scale translate x) - 1 / 2 := by
        rw [hround, hn]
        push_cast
        ring
      rw [snapped_of_half hs hhalf, hlimited, ← hhalf, hround] at h
      rcases h with h | h | h
      · exact lt_irrefl _ h
      · omega
      · omega
    · intro h
      by_contra hno
      rw [not_or, not_or, not_lt] at hno
      obtain ⟨hle, hpos, hmin⟩ := hno
      have hlt : inRaw scale translate x ≤
          inRaw scale translate (limited lo hi (snapped scale translate x)) := by
        rcases min_le_iff.mp hw1 with h' | h'
        · exact h'
        · linarith
      have hhalf : inRaw scale translate x = roundUp (inRaw scale translate x) - 1 / 2 :=
        le_antisymm (hlt.trans hle) hlow
      refine h ⟨roundUp (inRaw scale translate x) - 1, ?_, ?_, by omega, ?_⟩
      · push_cast
        linarith
      · have := hr.1
        omega
      · rw [← snapped_of_half hs hhalf]
        exact inRaw_injective hs (le_antisymm (hle.trans hlow) hlt)
  · refine iff_of_false (fun h => hr ?_) fun h => hr h.1
    rw [← h]
    exact clampRaw_inRange ..

/-- The value within the shown limits of a cell is kept. A missing upper limit is shown as 255; with a
lower limit above it, the server limits the preview to a value that the browser does not let through. -/
def CellKept (ty : DataType) (scale translate : ℚ) : Option ℚ → Option ℚ → ℚ → Prop
  | some lo, none, x =>
    if 255 < lo then nearestRaw ty scale translate lo = roundUp (inRaw scale translate 255)
    else Kept ty scale translate (some lo) none x
  | lo, hi, x => Kept ty scale translate lo hi x

/-- What lies between a value and its preview is stored as the preview. -/
theorem nearestRaw_of_between (hs : scale ≠ 0) {x l : ℚ} (hne : l ≠ x)
    (h1 : min x (snapped scale translate x) ≤ l) (h2 : l ≤ max x (snapped scale translate x)) :
    nearestRaw ty scale translate l = clampRaw ty (roundUp (inRaw scale translate x)) := by
  obtain ⟨hlow, hhigh⟩ := roundUp_bounds (inRaw scale translate x)
  obtain ⟨hw1, hw2⟩ := inRaw_between hs translate h1 h2
  rw [snapped, inRaw_decoded hs] at hw1 hw2
  have hlt : (roundUp (inRaw scale translate x) : ℚ) - 1 / 2 < inRaw scale translate l := by
    by_contra hle
    rw [not_lt] at hle
    rcases min_le_iff.mp hw1 with h | h
    · exact hne (inRaw_injective hs (le_antisymm (hle.trans hlow) h))
    · linarith
  have hgt : inRaw scale translate l < roundUp (inRaw scale translate x) + 1 / 2 :=
    hw2.trans_lt (max_lt hhigh (by linarith))
  rw [nearestRaw, roundAway_eq_iff.mpr ⟨.inl hgt, .inl hlt⟩]

/-- **The same for the limits as they are shown for cells.** -/
theorem nearestRaw_cell_iff (hs : scale ≠ 0) (user : ℚ) :
    let x := limited (some (lo.getD 0)) (some (hi.getD 255)) user
    nearestRaw ty scale translate (limited lo hi (snapped scale translate x)) =
      roundUp (inRaw scale translate x) ↔ CellKept ty scale translate lo hi x := by
  intro x
  cases lo with
  | none =>
    cases hi with
    | none => exact nearestRaw_snapped_iff hs rfl
    | some hi => exact nearestRaw_snapped_iff hs (min_eq_left (min_le_right _ hi))
  | some lo =>
    cases hi with
    | some hi => exact nearestRaw_snapped_iff hs (limited_limited user)
    | none =>
      rw [CellKept]
      split_ifs with hlo
      · have hx : x = 255 := min_eq_right (hlo.le.trans (le_max_right user lo))
        rw [hx]
        change nearestRaw ty scale translate (max (snapped scale translate 255) lo) = _ ↔ _
        rcases le_total (snapped scale translate 255) lo with hle | hle
        · rw [max_eq_right hle]
        · rw [max_eq_left hle, nearestRaw_of_between hs hlo.ne' ((min_le_left ..).trans hlo.le)
            (hle.trans (le_max_right ..)), nearestRaw, snapped, inRaw_decoded hs, roundAway_intCast]
      · exact nearestRaw_snapped_iff hs
          (max_eq_left (le_min (le_max_right user lo) (not_lt.mp hlo)))

end Preview

/-! ## Exact previews -/

/-- `adjusted`, of numbers. -/
def adjust (mode : AdjustMode) (up : Bool) (amount current : ℚ) : ℚ :=
  let step := (if up then 1 else -1) * amount
  match mode with
  | .fixed => current + step
  | .percent => current * (1 + step / 100)

theorem adjusted_fin (mode : AdjustMode) (up : Bool) (amount current : ℚ) :
    adjusted mode up (.fin amount) (.fin current) = .fin (adjust mode up amount current) := by
  have hstep : F64.mul (if up then 1 else F64.neg 1) (XRat.fin amount) =
      .fin ((if up then 1 else -1) * amount) := by
    cases up with
    | true => exact congrArg (fun a : ℚ => XRat.fin (a * amount)) Int.cast_one
    | false => exact congrArg (fun a : ℚ => XRat.fin (-a * amount)) Int.cast_one
  cases mode with
  | fixed =>
    simp only [adjusted, hstep]
    rfl
  | percent =>
    have h1 : (1 : XRat) = .fin 1 := congrArg XRat.fin Int.cast_one
    have h100 : (100 : XRat) = .fin 100 := congrArg XRat.fin (Int.cast_ofNat 100)
    simp only [adjusted, hstep]
    rw [h1, h100, XRat.div_fin (by norm_num), XRat.add_fin, XRat.mul_fin]
    rfl

theorem encoded_fin {lo hi : XRat} {scale translate value x : ℚ} (hs : scale ≠ 0)
    (hx : F64.min hi (F64.max lo (.fin value)) = .fin x) :
    encoded lo hi (.fin scale) (.fin translate) (.fin value) = .fin (snapped scale translate x) := by
  rw [encoded, hx, XRat.div_fin hs, XRat.sub_fin]
  rfl

/-- The limits of an axis; a missing one is no limit. -/
theorem axis_limits (lo hi : Option ℚ) (value : ℚ) :
    F64.min ((hi.map XRat.fin).getD (.inf false))
      (F64.max ((lo.map XRat.fin).getD (.inf true)) (.fin value)) = .fin (limited lo hi value) := by
  have hlower : F64.max ((lo.map XRat.fin).getD (.inf true)) (.fin value) =
      .fin (lo.elim value (max value)) := by
    cases lo with
    | none => rfl
    | some lo => rw [Option.map_some, Option.getD_some, Tune.max_fin, max_comm]; rfl
  rw [hlower, limited]
  cases hi with
  | none => rfl
  | some hi => rw [Option.map_some, Option.getD_some, Tune.min_fin, min_comm]; rfl

theorem cell_limits (lo hi value : ℚ) : F64.min (XRat.fin hi) (F64.max (XRat.fin lo) (.fin value)) =
    .fin (limited (some lo) (some hi) value) := by
  rw [Tune.max_fin, Tune.min_fin, max_comm, min_comm]
  rfl

/-! ## What is stored -/

section Stored

variable {m : Machine} {t : Tune XRat} {name : String} {c : ConstantDef XRat} {index : ℕ}
  {scale translate : ℚ} {lo hi : Option ℚ}

/-- The preview is stored exactly when the raw number is the one it was computed from. -/
theorem stored_iff (hc : t.constant name = some c) (hind : t.IndependentOf m c c)
    (hcode : t.Coded m c (.fin scale) (.fin translate)) (hs : scale ≠ 0) (hlim : t.Limits m c lo hi)
    {v : XRat} (hv : t.arrayElement m name index = .ok (some v)) (x : ℚ) :
    let preview := XRat.fin (snapped scale translate x)
    (∃ t', (t.setArrayElement m name index preview).run = .ok (.ok t') ∧
        t'.arrayElement m name index = .ok (some preview)) ↔
      nearestRaw c.ty scale translate (limited lo hi (snapped scale translate x)) =
        roundUp (inRaw scale translate x) := by
  obtain ⟨t', hset, hread⟩ := Tune.setArrayElement_stores hc hind hcode hs hlim hv
    (snapped scale translate x)
  rw [← decoded_eq_snapped_iff hs]
  constructor
  · rintro ⟨t'', hset', hread'⟩
    obtain rfl := Except.ok.inj (Except.ok.inj (hset.symm.trans hset'))
    exact XRat.fin.inj (Option.some.inj (Except.ok.inj (hread.symm.trans hread')))
  · intro heq
    exact ⟨t', hset, by rw [hread, heq]⟩

end Stored

/-! ## The editor and the server -/

/-- An axis of a table with its constant, the values shown and what it is edited by. -/
inductive IsAxis (table : TableDef XRat) (d : TableData XRat) :
    String → String → List XRat → AxisMeta XRat → Prop
  | x {a : AxisMeta XRat} (h : d.xMeta = some a) : IsAxis table d "x" table.xBins.1 d.x a
  | y {a : AxisMeta XRat} (h : d.yMeta = some a) : IsAxis table d "y" table.yBins.1 d.y a

section Editor

variable {m : Machine} {t : Tune XRat} {id : String} {table : TableDef XRat} {d : TableData XRat}
  {z c : ConstantDef XRat} {nx ny row col index : ℕ} {scale translate : ℚ} {lo hi : Option ℚ}

theorem IsAxis.setTableAxis {axis name : String} {bins : List XRat} {a : AxisMeta XRat}
    (h : IsAxis table d axis name bins a) (htable : t.tableDef id = some table) (value : XRat) :
    t.setTableAxis m id axis index value = t.setArrayElement m name index value := by
  rw [Tune.setTableAxis, htable, orError, pure_bind]
  cases h with
  | x => exact if_pos rfl
  | y => exact (if_neg (by decide)).trans (if_pos rfl)

theorem IsAxis.served {axis name : String} {bins : List XRat} {a : AxisMeta XRat}
    (h : IsAxis table d axis name bins a) (hserved : t.Served m table z nx ny d) :
    t.arrayValues m name = .ok (some bins) ∧ ∃ len, t.axisMeta m name len = .ok (some a) := by
  cases h with
  | x h => exact ⟨hserved.x, nx, h ▸ hserved.xMeta⟩
  | y h => exact ⟨hserved.y, ny, h ▸ hserved.yMeta⟩

/-- **The preview of an axis value is what is stored exactly when the value is kept.** -/
theorem axis_stored_iff {axis name : String} {bins : List XRat} {a : AxisMeta XRat}
    (haxis : IsAxis table d axis name bins a) (htable : t.tableDef id = some table)
    (hserved : t.Served m table z nx ny d) (hc : t.constant name = some c)
    (hind : t.IndependentOf m c c) (hindex : index < bins.length) (hlo : a.lo = lo.map .fin)
    (hhi : a.hi = hi.map .fin) (hscale : a.scale = .fin scale) (htranslate : a.translate = .fin translate)
    (value : ℚ) :
    (∃ t', (t.setTableAxis m id axis index (encodedValue (.fin value) a)).run = .ok (.ok t') ∧
        t'.arrayElement m name index = .ok (some (encodedValue (.fin value) a))) ↔
      Kept c.ty scale translate lo hi (limited lo hi value) := by
  obtain ⟨hvalues, len, hmeta⟩ := haxis.served hserved
  obtain ⟨hcode, hzero, hlo', hhi'⟩ := Tune.axisMeta_eq_some hc hmeta
  rw [hscale, htranslate] at hcode
  rw [hscale] at hzero
  have hs : scale ≠ 0 := of_decide_eq_false hzero
  have hlim : t.Limits m c lo hi := ⟨by rw [hlo', hlo], by rw [hhi', hhi]⟩
  obtain ⟨shape, -, -, hread⟩ := Tune.arrayValues_eq_some.mp hvalues
  have hv := hread index _ (List.getElem?_eq_getElem hindex)
  have hpreview : encodedValue (.fin value) a = .fin (snapped scale translate (limited lo hi value)) := by
    rw [encodedValue, hlo, hhi, hscale, htranslate]
    exact encoded_fin hs (axis_limits lo hi value)
  rw [hpreview, haxis.setTableAxis htable]
  exact (stored_iff hc hind hcode hs hlim hv _).trans (nearestRaw_snapped_iff hs (limited_limited value))

/-- **The preview of a cell is what is stored exactly when the value is kept.** -/
theorem cell_stored_iff (htable : t.tableDef id = some table)
    (hdims : t.tableDims table = some (nx, ny)) (hserved : t.Served m table z nx ny d)
    (hz : t.constant table.zBins = some z) (hrow : row < ny) (hcol : col < nx)
    (hind : t.IndependentOf m z z) (hlim : t.Limits m z lo hi) (hscale : d.zScale = .fin scale)
    (hs : scale ≠ 0) (htranslate : d.zTranslate = .fin translate) (value : ℚ) :
    let preview := encoded d.zLo d.zHi d.zScale d.zTranslate (.fin value)
    (∃ t', (t.setTableCell m id row col preview).run = .ok (.ok t') ∧
        t'.arrayElement m table.zBins (row * nx + col) = .ok (some preview)) ↔
      CellKept z.ty scale translate lo hi
        (limited (some (lo.getD 0)) (some (hi.getD 255)) value) := by
  intro preview
  obtain ⟨flat, hflat, -⟩ := hserved.cells
  have hindex : row * nx + col < flat.length :=
    (Tune.length_cells hdims hz hflat).symm ▸ flat_index_lt hrow hcol
  obtain ⟨shape, -, -, hread⟩ := Tune.arrayValues_eq_some.mp hflat
  have hv := hread _ _ (List.getElem?_eq_getElem hindex)
  -- a cell that is shown has a scale and a translate, and they are the ones served
  obtain ⟨_, _, _, _, -, -, -, -, -, hscaled⟩ := Tune.arrayElement_place hz hv
  obtain ⟨s, tr, hcode⟩ := Tune.coded_of_scaled hscaled
  obtain rfl : s = .fin scale := by rw [← Tune.served_field hserved.zScale hcode.scale, hscale]
  obtain rfl : tr = .fin translate := by
    rw [← Tune.served_field hserved.zTranslate hcode.translate, htranslate]
  have hpreview : preview = .fin (snapped scale translate
      (limited (some (lo.getD 0)) (some (hi.getD 255)) value)) := by
    change encoded d.zLo d.zHi d.zScale d.zTranslate (.fin value) = _
    rw [Tune.served_limit 0 hserved.zLo hlim.lo, Tune.served_limit 255 hserved.zHi hlim.hi, hscale,
      htranslate]
    exact encoded_fin hs (cell_limits _ _ value)
  rw [hpreview, Tune.setTableCell_inside htable hdims hrow hcol]
  exact (stored_iff hz hind hcode hs hlim hv _).trans (nearestRaw_cell_iff hs value)

theorem nudge_selected {sel : Sel} {mode : AdjustMode} {entered : Option XRat} {up : Bool}
    {pending : Pending} {amount : ℚ} {current : XRat} (hsel : sel.Has row col)
    (hamount : amountOf d mode entered = .fin amount) (hpos : 0 ≤ amount)
    (hshown : pending.shown d row col = some current) :
    nudge d (some sel) mode entered up pending row col =
      some (nudgedValue d mode up (.fin amount) current) := by
  have hlt : F64.lt (XRat.fin amount) 0 = false := decide_eq_false (not_lt.mpr hpos)
  simp only [nudge, hamount, XRat.isFinite_fin, hlt, Bool.not_true, Bool.or_false, Bool.false_eq_true,
    if_false, if_pos hsel, hshown, Option.map_some]

/-- **A preview is what is stored exactly when the value is kept**: of an axis value as it is typed, and
of a cell as it is nudged from what it shows. -/
theorem preview_stored_iff (htable : t.tableDef id = some table) (hview : t.table m id = .ok (some d)) :
    (∀ (axis name : String) (bins : List XRat) (a : AxisMeta XRat) (c : ConstantDef XRat) (index : ℕ)
      (lo hi : Option ℚ) (scale translate value : ℚ),
      IsAxis table d axis name bins a → t.constant name = some c → t.IndependentOf m c c →
      index < bins.length → a.lo = lo.map .fin → a.hi = hi.map .fin → a.scale = .fin scale →
      a.translate = .fin translate →
      let preview := encodedValue (.fin value) a
      (∃ t', (t.setTableAxis m id axis index preview).run = .ok (.ok t') ∧
          t'.arrayElement m name index = .ok (some preview)) ↔
        Kept c.ty scale translate lo hi (limited lo hi value)) ∧
    ∀ (z : ConstantDef XRat) (nx ny row col : ℕ) (lo hi : Option ℚ) (scale translate : ℚ) (sel : Sel)
      (mode : AdjustMode) (entered : Option XRat) (up : Bool) (pending : Pending) (amount current : ℚ),
      t.constant table.zBins = some z → t.tableDims table = some (nx, ny) → row < ny → col < nx →
      t.IndependentOf m z z → t.Limits m z lo hi → d.zScale = .fin scale → scale ≠ 0 →
      d.zTranslate = .fin translate → sel.Has row col → amountOf d mode entered = .fin amount →
      0 ≤ amount → pending.shown d row col = some (.fin current) →
      ∃ preview, nudge d (some sel) mode entered up pending row col = some preview ∧
        ((∃ t', (t.setTableCell m id row col preview).run = .ok (.ok t') ∧
            t'.arrayElement m table.zBins (row * nx + col) = .ok (some preview)) ↔
          CellKept z.ty scale translate lo hi
            (limited (some (lo.getD 0)) (some (hi.getD 255)) (adjust mode up amount current))) := by
  obtain ⟨z, nx, ny, hserved⟩ := Tune.exists_served htable hview
  refine ⟨fun axis name bins a c index lo hi scale translate value haxis hc hind hindex hlo hhi hscale
      htranslate => ?_, fun z' nx' ny' row col lo hi scale translate sel mode entered up pending amount
      current hz hdims hrow hcol hind hlim hscale hs htranslate hsel hamount hpos hshown => ?_⟩
  · exact axis_stored_iff haxis htable hserved hc hind hindex hlo hhi hscale htranslate value
  · have hserved' := Tune.served_of_table htable hdims hz hview
    refine ⟨_, nudge_selected hsel hamount hpos hshown, ?_⟩
    rw [nudgedValue, adjusted_fin]
    exact cell_stored_iff htable hdims hserved' hz hrow hcol hind hlim hscale hs htranslate _

end Editor

/-! ## A table without limits -/

/-- An axis value out of the type's range, and a cell nudged up by one. -/
theorem preview_stored_iff_ve :
    ((∃ t', (ve.setTableAxis ⟨.debug, 8⟩ "veTable1Tbl" "x" 0
          (encodedValue (.fin 300) ⟨none, none, 0, .fin 1, .fin 0⟩)).run = .ok (.ok t') ∧
        t'.arrayElement ⟨.debug, 8⟩ "rpmBins" 0 =
          .ok (some (encodedValue (.fin 300) ⟨none, none, 0, .fin 1, .fin 0⟩))) ↔
      Kept .u08 1 0 none none (limited none none 300)) ∧
    ∃ preview, nudge veView (some ⟨2, 1, 2, 1⟩) .fixed none true (fun _ _ => none) 2 1 = some preview ∧
      ((∃ t', (ve.setTableCell ⟨.debug, 8⟩ "veTable1Tbl" 2 1 preview).run = .ok (.ok t') ∧
          t'.arrayElement ⟨.debug, 8⟩ "veTable" (2 * 2 + 1) = .ok (some preview)) ↔
        CellKept .u08 1 0 none none (limited (some 0) (some 255) (adjust .fixed true 1 0))) := by
  obtain ⟨haxis, hcell⟩ := @preview_stored_iff ⟨.debug, 8⟩ ve "veTable1Tbl" veDef veView rfl ve_view
  have hamount : amountOf veView .fixed none = .fin 1 :=
    congrArg XRat.fin (by norm_num [veView] : (1 : ℚ) / 10 ^ veView.zDigits.toNat = 1)
  exact ⟨haxis "x" "rpmBins" veView.x ⟨none, none, 0, .fin 1, .fin 0⟩
      (byteArray "rpmBins" 0 (.array1D 2)) 0 none none 1 0 300 (.x rfl) rfl (fun _ _ _ => ⟨rfl, rfl⟩)
      (by decide) rfl rfl rfl rfl,
    hcell veTable 2 3 2 1 none none 1 0 ⟨2, 1, 2, 1⟩ .fixed none true (fun _ _ => none) 1 0 rfl rfl
      (by decide) (by decide) (fun _ _ _ => ⟨rfl, rfl⟩) ⟨rfl, rfl⟩ rfl one_ne_zero rfl (by decide)
      hamount zero_le_one rfl⟩

/-- **A preview beyond the range of the type is not what is stored.** -/
theorem preview_beyond_type : ¬ ∀ (m : Machine) (t : Tune XRat) (id : String) (table : TableDef XRat)
    (d : TableData XRat) (axis name : String) (bins : List XRat) (a : AxisMeta XRat)
    (c : ConstantDef XRat) (index : ℕ) (lo hi : Option ℚ) (scale translate value : ℚ),
    t.tableDef id = some table → t.table m id = .ok (some d) → IsAxis table d axis name bins a →
    t.constant name = some c → t.IndependentOf m c c → index < bins.length → a.lo = lo.map .fin →
    a.hi = hi.map .fin → a.scale = .fin scale → a.translate = .fin translate →
    let preview := encodedValue (.fin value) a
    ∃ t', (t.setTableAxis m id axis index preview).run = .ok (.ok t') ∧
      t'.arrayElement m name index = .ok (some preview) := by
  intro h
  have htable : ve.tableDef "veTable1Tbl" = some veDef := rfl
  have hstored := h ⟨.debug, 8⟩ ve "veTable1Tbl" veDef veView "x" "rpmBins" veView.x
    ⟨none, none, 0, .fin 1, .fin 0⟩ (byteArray "rpmBins" 0 (.array1D 2)) 0 none none 1 0 300 htable
    ve_view (.x rfl) rfl (fun _ _ _ => ⟨rfl, rfl⟩) (by decide) rfl rfl rfl rfl
  have hserved : ve.Served ⟨.debug, 8⟩ veDef veTable 2 3 veView :=
    Tune.served_of_table htable rfl rfl ve_view
  have hc : ve.constant "rpmBins" = some (byteArray "rpmBins" 0 (.array1D 2)) := rfl
  have hkept : Kept .u08 1 0 none none (limited none none 300) :=
    (axis_stored_iff (.x rfl) htable hserved hc (fun _ _ _ => ⟨rfl, rfl⟩) (by decide) rfl rfl rfl rfl
      300).mp hstored
  have hlt := hkept.2.1
  norm_num [inRaw, limited, typeRange] at hlt

end RustyTune.Web
