import RustyTune.Lib.Nearest
import RustyTune.TsIni.Expr
import RustyTune.TsIni.Model

/-!
# AFR tables

The table of a linear sensor is made from two points of its curve; presets are recognised by name.

* `Linear.table`, `encode`, `metadata`, `presets`: as the server has them.
* `Points`: two points that are in order, by which the AFR at a voltage (`Points.afr`) and its code
  (`Points.code`) are given. `code_mono`: the codes do not decrease.
* `points_eq_ok_iff`: the points of a request are accepted when they are in order.
* **`table_faithful`**: there is a table exactly for points in order with codes of a byte at both
  ends, and it holds the code at each voltage.
-/

namespace RustyTune.Server.Calibration

open TsIni

/-! ## Tables and presets -/

structure Preset (F : Type) where
  name : String
  voltsLow : F
  afrLow : F
  voltsHigh : F
  afrHigh : F
  deriving DecidableEq

/-- Two points of a linear sensor, or the name of a preset. -/
structure Linear (F : Type) where
  voltsLow : F
  afrLow : F
  voltsHigh : F
  afrHigh : F
  preset : Option String
  deriving DecidableEq

section Model

variable {F : Type} [F64 F]

/-- `metadata`: the one definition that is supported. -/
def metadata (df : IniDef F) : Except String (AfrCalibration F) :=
  match df.afrCalibration with
  | none => .error "INI has no AFR calibration definition"
  | some c =>
    if c.identifier ≠ 2 ∨ c.adcCount ≠ 1024 ∨ c.bytesPerAdc ≠ 1 ∨ F64.eq c.scale 10 = false ∨
        c.blockingFactor = 0 ∨ 256 < c.blockingFactor ∨ c.blockingFactor % 32 ≠ 0 ∨
        c.writeCommand ≠ "t\\$tsCanId%2i%2o%2c%v" ∨
        df.header.tableCrcCommand ≠ some "k\\$tsCanId%2i%2o%2c" then
      .error "Unsupported AFR calibration definition"
    else .ok c

def encode (afr scale : F) : Except String UInt8 :=
  let value := F64.round (F64.mul afr scale)
  if !F64.isFinite value || !(F64.le 0 value && F64.le value 255) then
    .error "Curve exceeds the ECU AFR range at 0 or 5 V"
  else .ok (F64.toU8 value)

namespace Linear

/-- The points are not in order, or not where they have to be. -/
def refused (l : Linear F) : Bool :=
  !([l.voltsLow, l.voltsHigh, l.afrLow, l.afrHigh].all F64.isFinite) || F64.lt l.voltsLow 0 ||
    F64.lt 5 l.voltsHigh || F64.le l.voltsHigh l.voltsLow || F64.le l.afrLow 0 ||
    F64.le l.afrHigh l.afrLow

/-- What `table` checks first. -/
def points (l : Linear F) (df : IniDef F) : Except String (AfrCalibration F) := do
  let cal ← metadata df
  if l.refused then
    throw "Use increasing voltage points within 0–5 V and positive, increasing AFR points"
  return cal

/-- The AFR of an ADC value. -/
def afrAt (l : Linear F) (cal : AfrCalibration F) (adc : ℕ) : F :=
  let slope := F64.div (F64.sub l.afrHigh l.afrLow) (F64.sub l.voltsHigh l.voltsLow)
  F64.add l.afrLow (F64.mul (F64.sub (F64.div (F64.mul (F64.ofInt adc) 5)
    (F64.ofInt (cal.adcCount - 1).toNat)) l.voltsLow) slope)

/-- The table of the line through the points. -/
def curve (l : Linear F) (cal : AfrCalibration F) : Except String (List UInt8) :=
  (List.range cal.adcCount.toNat).mapM fun adc => encode (l.afrAt cal adc) cal.scale

end Linear

/-- The source of symbols for a curve: the ADC value alone. -/
def adcSymbols (adc : F) : SymbolSource F where
  value name := return if name == "adcValue" then some (.num adc) else none
  bitString _ _ := none
  arrayValue _ _ := return none

/-- The value of a curve at an ADC value, if it is a number. -/
def solutionAt (m : Machine) (expr : Expr F) (adc : F) : Exec (Option F) := do
  match ← (expr.eval m (adcSymbols adc)).run with
  | .ok (.num v) => return some v
  | _ => return none

/-- The preset of a curve of the definition, if all its values are in range. -/
def solutionPreset (m : Machine) (cal : AfrCalibration F) (name : String) (expr : Expr F) :
    Exec (Option (Preset F × List UInt8)) := do
  let table : Except String (List UInt8) ← ((List.range cal.adcCount.toNat).mapM fun adc => do
    match ← (solutionAt m expr (F64.ofInt adc) : Exec _) with
    | some v => (encode v cal.scale : ExceptT String Exec UInt8)
    | none => throw "Unavailable curve" : ExceptT String Exec (List UInt8)).run
  match table with
  | .error _ => return none
  | .ok table =>
    let afrLow := (← solutionAt m expr 0).getD 0
    let afrHigh := (← solutionAt m expr 1023).getD 0
    return some (⟨name, 0, afrLow, 5, afrHigh⟩, table)

/-- The preset of a linear sensor, if its points make a table. -/
def linearPreset (df : IniDef F) (name : String) (voltsLow afrLow voltsHigh afrHigh : F) :
    Option (Preset F × List UInt8) :=
  let linear : Linear F := ⟨voltsLow, afrLow, voltsHigh, afrHigh, none⟩
  (do linear.curve (← linear.points df) : Except String _).toOption.map fun table =>
    (⟨name, voltsLow, afrLow, voltsHigh, afrHigh⟩, table)

/-- `presets`: the two linear sensors, the later one first, and the curves of the definition. -/
def presets (m : Machine) (df : IniDef F) : Exec (List (Preset F × List UInt8)) :=
  match metadata df with
  | .error _ => return []
  | .ok cal => do
    let solutions ← cal.solutions.filterMapM fun (name, expr) => solutionPreset m cal name expr
    let half : F := F64.div 1 2
    let xSeries := linearPreset df "AEM X-Series 30-0300" half (F64.add 8 half) (F64.add 4 half) 18
    let classic := linearPreset df "AEM Classic 30-4110 (0–5 V / 10–20 AFR)" 0 10 5 20
    return classic.toList ++ xSeries.toList ++ solutions

/-- `Linear::table` -/
def Linear.table (m : Machine) (l : Linear F) (df : IniDef F) : Exec (Except String (List UInt8)) :=
  match l.points df with
  | .error e => return .error e
  | .ok cal =>
    match l.preset with
    | some name => do
      match (← presets m df).find? (·.1.name == name) with
      | some (_, table) => return .ok table
      | none => return .error "Unknown calibration preset"
    | none => return l.curve cal

end Model

/-! ## Points in order -/

/-- Two points with increasing voltages between 0 and 5 V and increasing, positive AFR. -/
structure Points where
  voltsLow : ℚ
  afrLow : ℚ
  voltsHigh : ℚ
  afrHigh : ℚ
  nonneg : 0 ≤ voltsLow
  volts_lt : voltsLow < voltsHigh
  le_five : voltsHigh ≤ 5
  pos : 0 < afrLow
  afr_lt : afrLow < afrHigh

namespace Points

/-- They are the points of the request. -/
structure Of (p : Points) (l : Linear XRat) : Prop where
  voltsLow : l.voltsLow = .fin p.voltsLow
  afrLow : l.afrLow = .fin p.afrLow
  voltsHigh : l.voltsHigh = .fin p.voltsHigh
  afrHigh : l.afrHigh = .fin p.afrHigh

variable (p : Points)

/-- The AFR at a voltage, on the line through the points. -/
def afr (v : ℚ) : ℚ :=
  p.afrLow + (v - p.voltsLow) * ((p.afrHigh - p.afrLow) / (p.voltsHigh - p.voltsLow))

/-- The code of the AFR at a voltage: ten times as much, rounded. -/
def code (v : ℚ) : ℤ := XRat.roundAway (10 * p.afr v)

def Fits (v : ℚ) : Prop := 0 ≤ p.code v ∧ p.code v ≤ 255

instance (v : ℚ) : Decidable (p.Fits v) := inferInstanceAs (Decidable (_ ∧ _))

/-- The voltage of an ADC value. -/
def voltsOf (adc : ℕ) : ℚ := adc * 5 / 1023

theorem afr_mono {v w : ℚ} (h : v ≤ w) : p.afr v ≤ p.afr w := by
  have hslope : 0 ≤ (p.afrHigh - p.afrLow) / (p.voltsHigh - p.voltsLow) :=
    div_nonneg (sub_nonneg.mpr p.afr_lt.le) (sub_nonneg.mpr p.volts_lt.le)
  unfold afr
  gcongr

/-- **The codes do not decrease.** -/
theorem code_mono {v w : ℚ} (h : v ≤ w) : p.code v ≤ p.code w :=
  roundAway_mono (mul_le_mul_of_nonneg_left (p.afr_mono h) (by norm_num))

theorem voltsOf_mono {a b : ℕ} (h : a ≤ b) : voltsOf a ≤ voltsOf b := by
  unfold voltsOf
  gcongr

theorem voltsOf_zero : voltsOf 0 = 0 := by norm_num [voltsOf]

theorem voltsOf_last : voltsOf 1023 = 5 := by norm_num [voltsOf]

theorem fits_voltsOf {p : Points} (h0 : p.Fits 0) (h5 : p.Fits 5) {adc : ℕ} (hadc : adc < 1024) :
    p.Fits (voltsOf adc) := by
  have hlow : p.code 0 ≤ p.code (voltsOf adc) := by
    rw [← voltsOf_zero]
    exact p.code_mono (voltsOf_mono (Nat.zero_le adc))
  have hhigh : p.code (voltsOf adc) ≤ p.code 5 := by
    rw [← voltsOf_last]
    exact p.code_mono (voltsOf_mono (Nat.le_of_lt_succ hadc))
  exact ⟨h0.1.trans hlow, hhigh.trans h5.2⟩

end Points

/-! ## Requests -/

section Requests

variable {l : Linear XRat} {df : IniDef XRat} {cal : AfrCalibration XRat} {p : Points}

/-- **A request is not refused exactly when its points are in order.** -/
theorem refused_eq_false_iff : l.refused = false ↔ ∃ p : Points, p.Of l := by
  obtain ⟨vl, al, vh, ah, preset⟩ := l
  constructor
  · intro h
    simp only [Linear.refused, Bool.or_eq_false_iff, Bool.not_eq_false', List.all_cons, List.all_nil,
      Bool.and_true, Bool.and_eq_true, XRat.isFinite_iff] at h
    obtain ⟨⟨⟨⟨⟨⟨⟨vl, rfl⟩, ⟨vh, rfl⟩, ⟨al, rfl⟩, ⟨ah, rfl⟩⟩, hlow⟩, hhigh⟩, hvolts⟩, hpos⟩, hafr⟩ := h
    simp only [XRat.ofNat_eq_fin, XRat.lt_fin, XRat.le_fin, decide_eq_false_iff_not, not_lt, not_le,
      Nat.cast_ofNat, Nat.cast_zero] at hlow hhigh hvolts hpos hafr
    exact ⟨⟨vl, al, vh, ah, hlow, hvolts, hhigh, hpos, hafr⟩, rfl, rfl, rfl, rfl⟩
  · rintro ⟨p, ⟨hvl, hal, hvh, hah⟩⟩
    dsimp only at hvl hal hvh hah
    subst hvl hal hvh hah
    simp [Linear.refused, p.nonneg, p.le_five, p.volts_lt, p.pos, p.afr_lt]

theorem points_eq_ok_iff : l.points df = .ok cal ↔ metadata df = .ok cal ∧ ∃ p : Points, p.Of l := by
  rw [Linear.points, except_bind_eq_ok, ← refused_eq_false_iff]
  constructor
  · rintro ⟨cal', hcal, h⟩
    split_ifs at h with hrefused
    · exact nomatch h
    · obtain rfl := Except.ok.inj h
      exact ⟨hcal, Bool.eq_false_of_not_eq_true hrefused⟩
  · rintro ⟨hcal, hrefused⟩
    exact ⟨cal, hcal, by rw [hrefused]; rfl⟩

theorem metadata_eq_ok (h : metadata df = .ok cal) : cal.adcCount = 1024 ∧ cal.scale = .fin 10 := by
  unfold metadata at h
  split at h
  · exact nomatch h
  · split_ifs at h with hbad
    obtain rfl := Except.ok.inj h
    simp only [not_or, not_not, Bool.not_eq_false] at hbad
    obtain ⟨-, hcount, -, hscale, -⟩ := hbad
    exact ⟨hcount, XRat.eq_fin_iff.mp hscale⟩

/-! ## The table -/

theorem toU8_fin {n : ℤ} (h0 : 0 ≤ n) (h255 : n ≤ 255) :
    F64.toU8 (XRat.fin n) = UInt8.ofNat n.toNat := by
  have hcast : (F64.toU64 (XRat.fin n)).toNat = n.toNat := by
    rw [toNat_toU64]
    omega
  have hmin : Nat.min 255 n.toNat = n.toNat := Nat.min_eq_right (by omega)
  rw [F64.toU8, hcast, hmin]

theorem encode_fin (q : ℚ) : encode (XRat.fin q) (XRat.fin 10) =
    if 0 ≤ XRat.roundAway (10 * q) ∧ XRat.roundAway (10 * q) ≤ 255 then
      .ok (UInt8.ofNat (XRat.roundAway (10 * q)).toNat)
    else .error "Curve exceeds the ECU AFR range at 0 or 5 V" := by
  have hvalue : F64.round (F64.mul (XRat.fin q) (XRat.fin 10)) =
      XRat.fin (XRat.roundAway (10 * q)) := by
    rw [XRat.mul_fin, mul_comm]
    rfl
  have h0 : F64.le (0 : XRat) (.fin (XRat.roundAway (10 * q))) =
      decide (0 ≤ XRat.roundAway (10 * q)) := by
    rw [XRat.ofNat_eq_fin, XRat.le_fin]
    exact decide_eq_decide.mpr (by exact_mod_cast Iff.rfl)
  have h255 : F64.le (.fin (XRat.roundAway (10 * q))) (255 : XRat) =
      decide (XRat.roundAway (10 * q) ≤ 255) := by
    rw [XRat.ofNat_eq_fin, XRat.le_fin]
    exact decide_eq_decide.mpr (by exact_mod_cast Iff.rfl)
  unfold encode
  dsimp only
  rw [hvalue, h0, h255, XRat.isFinite_fin]
  by_cases hfits : 0 ≤ XRat.roundAway (10 * q) ∧ XRat.roundAway (10 * q) ≤ 255
  · rw [if_pos hfits, decide_eq_true hfits.1, decide_eq_true hfits.2, toU8_fin hfits.1 hfits.2]
    rfl
  · have hno : (decide (0 ≤ XRat.roundAway (10 * q)) && decide (XRat.roundAway (10 * q) ≤ 255)) =
        false := by
      rw [← Bool.decide_and]
      exact decide_eq_false hfits
    rw [if_neg hfits, hno]
    rfl

theorem afrAt_eq (hp : p.Of l) (hcal : metadata df = .ok cal) (adc : ℕ) :
    l.afrAt cal adc = .fin (p.afr (Points.voltsOf adc)) := by
  have hvolts : p.voltsHigh - p.voltsLow ≠ 0 := (sub_pos.mpr p.volts_lt).ne'
  have hadc : F64.div (F64.mul (F64.ofInt adc) (5 : XRat)) (F64.ofInt (1023 : ℕ)) =
      .fin (Points.voltsOf adc) := by
    exact XRat.div_fin (by norm_num) _
  unfold Linear.afrAt
  rw [(metadata_eq_ok hcal).1, hp.voltsLow, hp.voltsHigh, hp.afrLow, hp.afrHigh]
  simp only [XRat.sub_fin, XRat.div_fin hvolts]
  change F64.add _ (F64.mul (F64.sub (F64.div (F64.mul (F64.ofInt adc) (5 : XRat))
    (F64.ofInt (1023 : ℕ))) (.fin p.voltsLow)) _) = _
  rw [hadc, XRat.sub_fin, XRat.mul_fin, XRat.add_fin]
  rfl

/-- **The curve of points in order** is there when every code is a byte. -/
theorem curve_eq (hp : p.Of l) (hcal : metadata df = .ok cal) : l.curve cal =
    if ∀ adc ∈ List.range 1024, p.Fits (Points.voltsOf adc) then
      .ok ((List.range 1024).map fun adc => UInt8.ofNat (p.code (Points.voltsOf adc)).toNat)
    else .error "Curve exceeds the ECU AFR range at 0 or 5 V" := by
  have hcount : cal.adcCount.toNat = 1024 := by
    rw [(metadata_eq_ok hcal).1]
    rfl
  rw [Linear.curve, hcount, ← except_mapM_ite]
  refine congrArg (List.mapM · _) (funext fun adc => ?_)
  rw [afrAt_eq hp hcal, (metadata_eq_ok hcal).2, encode_fin]
  rfl

theorem table_of_preset_eq_none (m : Machine) (hpreset : l.preset = none) :
    l.table m df = .ok (do l.curve (← l.points df)) := by
  rw [Linear.table, hpreset]
  cases l.points df <;> rfl

end Requests

/-! ## What there is a table for -/

/-- **The AFR tables are faithful.** There is a table exactly for points in order of which the codes
at 0 and at 5 V are bytes; it has 1024 entries, which do not decrease, and the entry of an ADC value
is the code at its voltage. -/
theorem table_faithful (m : Machine) (l : Linear XRat) (df : IniDef XRat) {cal : AfrCalibration XRat}
    (hcal : metadata df = .ok cal) (hpreset : l.preset = none) :
    ((∃ e, l.table m df = .ok (.error e)) ↔ ¬ ∃ p : Points, p.Of l ∧ p.Fits 0 ∧ p.Fits 5) ∧
    ∀ p : Points, p.Of l → p.Fits 0 → p.Fits 5 → ∃ bytes, l.table m df = .ok (.ok bytes) ∧
      bytes.length = 1024 ∧ bytes.Pairwise (· ≤ ·) ∧
      ∀ adc < 1024, ∃ b, bytes[adc]? = some b ∧ (b.toNat : ℤ) = p.code (Points.voltsOf adc) := by
  have htable {p : Points} (hp : p.Of l) : l.table m df = .ok
      (if ∀ adc ∈ List.range 1024, p.Fits (Points.voltsOf adc) then
        .ok ((List.range 1024).map fun adc => UInt8.ofNat (p.code (Points.voltsOf adc)).toNat)
      else .error "Curve exceeds the ECU AFR range at 0 or 5 V") := by
    rw [table_of_preset_eq_none m hpreset, points_eq_ok_iff.mpr ⟨hcal, p, hp⟩, ← curve_eq hp hcal]
    rfl
  have hends {p : Points} : (∀ adc ∈ List.range 1024, p.Fits (Points.voltsOf adc)) ↔
      p.Fits 0 ∧ p.Fits 5 := by
    constructor
    · intro h
      have h0 := h 0 (List.mem_range.mpr (by decide))
      have h5 := h 1023 (List.mem_range.mpr (by decide))
      rw [Points.voltsOf_zero] at h0
      rw [Points.voltsOf_last] at h5
      exact ⟨h0, h5⟩
    · rintro ⟨h0, h5⟩ adc hadc
      exact Points.fits_voltsOf h0 h5 (List.mem_range.mp hadc)
  refine ⟨⟨?_, fun h => ?_⟩, fun p hp h0 h5 => ?_⟩
  · rintro ⟨e, he⟩ ⟨p, hp, h0, h5⟩
    rw [htable hp, if_pos (hends.mpr ⟨h0, h5⟩)] at he
    exact nomatch Except.ok.inj he
  · by_cases hordered : ∃ p : Points, p.Of l
    · obtain ⟨p, hp⟩ := hordered
      rw [htable hp, if_neg fun hfits => h ⟨p, hp, hends.mp hfits⟩]
      exact ⟨_, rfl⟩
    · -- the points are refused
      rw [table_of_preset_eq_none m hpreset]
      cases hpoints : l.points df with
      | error e => exact ⟨e, rfl⟩
      | ok cal' => exact absurd (points_eq_ok_iff.mp hpoints).2 hordered
  · have hbyte {adc : ℕ} (hadc : adc < 1024) :
        ((UInt8.ofNat (p.code (Points.voltsOf adc)).toNat).toNat : ℤ) =
          p.code (Points.voltsOf adc) := by
      obtain ⟨hlow, hhigh⟩ := Points.fits_voltsOf h0 h5 hadc
      rw [UInt8.toNat_ofNat_of_lt' (show (p.code (Points.voltsOf adc)).toNat < 2 ^ 8 by omega)]
      exact Int.toNat_of_nonneg hlow
    refine ⟨_, (htable hp).trans (by rw [if_pos (hends.mpr ⟨h0, h5⟩)]), ?_, ?_, fun adc hadc => ?_⟩
    · rw [List.length_map, List.length_range]
    · rw [List.pairwise_map]
      refine List.Pairwise.imp_of_mem (fun ha hb hlt => ?_) List.pairwise_lt_range
      have hmono := p.code_mono (Points.voltsOf_mono hlt.le)
      rw [← hbyte (List.mem_range.mp ha), ← hbyte (List.mem_range.mp hb)] at hmono
      exact UInt8.le_iff_toNat_le.mpr (by exact_mod_cast hmono)
    · refine ⟨_, ?_, hbyte hadc⟩
      rw [List.getElem?_map, List.getElem?_range hadc]
      rfl

/-- A definition with an AFR table, and the points of the source's test. -/
def afrDef : IniDef XRat where
  header := { tableCrcCommand := some "k\\$tsCanId%2i%2o%2c" }
  afrCalibration := some ⟨"t\\$tsCanId%2i%2o%2c%v", 256, 2, 1024, 1, .fin 10, []⟩

def aemPoints : Points where
  voltsLow := 1 / 2
  afrLow := 17 / 2
  voltsHigh := 9 / 2
  afrHigh := 18
  nonneg := by norm_num
  volts_lt := by norm_num
  le_five := by norm_num
  pos := by norm_num
  afr_lt := by norm_num

def aem : Linear XRat := ⟨.fin (1 / 2), .fin (17 / 2), .fin (9 / 2), .fin 18, none⟩

theorem table_faithful_aem : ∃ bytes, aem.table ⟨.debug, 8⟩ afrDef = .ok (.ok bytes) ∧
    bytes.length = 1024 ∧ bytes.Pairwise (· ≤ ·) ∧
    ∀ adc < 1024, ∃ b, bytes[adc]? = some b ∧
      (b.toNat : ℤ) = aemPoints.code (Points.voltsOf adc) :=
  (table_faithful ⟨.debug, 8⟩ aem afrDef rfl rfl).2 aemPoints ⟨rfl, rfl, rfl, rfl⟩
    (by decide +kernel) (by decide +kernel)

end RustyTune.Server.Calibration
