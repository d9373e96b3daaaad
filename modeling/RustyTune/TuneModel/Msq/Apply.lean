import RustyTune.TuneModel.Msq.Diff

/-!
# Applying a file to the tune

* `apply`: the entries that pass the filter are written into the local page data one after the
  other, each against the tune as the ones before have left it; then the variables of the tuning
  application are set.
-/

namespace RustyTune.TuneModel.Msq

open TsIni

variable {F : Type}

structure ApplyReport where
  applied : ℕ
  /-- Name and reason. -/
  skipped : List (String × String)
  deriving DecidableEq, Repr

def ApplyReport.empty : ApplyReport := ⟨0, []⟩

/-- An entry passes when there is no filter, or when it is in it. -/
def passes (names : Option (List String)) (name : String) : Bool :=
  match names with
  | none => true
  | some filter => filter.contains name

variable [F64 F] (m : Machine)

/-- `try_for_each` over the elements: the first error ends it, and the elements before it stay
written. -/
def applyElements (name : String) : ℕ → List F → Tune F → Exec (Except TuneError Unit × Tune F)
  | _, [], t => return (.ok (), t)
  | i, v :: values, t => do
    match ← (t.setArrayElementUnclamped m name i v).run with
    | .ok t' => applyElements name (i + 1) values t'
    | .error e => return (.error e, t)

/-- A write that ends in an error leaves the tune as it was. -/
def written (t : Tune F) (r : Attempt (Tune F)) : Exec (Except TuneError Unit × Tune F) := do
  match ← r.run with
  | .ok t' => return (.ok (), t')
  | .error e => return (.error e, t)

/-- The turn of one entry: what is reported, and the tune afterwards. -/
def applyValue (t : Tune F) (name : String) (c : ConstantDef F) (value : MsqValue F) :
    Exec (Except TuneError Unit × Tune F) :=
  match c.cls, value with
  | .scalar, .num v => written t (t.setConstantUnclamped m name v)
  | .bits, value =>
    match fileBitsIndex t name value with
    | some idx => written t (t.setConstantUnclamped m name (F64.ofInt idx))
    | none => return (.error (.notEditable name "label not found"), t)
  | .array, .array values =>
    if values.length ≠ c.elementCount then
      return (.error (.notEditable name "array length mismatch"), t)
    else
      applyElements m name 0 values t
  | .string, _ => return (.error (.notEditable name "string constant"), t)
  | _, _ => return (.error (.notEditable name "value shape mismatch"), t)

def applyConstant (names : Option (List String)) (s : ApplyReport × Tune F)
    (entry : String × MsqValue F) : Exec (ApplyReport × Tune F) :=
  let (report, t) := s
  let (name, value) := entry
  if !passes names name then return (report, t)
  else
    match t.constant name with
    | none =>
      return ({ report with skipped := report.skipped ++ [(name, "not in definition")] }, t)
    | some c => do
      match ← applyValue m t name c value with
      | (.ok (), t') => return ({ report with applied := report.applied + 1 }, t')
      | (.error e, t') =>
        return ({ report with skipped := report.skipped ++ [(name, e.display)] }, t')

/-- The value a file gives to a variable. -/
def pcUser (c : ConstantDef F) : MsqValue F → Option F
  | .num v =>
    match c.cls with
    | .scalar | .bits => some v
    | _ => none
  | .text label =>
    if c.cls = .bits ∧ label ∈ c.labels then some (F64.ofInt (c.labels.idxOf label : ℤ)) else none
  | .array _ => none

/-- One variable of the file; unknown ones are skipped silently. -/
def applyPcVariable (names : Option (List String)) (s : ApplyReport × Tune F)
    (entry : String × MsqValue F) : Exec (ApplyReport × Tune F) :=
  let (report, t) := s
  let (name, value) := entry
  if !passes names name then return (report, t)
  else
    match (t.df.pcVariables.get? name).bind fun c => pcUser c value with
    | none => return (report, t)
    | some user => do
      match ← (t.setPcValue m name user).run with
      | .ok t' => return ({ report with applied := report.applied + 1 }, t')
      | .error _ => return (report, t)

/-- The constants of a file, one after the other. -/
def applyConstants (names : Option (List String)) (entries : List (String × MsqValue F))
    (s : ApplyReport × Tune F) : Exec (ApplyReport × Tune F) :=
  entries.foldlM (applyConstant m names) s

/-- Write the values of a file into the local data; `names` restricts it to a subset. -/
def apply (file : MsqFile F) (t : Tune F) (names : Option (List String)) :
    Exec (ApplyReport × Tune F) := do
  let s ← applyConstants m names file.constants.entries (ApplyReport.empty, t)
  file.pcVariables.entries.foldlM (applyPcVariable m names) s

end RustyTune.TuneModel.Msq
