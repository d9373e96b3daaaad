import RustyTune.TuneModel.Access
import RustyTune.TuneModel.Msq.File

/-!
# Comparing a file with the tune

* `bitsLabel`, `fileBitsIndex`: labels and indices of bits constants.
* `compare`: the comparison of one entry, at the level of raw values, ends in a `Verdict`.
* `diff`: every entry is put in the list its verdict names, or in none.
-/

namespace RustyTune.TuneModel.Msq

open TsIni

variable {F : Type}

inductive DiffKind (F : Type)
  | scalar (ecu file : F)
  | bits (ecu file : String)
  /-- Indices in memory order, and the number of elements. -/
  | array (changed : List ℕ) (len : ℕ)
  deriving DecidableEq

structure DiffEntry (F : Type) where
  name : String
  page : Option UInt8
  kind : DiffKind F
  deriving DecidableEq

structure MsqDiff (F : Type) where
  entries : List (DiffEntry F)
  /-- Constants in the file that the definition does not know. -/
  onlyInFile : List String
  /-- Constants that could not be compared, with the reason. -/
  unresolved : List (String × String)
  deriving DecidableEq

/-- What the comparison of an entry puts in a list. -/
inductive Verdict (F : Type)
  | entry (page : Option UInt8) (kind : DiffKind F)
  | onlyInFile
  | unresolved (reason : String)
  /-- Nothing. -/
  | unlisted

namespace MsqDiff

def empty : MsqDiff F := ⟨[], [], []⟩

def push (out : MsqDiff F) (name : String) : Verdict F → MsqDiff F
  | .entry page kind => { out with entries := out.entries ++ [⟨name, page, kind⟩] }
  | .onlyInFile => { out with onlyInFile := out.onlyInFile ++ [name] }
  | .unresolved reason => { out with unresolved := out.unresolved ++ [(name, reason)] }
  | .unlisted => out

end MsqDiff

/-- `as usize` of an `i64`. -/
def asUsize (i : ℤ) : ℕ := (i % 2 ^ 64).toNat

/-- The label of a choice, or its number. -/
def bitsLabel (t : Tune F) (name : String) (index : ℤ) : String :=
  ((t.constant name).bind fun c => c.labels[asUsize index]?).getD (toString index)

/-- The index that a file's value for a bits constant stands for; "INVALID" as a label is
ambiguous. -/
def fileBitsIndex [F64 F] (t : Tune F) (name : String) : MsqValue F → Option ℤ
  | .num n => some (F64.toI64 n).toInt
  | .text label =>
    if label = "INVALID" then none
    else (t.constant name).bind fun c =>
      if label ∈ c.labels then some (c.labels.idxOf label : ℤ) else none
  | .array _ => none

variable [F64 F] (m : Machine) (t : Tune F)

/-- The element loop: the indices that differ, and none at all if an element cannot be compared. -/
def changedFrom (name : String) : ℕ → List F → List ℕ → Exec (List ℕ)
  | _, [], changed => return changed
  | i, userFile :: values, changed => do
    match t.arrayRaw name i, ← (t.encodeUser m name userFile).run with
    | some rawCur, .ok rawFile =>
      changedFrom name (i + 1) values (if rawCur ≠ rawFile then changed ++ [i] else changed)
    | _, _ => return []

/-- The comparison of one entry of the file. -/
def compare (name : String) (value : MsqValue F) : Exec (Verdict F) :=
  match t.constant name with
  | none => return .onlyInFile
  | some c =>
    match c.cls, value with
    | .scalar, .num userFile => do
      match ← t.constantRaw m name, ← (t.encodeUser m name userFile).run with
      | some rawCur, .ok rawFile =>
        if rawCur = rawFile then
          return .unlisted
        else
          let ecu := match ← t.constantValue m name with
            | some (.num n) => n
            | _ => F64.nan
          return .entry c.page (.scalar ecu userFile)
      | _, _ => return .unresolved "scale did not resolve"
    | .bits, value => do
      match ← t.constantRaw m name, fileBitsIndex t name value with
      | some rawCur, some idxFile =>
        if rawCur = idxFile then
          return .unlisted
        else
          return .entry c.page (.bits (bitsLabel t name rawCur) (bitsLabel t name idxFile))
      | _, _ => return .unresolved "label not in combo list"
    | .array, .array values =>
      if values.length ≠ c.elementCount then
        return .unresolved "array length mismatch"
      else do
        match ← changedFrom m t name 0 values [] with
        | [] => return .unlisted
        | i :: is => return .entry c.page (.array (i :: is) c.elementCount)
    | .string, .text text => do
      match ← t.constantValue m name with
      | some (.str current) =>
        if current = text then
          return .unlisted
        else
          return .entry c.page (.bits current text)
      | _ => return .unlisted
    | _, _ => return .unresolved "value shape mismatch"

/-- One entry of the file, compared and put in a list. -/
def diffStep (out : MsqDiff F) (entry : String × MsqValue F) : Exec (MsqDiff F) := do
  return out.push entry.1 (← compare m t entry.1 entry.2)

/-- Compare a file with the local state of the tune. -/
def diff (file : MsqFile F) : Exec (MsqDiff F) :=
  file.constants.entries.foldlM (diffStep m t) MsqDiff.empty

end RustyTune.TuneModel.Msq
