import RustyTune.Lib.F64
import RustyTune.Lib.IndexMap
import RustyTune.Lib.Text

/-!
# Tune files

A tune file gives values to constants by name, in user units. What kind of value an entry holds is
read off its text.

* `MsqValue`, `MsqFile`.
* `parseBody`: the value a text stands for.
-/

namespace RustyTune.TuneModel.Msq

/-- The value of an entry. -/
inductive MsqValue (F : Type)
  | num (v : F)
  /-- Quoted text: a label of a bits constant, or a string constant. -/
  | text (s : String)
  /-- Values in memory order. -/
  | array (vs : List F)
  deriving DecidableEq, Repr

structure MsqFile (F : Type) where
  signature : Option String
  firmwareInfo : Option String
  author : Option String
  writeDate : Option String
  settings : List String
  constants : IndexMap String (MsqValue F)
  pcVariables : IndexMap String (MsqValue F)

variable {F : Type}

def MsqFile.empty : MsqFile F := ⟨none, none, none, none, [], ∅, ∅⟩

/-- The numbers that words stand for, if all of them do. -/
def parseNums [F64 F] : List (List Char) → Option (List F)
  | [] => some []
  | w :: ws => do
    let v ← F64.parse (String.ofList w)
    return v :: (← parseNums ws)

/-- A quoted text, a number, an array, or else a text without quotes. -/
def parseBody [F64 F] (text : List Char) : MsqValue F :=
  match Text.trim text with
  | '"' :: stripped => .text (String.ofList (Text.trimEndWhere (· == '"') stripped))
  | trimmed =>
    match parseNums (Text.splitWhitespace trimmed) with
    | some [v] => .num v
    | some (v :: w :: vs) => .array (v :: w :: vs)
    | _ => .text (String.ofList trimmed)

end RustyTune.TuneModel.Msq
