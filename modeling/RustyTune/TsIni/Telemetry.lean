import RustyTune.Lib.Endian
import RustyTune.Lib.Slice
import RustyTune.TsIni.Model

/-!
# Telemetry

A block of realtime data decoded into the values of its channels. Derived channels are evaluated
against the telemetry itself, and what is no channel is asked of an extra source.

* `Telemetry`, `Telemetry.readRaw`.
* `Telemetry.symbolsAt`, `Telemetry.symbols`: the telemetry as a source of symbols, with a bound on
  nested look-ups.
* `Telemetry.channel`: the value of a channel.
-/

namespace RustyTune.TsIni

variable {F : Type}

structure Telemetry (F : Type) where
  df : IniDef F
  block : List UInt8
  /-- Resolves the identifiers that are no channels. -/
  extra : Option (SymbolSource F)

namespace Telemetry

def new (df : IniDef F) (block : List UInt8) : Telemetry F := ⟨df, block, none⟩

def withExtra (df : IniDef F) (block : List UInt8) (extra : SymbolSource F) : Telemetry F :=
  ⟨df, block, some extra⟩

/-- The label of a choice, of a constant or else of a variable. -/
def bitString (t : Telemetry F) (list : String) (index : ℕ) : Option String :=
  ((t.df.constants.get? list).or (t.df.pcVariables.get? list)).bind fun c => c.labels[index]?

variable [F64 F]

/-- The number that stands in the block, if the block reaches that far. -/
def readRaw (block : List UInt8) (offset : ℕ) (ty : DataType) : Option F :=
  (slice? block offset ty.size).map fun bytes =>
    F64.ofInt (if ty.signed then (BitVec.ofNat (8 * ty.size) (leNat bytes)).toInt else leNat bytes)

/-- The bits of a word from `lo` to `hi`. -/
def bitsOf (m : Machine) (lo hi : UInt8) (raw : BitVec 64) : Exec (BitVec 64) := do
  let width ← m.addU8 (← m.subU8 hi lo) 1
  let mask ← m.predU64 (← m.shlU64 1 width.toNat)
  return (← m.shrU64 raw lo.toNat) &&& mask

/-- `channel`, with the symbols that expressions are evaluated against. -/
def channelWith (m : Machine) (syms : SymbolSource F) (t : Telemetry F) (name : String) :
    Exec (Option (Value F)) :=
  match t.df.outputChannels.get? name with
  | none => return none
  | some (.scalar ty offset _ scale translate) =>
    match readRaw t.block offset.toNat ty with
    | none => return none
    | some raw => do
      match ← evalOk (scale.eval m syms) with
      | none => return none
      | some scale =>
        match ← evalOk (translate.eval m syms) with
        | none => return none
        | some translate => return some (.num (F64.add (F64.mul raw scale) translate))
  | some (.bits ty offset lo hi) =>
    match (readRaw t.block offset.toNat ty : Option F) with
    | none => return none
    | some raw => return some (.num (F64.ofInt (← bitsOf m lo hi (F64.toU64 raw).toBitVec).toNat))
  | some (.derived expr _) => evalOk (expr.eval m syms)

/-- What the telemetry answers, with the symbols that expressions are evaluated against. -/
def lookUp (m : Machine) (t : Telemetry F) (syms : SymbolSource F) : SymbolSource F where
  value name :=
    if t.df.outputChannels.containsKey name then t.channelWith m syms name
    else
      match t.extra with
      | none => return none
      | some extra => extra.value name
  bitString := t.bitString
  arrayValue _ _ := return none

/-- The telemetry as a source of symbols, for look-ups nested no deeper than the bound. -/
def symbolsAt (m : Machine) (t : Telemetry F) : ℕ → SymbolSource F
  | 0 => { value := fun _ => .error .stackOverflow
           bitString := t.bitString
           arrayValue := fun _ _ => .error .stackOverflow }
  | depth + 1 => t.lookUp m (symbolsAt m t depth)

variable (m : Machine)

/-- The telemetry as a source of symbols. -/
def symbols (t : Telemetry F) : SymbolSource F := t.symbolsAt m m.stack

def channel (t : Telemetry F) (name : String) : Exec (Option (Value F)) :=
  t.channelWith m (t.symbols m) name

end Telemetry

end RustyTune.TsIni
