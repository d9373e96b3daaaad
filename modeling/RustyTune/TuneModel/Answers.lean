import RustyTune.TsIni.Symbols
import RustyTune.TsIni.Telemetry
import RustyTune.TuneModel.Access

/-!
# What the tune and the telemetry answer

A look-up in the tune or in the telemetry asks for other symbols, those that scales, translates and
derived channels name.

* `SymbolSource.AbortsOnly.lookUp`: what looks symbols up aborts as they do; `Levels`: a source for
  every depth, each a look-up in the one below.
* `Tune.lookUp`: one level of it in the tune.
* **`Tune.lookUp_looksUp`**, **`Telemetry.lookUp_looksUp`**: it looks symbols up, and fails by itself
  only where expressions or bit fields do.
* `Tune.FieldsAbortOnly`, `Telemetry.FieldsAbortOnly`: how the bit fields fail.
* **`Tune.symbolsAt_abortsOnly`**, **`Telemetry.symbolsAt_abortsOnly`**: the same of all levels.
-/

namespace RustyTune

open TsIni TuneModel Exec

variable {F : Type} [F64 F] {m : Machine} {P : Abort → Prop} {bits : String → ℕ → Option String}

/-! ## Sources that look up in each other -/

namespace TsIni

omit [F64 F] in
theorem AbortsOnly.of_looksUp {α : Type} {f : SymbolSource F → Exec α}
    (hf : ∀ bits, LooksUp P fun src : Answers F => f (.ofAnswers bits src)) {s : SymbolSource F}
    (hs : s.AbortsOnly P) : AbortsOnly P (f s) := by
  have h := abortsOnly_of_looksUp (hf s.bitString) hs.answers
  rwa [SymbolSource.ofAnswers_answers] at h

omit [F64 F] in
theorem SymbolSource.AbortsOnly.lookUp {f : SymbolSource F → SymbolSource F}
    (h : ∀ bits q, LooksUp P fun src : Answers F => (f (.ofAnswers bits src)).answers q)
    {s : SymbolSource F} (hs : s.AbortsOnly P) : (f s).AbortsOnly P where
  value name := AbortsOnly.of_looksUp (f := fun s => (f s).value name)
    (fun bits => h bits (.value name)) hs
  arrayValue name index := AbortsOnly.of_looksUp (f := fun s => (f s).arrayValue name index)
    (fun bits => h bits (.element name index)) hs

/-- A source of symbols for every depth, each a look-up in the one below. -/
structure Levels (f : SymbolSource F → SymbolSource F) (bits : String → ℕ → Option String)
    (s : ℕ → SymbolSource F) : Prop where
  zero : ∀ q, (s 0).answers q = .error .stackOverflow
  succ : ∀ depth, s (depth + 1) = f (s depth)
  bitString : ∀ depth, (s depth).bitString = bits

omit [F64 F] in
/-- A source at every depth aborts for the reasons its look-ups do. -/
theorem Levels.abortsOnly {f : SymbolSource F → SymbolSource F} {s : ℕ → SymbolSource F}
    (h : Levels f bits s) (hdeep : P .stackOverflow)
    (hf : ∀ bits q, LooksUp P fun src : Answers F => (f (.ofAnswers bits src)).answers q)
    (depth : ℕ) : (s depth).AbortsOnly P := by
  induction depth with
  | zero =>
    have hzero (q : Symbol) : AbortsOnly P ((s 0).answers q) := by
      rw [h.zero]
      exact abortsOnly_error hdeep
    exact ⟨fun name => hzero (.value name), fun name index => hzero (.element name index)⟩
  | succ depth ih =>
    rw [h.succ]
    exact .lookUp hf ih

end TsIni

/-! ## The tune -/

namespace TuneModel.Tune

variable {t : Tune F}

/-- What the tune answers, with the symbols that expressions are evaluated against. -/
def lookUp (m : Machine) (t : Tune F) (syms : SymbolSource F) : SymbolSource F where
  value name :=
    if t.df.constants.containsKey name then t.constantValueWith m syms name
    else
      match t.pcValues.get? name with
      | some v => return some (.num v)
      | none =>
        match t.df.outputChannels.get? name with
        | some (.derived expr _) => evalOk (expr.eval m syms)
        | _ => return none
  bitString := t.bitString
  arrayValue := t.arrayElementWith m syms

theorem symbolsAt_succ (depth : ℕ) : t.symbolsAt m (depth + 1) = t.lookUp m (t.symbolsAt m depth) :=
  rfl

theorem levels (m : Machine) (t : Tune F) : Levels (t.lookUp m) t.bitString (t.symbolsAt m) where
  zero q := by cases q <;> rfl
  succ _ := rfl
  bitString depth := by cases depth <;> rfl

/-- The bit fields that are read abort for reasons in `P` only. -/
def FieldsAbortOnly (m : Machine) (P : Abort → Prop) (t : Tune F) : Prop :=
  ∀ name c p offset raw lo hi, t.constant name = some c → c.cls = .bits →
    c.shape = some (.bits lo hi) → t.located c = some (p, offset) →
    readRaw p.data offset c.ty = some raw → AbortsOnly P (fieldValue m lo hi (BitVec.ofInt 64 raw))

section

variable (hP : P .expression)
include hP

theorem scaled_looksUp (c : ConstantDef F) (raw : ℤ) :
    LooksUp P fun src : Answers F => scaled m (.ofAnswers bits src) c raw := by
  have hfield (field : NumOrExpr F) :
      LooksUp P fun src : Answers F => evalOk (field.eval m (.ofAnswers bits src)) :=
    (looksUp_evalOk field.eval_looksUp).mono fun _ h => h ▸ hP
  unfold scaled
  refine (hfield c.scale).bind fun scale => ?_
  cases scale with
  | none => exact .ok _
  | some scale =>
    refine (hfield c.translate).bind fun translate => ?_
    cases translate <;> exact .ok _

theorem arrayElementWith_looksUp (name : String) (index : ℕ) :
    LooksUp P fun src : Answers F => t.arrayElementWith m (.ofAnswers bits src) name index := by
  unfold arrayElementWith
  split
  · exact .ok _
  · next c _ =>
    split_ifs
    · exact .ok _
    · exact .ok _
    · split
      · exact .ok _
      · split
        · exact .ok _
        · exact scaled_looksUp hP c _

theorem arrayElementWith_abortsOnly {s : SymbolSource F} (hs : s.AbortsOnly P) (name : String)
    (index : ℕ) : AbortsOnly P (t.arrayElementWith m s name index) :=
  AbortsOnly.of_looksUp (f := fun s => t.arrayElementWith m s name index)
    (fun _ => arrayElementWith_looksUp hP name index) hs

variable (ht : t.FieldsAbortOnly m P)
include ht

theorem constantValueWith_looksUp (name : String) :
    LooksUp P fun src : Answers F => t.constantValueWith m (.ofAnswers bits src) name := by
  unfold constantValueWith
  split
  · exact .ok _
  · next c hc =>
    split
    · exact .ok _
    · next p offset hl =>
      split
      · split
        · exact .ok _
        · exact (scaled_looksUp hP c _).bind fun _ => .ok _
      · next hcls =>
        split
        · next raw lo hi hraw hsh =>
          exact (looksUp_const (ht name c p offset raw lo hi hc hcls hsh hl hraw)).bind fun _ => .ok _
        · exact .ok _
      · split <;> exact .ok _
      · exact .ok _

theorem constantValueWith_abortsOnly {s : SymbolSource F} (hs : s.AbortsOnly P) (name : String) :
    AbortsOnly P (t.constantValueWith m s name) :=
  AbortsOnly.of_looksUp (f := fun s => t.constantValueWith m s name)
    (fun _ => constantValueWith_looksUp hP ht name) hs

/-- **A look-up in the tune looks symbols up.** -/
theorem lookUp_looksUp (q : Symbol) :
    LooksUp P fun src : Answers F => (t.lookUp m (.ofAnswers bits src)).answers q := by
  cases q with
  | value name =>
    simp only [SymbolSource.answers, lookUp]
    split_ifs
    · exact constantValueWith_looksUp hP ht name
    · split
      · exact .ok _
      · split
        · next expr _ _ => exact (looksUp_evalOk expr.eval_looksUp).mono fun _ h => h ▸ hP
        · exact .ok _
  | element name index => exact arrayElementWith_looksUp hP name index

/-- **The tune as a source of symbols aborts for the reasons its bit fields do.** -/
theorem symbolsAt_abortsOnly (hdeep : P .stackOverflow) (depth : ℕ) :
    (t.symbolsAt m depth).AbortsOnly P :=
  (levels m t).abortsOnly hdeep (fun _ => lookUp_looksUp hP ht) depth

end

end TuneModel.Tune

/-! ## The telemetry -/

namespace TsIni.Telemetry

variable {t : Telemetry F}

theorem levels (m : Machine) (t : Telemetry F) : Levels (t.lookUp m) t.bitString (t.symbolsAt m) where
  zero q := by cases q <;> rfl
  succ _ := rfl
  bitString depth := by cases depth <;> rfl

/-- The bit fields that are read abort for reasons in `P` only. -/
def FieldsAbortOnly (m : Machine) (P : Abort → Prop) (t : Telemetry F) : Prop :=
  ∀ name ty offset lo hi (raw : F), t.df.outputChannels.get? name = some (.bits ty offset lo hi) →
    readRaw t.block offset.toNat ty = some raw →
    AbortsOnly P (bitsOf m lo hi (F64.toU64 raw).toBitVec)

/-- The extra source aborts for reasons in `P` only. -/
def ExtraAbortsOnly (P : Abort → Prop) (t : Telemetry F) : Prop :=
  ∀ extra, t.extra = some extra → ∀ name, AbortsOnly P (extra.value name)

section

variable (hP : P .expression) (ht : t.FieldsAbortOnly m P)
include hP ht

theorem channelWith_looksUp (name : String) :
    LooksUp P fun src : Answers F => t.channelWith m (.ofAnswers bits src) name := by
  have hfield (field : NumOrExpr F) :
      LooksUp P fun src : Answers F => evalOk (field.eval m (.ofAnswers bits src)) :=
    (looksUp_evalOk field.eval_looksUp).mono fun _ h => h ▸ hP
  unfold channelWith
  split
  · exact .ok _
  · split
    · exact .ok _
    · refine (hfield _).bind fun scale => ?_
      cases scale with
      | none => exact .ok _
      | some scale =>
        refine (hfield _).bind fun translate => ?_
        cases translate <;> exact .ok _
  · next ty offset lo hi hget =>
    split
    · exact .ok _
    · next raw hraw =>
      exact (looksUp_const (ht name ty offset lo hi raw hget hraw)).bind fun _ => .ok _
  · next expr _ _ => exact (looksUp_evalOk expr.eval_looksUp).mono fun _ h => h ▸ hP

theorem channelWith_abortsOnly {s : SymbolSource F} (hs : s.AbortsOnly P) (name : String) :
    AbortsOnly P (t.channelWith m s name) :=
  AbortsOnly.of_looksUp (f := fun s => t.channelWith m s name)
    (fun _ => channelWith_looksUp hP ht name) hs

variable (hextra : t.ExtraAbortsOnly P)
include hextra

/-- **A look-up in the telemetry looks symbols up.** -/
theorem lookUp_looksUp (q : Symbol) :
    LooksUp P fun src : Answers F => (t.lookUp m (.ofAnswers bits src)).answers q := by
  cases q with
  | value name =>
    simp only [SymbolSource.answers, lookUp]
    split_ifs
    · exact channelWith_looksUp hP ht name
    · split
      · exact .ok _
      · next extra he => exact looksUp_const (hextra extra he name)
  | element name index => exact .ok _

/-- **The telemetry as a source of symbols aborts for the reasons its bit fields and the extra source
do.** -/
theorem symbolsAt_abortsOnly (hdeep : P .stackOverflow) (depth : ℕ) :
    (t.symbolsAt m depth).AbortsOnly P :=
  (levels m t).abortsOnly hdeep (fun _ => lookUp_looksUp hP ht hextra) depth

end

end TsIni.Telemetry

end RustyTune
