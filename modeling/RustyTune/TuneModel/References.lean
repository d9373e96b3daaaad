import RustyTune.Lib.XRat
import RustyTune.TsIni.Parse
import RustyTune.TuneModel.Answers
import RustyTune.TuneModel.Coding

/-!
# Names that refer to names

Constants and channels are resolved through the names in their expressions, with nothing to keep a
name from leading back to itself.

* `Tune.Resolves`, `Telemetry.Resolves`: some depth of nested look-ups suffices for whatever is
  resolved.
* `Tune.Acyclic`, `Telemetry.Acyclic`: no symbol comes to ask for itself.
* **`resolves_iff`**: one is the other.
-/

namespace RustyTune

open TsIni TuneModel Exec

variable {F : Type} [F64 F] {m : Machine}

/-- Aborts other than that the stack is used up. -/
def NotDeep (e : Abort) : Prop := e ≠ .stackOverflow

theorem notDeep_iff {α : Type} {x : Exec α} : AbortsOnly NotDeep x ↔ x ≠ .error .stackOverflow :=
  ⟨fun h hx => h _ hx rfl, fun h _ he hdeep => h (hdeep ▸ he)⟩

theorem notDeep_expression : NotDeep .expression := nofun

theorem checked_notDeep {α : Type} (ok : Bool) (wrapped : α) :
    AbortsOnly NotDeep (m.checked ok wrapped) := by
  unfold Machine.checked
  split_ifs
  · exact abortsOnly_error nofun
  · exact abortsOnly_ok _

namespace TsIni

/-! ## Sources that look up in each other -/

section Levels

variable (lookUp : SymbolSource F → SymbolSource F) (bits : String → ℕ → Option String)

/-- The answer to a question, given those to the others. -/
def body (q : Symbol) (src : Answers F) : Exec (q.Answer F) := (lookUp (.ofAnswers bits src)).answers q

/-- Answering the first symbol asks for the second. -/
def SymbolAsksFor : Symbol → Symbol → Prop := AsksFor (body lookUp bits) .stackOverflow

variable {lookUp bits} {s : ℕ → SymbolSource F}

omit [F64 F] in
theorem Levels.answers_eq (h : Levels lookUp bits s) (depth : ℕ) :
    (s depth).answers = answers (body lookUp bits) .stackOverflow depth := by
  induction depth with
  | zero =>
    funext q
    exact h.zero q
  | succ depth ih =>
    funext q
    change _ = body lookUp bits q (answers (body lookUp bits) .stackOverflow depth)
    rw [h.succ, ← ih, body, ← h.bitString depth, SymbolSource.ofAnswers_answers]

omit [F64 F] in
theorem SymbolSource.abortsOnly_notDeep {s : SymbolSource F} :
    s.AbortsOnly NotDeep ↔ ∀ q, s.answers q ≠ .error .stackOverflow := by
  constructor
  · exact fun hs q => notDeep_iff.mp (hs.answers q)
  · exact fun h => ⟨fun name => notDeep_iff.mpr (h (.value name)),
      fun name index => notDeep_iff.mpr (h (.element name index))⟩

section

variable (h : Levels lookUp bits s) (hbody : ∀ q, LooksUp NotDeep (body lookUp bits q))
  {S : Finset Symbol} (hS : ∀ q ∉ S, ∀ src src', body lookUp bits q src = body lookUp bits q src')
include h hbody hS

omit [F64 F] in
/-- **Some depth suffices for all symbols exactly when none comes to ask for itself**, where only
finitely many ask for others. -/
theorem Levels.answered_iff :
    (∃ bound, ∀ depth ≥ bound, (s depth).AbortsOnly NotDeep) ↔
      ∀ q, ¬ Relation.TransGen (SymbolAsksFor lookUp bits) q q := by
  have hasks (x y : Symbol) (hxy : AsksFor (body lookUp bits) .stackOverflow x y) : x ∈ S := by
    obtain ⟨depth, hxy⟩ := hxy
    by_contra hx
    exact not_asks_of_const (hS x hx) hxy
  simp only [SymbolSource.abortsOnly_notDeep, h.answers_eq]
  exact answers_bounded_iff hbody S hasks

omit [F64 F] in
/-- The same of whatever is resolved: `R depth` says that a source is asked for all it is asked for by
the one above, and by others. -/
theorem Levels.resolved_iff {R : ℕ → Prop} (hR : ∀ depth, (s depth).AbortsOnly NotDeep → R depth)
    (hs : ∀ depth, R depth → R (depth + 1) → (s (depth + 1)).AbortsOnly NotDeep) :
    (∃ bound, ∀ depth ≥ bound, R depth) ↔
      ∀ q, ¬ Relation.TransGen (SymbolAsksFor lookUp bits) q q := by
  refine Iff.trans ⟨?_, ?_⟩ (h.answered_iff hbody hS)
  · rintro ⟨bound, hall⟩
    refine ⟨bound + 1, fun depth hd => ?_⟩
    obtain ⟨depth, rfl⟩ := Nat.exists_eq_succ_of_ne_zero (Nat.ne_of_gt (Nat.zero_lt_of_lt hd))
    exact hs depth (hall depth (Nat.le_of_succ_le_succ hd)) (hall (depth + 1) (Nat.le_of_succ_le hd))
  · rintro ⟨bound, hall⟩
    exact ⟨bound, fun depth hd => hR depth (hall depth hd)⟩

omit [F64 F] in
/-- It is enough to try the symbols that ask for others. -/
theorem Levels.abortsOnly_of_tried {d : ℕ} (hpos : 0 < d)
    (htried : ∀ q ∈ S, (s d).answers q ≠ .error .stackOverflow) {depth : ℕ} (hd : d ≤ depth) :
    (s depth).AbortsOnly NotDeep := by
  simp only [SymbolSource.abortsOnly_notDeep, h.answers_eq] at htried ⊢
  exact answers_ne_deep_of_tried hbody hS hpos htried hd

end

end Levels

end TsIni

/-! ## The tune -/

namespace TuneModel.Tune

variable {t : Tune F}

omit [F64 F] in
theorem fieldsAbortOnly_notDeep : t.FieldsAbortOnly m NotDeep := fun _ _ _ _ _ _ _ _ _ _ _ _ =>
  (AbortsOnly.bind ((checked_notDeep _ _).bind fun _ _ => checked_notDeep _ _) fun _ _ =>
    (checked_notDeep _ _).bind fun _ _ => checked_notDeep _ _).bind fun _ _ =>
      (checked_notDeep _ _).bind fun _ _ => abortsOnly_ok _

/-- The symbols that may ask for others. -/
def askers (t : Tune F) : Finset Symbol :=
  (t.df.constants.keys.map Symbol.value ++ t.df.outputChannels.keys.map Symbol.value ++
    t.df.constants.entries.flatMap fun e =>
      (List.range e.2.elementCount).map (Symbol.element e.1)).toFinset

theorem body_of_not_asker {q : Symbol} (hq : q ∉ t.askers) (src src' : Answers F) :
    body (t.lookUp m) t.bitString q src = body (t.lookUp m) t.bitString q src' := by
  simp only [askers, List.mem_toFinset, List.mem_append, not_or] at hq
  obtain ⟨⟨hconst, hchannel⟩, helement⟩ := hq
  cases q with
  | value name =>
    have hc : t.df.constants.get? name = none := IndexMap.get?_eq_none.mpr fun h =>
      hconst (List.mem_map_of_mem h)
    have hch : t.df.outputChannels.get? name = none := IndexMap.get?_eq_none.mpr fun h =>
      hchannel (List.mem_map_of_mem h)
    simp only [body, SymbolSource.answers, lookUp, IndexMap.containsKey, hc, hch, Option.isSome_none,
      Bool.false_eq_true, if_false]
  | element name index =>
    simp only [body, SymbolSource.answers, lookUp, arrayElementWith]
    split
    · rfl
    · next c hc =>
      have hmem : (name, c) ∈ t.df.constants.entries := IndexMap.get?_eq_some.mp hc
      split_ifs with hcls hlen
      · rfl
      · rfl
      · refine absurd (List.mem_flatMap.mpr ⟨_, hmem, ?_⟩) helement
        exact List.mem_map_of_mem (List.mem_range.mpr (Nat.not_le.mp hlen))

/-- No symbol comes to ask for itself. -/
def Acyclic (m : Machine) (t : Tune F) : Prop :=
  ∀ q, ¬ Relation.TransGen (SymbolAsksFor (t.lookUp m) t.bitString) q q

/-- Whatever is resolved through the tune is, within so many nested look-ups. -/
structure ResolvesAt (m : Machine) (t : Tune F) (depth : ℕ) : Prop where
  constantValue : ∀ name,
    t.constantValueWith m (t.symbolsAt m depth) name ≠ .error .stackOverflow
  arrayElement : ∀ name index,
    t.arrayElementWith m (t.symbolsAt m depth) name index ≠ .error .stackOverflow
  /-- A scale, a translate or a limit. -/
  field : ∀ field : NumOrExpr F, (field.eval m (t.symbolsAt m depth)).run ≠ .error .stackOverflow
  /-- A name, that of a derived channel too. -/
  value : ∀ name, (t.symbolsAt m depth).value name ≠ .error .stackOverflow

/-- Some depth suffices for whatever is resolved. -/
def Resolves (m : Machine) (t : Tune F) : Prop := ∃ bound, ∀ depth ≥ bound, t.ResolvesAt m depth

theorem resolvesAt_of_abortsOnly {depth : ℕ} (hs : (t.symbolsAt m depth).AbortsOnly NotDeep) :
    t.ResolvesAt m depth where
  constantValue name := notDeep_iff.mp
    (constantValueWith_abortsOnly notDeep_expression fieldsAbortOnly_notDeep hs name)
  arrayElement name index :=
    notDeep_iff.mp (arrayElementWith_abortsOnly notDeep_expression hs name index)
  field field := notDeep_iff.mp (field.eval_abortsOnly notDeep_expression hs)
  value name := notDeep_iff.mp (hs.value name)

/-- Through the tune all is resolved exactly when no symbol comes to ask for itself. -/
theorem resolves_iff_acyclic (m : Machine) (t : Tune F) : t.Resolves m ↔ t.Acyclic m :=
  -- elements are those of the level below
  (levels m t).resolved_iff (fun q => lookUp_looksUp notDeep_expression fieldsAbortOnly_notDeep q)
    (fun _ => body_of_not_asker) (fun _ => resolvesAt_of_abortsOnly) fun _ hbelow h =>
      ⟨fun name => notDeep_iff.mpr (h.value name),
        fun name index => notDeep_iff.mpr (hbelow.arrayElement name index)⟩

/-- It is enough to try the symbols that may ask for others. -/
theorem abortsOnly_of_tried {d : ℕ} (hpos : 0 < d)
    (h : ∀ q ∈ t.askers, (t.symbolsAt m d).answers q ≠ .error .stackOverflow) {depth : ℕ}
    (hd : d ≤ depth) : (t.symbolsAt m depth).AbortsOnly NotDeep :=
  (levels m t).abortsOnly_of_tried
    (fun q => lookUp_looksUp notDeep_expression fieldsAbortOnly_notDeep q)
    (fun _ => body_of_not_asker) hpos h hd

end TuneModel.Tune

/-! ## The telemetry -/

namespace TsIni.Telemetry

variable {t : Telemetry F}

theorem fieldsAbortOnly_notDeep : t.FieldsAbortOnly m NotDeep := fun _ _ _ _ _ _ _ _ =>
  (checked_notDeep _ _).bind fun _ _ => (checked_notDeep _ _).bind fun _ _ =>
    (checked_notDeep _ _).bind fun _ _ => (checked_notDeep _ _).bind fun _ _ =>
      (checked_notDeep _ _).bind fun _ _ => abortsOnly_ok _

/-- The symbols that may ask for others. -/
def askers (t : Telemetry F) : Finset Symbol :=
  (t.df.outputChannels.keys.map Symbol.value).toFinset

theorem body_of_not_asker {q : Symbol} (hq : q ∉ t.askers) (src src' : Answers F) :
    body (t.lookUp m) t.bitString q src = body (t.lookUp m) t.bitString q src' := by
  cases q with
  | value name =>
    have hc : t.df.outputChannels.get? name = none := IndexMap.get?_eq_none.mpr fun h =>
      hq (List.mem_toFinset.mpr (List.mem_map_of_mem h))
    simp only [body, SymbolSource.answers, lookUp, IndexMap.containsKey, hc, Option.isSome_none,
      Bool.false_eq_true, if_false]
  | element name index => rfl

/-- No symbol comes to ask for itself. -/
def Acyclic (m : Machine) (t : Telemetry F) : Prop :=
  ∀ q, ¬ Relation.TransGen (SymbolAsksFor (t.lookUp m) t.bitString) q q

/-- Whatever is resolved through the telemetry is, within so many nested look-ups. -/
structure ResolvesAt (m : Machine) (t : Telemetry F) (depth : ℕ) : Prop where
  channel : ∀ name, t.channelWith m (t.symbolsAt m depth) name ≠ .error .stackOverflow
  field : ∀ field : NumOrExpr F, (field.eval m (t.symbolsAt m depth)).run ≠ .error .stackOverflow
  value : ∀ name, (t.symbolsAt m depth).value name ≠ .error .stackOverflow

/-- Some depth suffices for whatever is resolved. -/
def Resolves (m : Machine) (t : Telemetry F) : Prop := ∃ bound, ∀ depth ≥ bound, t.ResolvesAt m depth

theorem resolvesAt_of_abortsOnly {depth : ℕ} (hs : (t.symbolsAt m depth).AbortsOnly NotDeep) :
    t.ResolvesAt m depth where
  channel name := notDeep_iff.mp
    (channelWith_abortsOnly notDeep_expression fieldsAbortOnly_notDeep hs name)
  field field := notDeep_iff.mp (field.eval_abortsOnly notDeep_expression hs)
  value name := notDeep_iff.mp (hs.value name)

/-- Through the telemetry all is resolved exactly when no symbol comes to ask for itself, if the extra
source has its answers. -/
theorem resolves_iff_acyclic (m : Machine) (t : Telemetry F) (hextra : t.ExtraAbortsOnly NotDeep) :
    t.Resolves m ↔ t.Acyclic m :=
  (levels m t).resolved_iff
    (fun q => lookUp_looksUp notDeep_expression fieldsAbortOnly_notDeep hextra q)
    (fun _ => body_of_not_asker) (fun _ => resolvesAt_of_abortsOnly) fun _ _ h =>
      ⟨fun name => notDeep_iff.mpr (h.value name), fun _ _ => abortsOnly_ok _⟩

theorem abortsOnly_of_tried (hextra : t.ExtraAbortsOnly NotDeep) {d : ℕ} (hpos : 0 < d)
    (h : ∀ q ∈ t.askers, (t.symbolsAt m d).answers q ≠ .error .stackOverflow) {depth : ℕ}
    (hd : d ≤ depth) : (t.symbolsAt m depth).AbortsOnly NotDeep :=
  (levels m t).abortsOnly_of_tried
    (fun q => lookUp_looksUp notDeep_expression fieldsAbortOnly_notDeep hextra q)
    (fun _ => body_of_not_asker) hpos h hd

end TsIni.Telemetry

/-! ## Both -/

/-- A tune that resolves is an extra source with its answers. -/
theorem TuneModel.Tune.Resolves.extra {t : Tune F} (h : t.Resolves m) : ∃ bound, ∀ depth ≥ bound,
    ∀ df block, (Telemetry.withExtra df block (t.symbolsAt m depth)).ExtraAbortsOnly NotDeep := by
  obtain ⟨bound, h⟩ := h
  refine ⟨bound, fun depth hd df block extra he name => ?_⟩
  obtain rfl := Option.some.inj he
  exact notDeep_iff.mpr ((h depth hd).value name)

/-- **Evaluation terminates exactly when no symbol comes to ask for itself**, through the tune and
through the telemetry. -/
theorem resolves_iff (m : Machine) (t : Tune F) (tel : Telemetry F)
    (hextra : tel.ExtraAbortsOnly NotDeep) :
    (t.Resolves m ↔ t.Acyclic m) ∧ (tel.Resolves m ↔ tel.Acyclic m) :=
  ⟨t.resolves_iff_acyclic m, tel.resolves_iff_acyclic m hextra⟩

/-- A byte, or bytes, that are scaled. -/
def scaledByte (name : String) (offset : UInt32) (shape : Option Shape) (scale : NumOrExpr XRat) :
    ConstantDef XRat where
  name
  cls := if shape = none then .scalar else .array
  ty := .u08
  page := some 1
  offset := some offset
  shape
  units := none
  scale
  translate := .num (.fin 0)
  lo := none
  hi := none
  digits := none
  labels := []
  stringLen := none
  noMsqSave := false

/-- Constants and channels that consult one another, the channels those of the tune too. -/
def linked : IniDef XRat where
  header := { pageSizes := [4] }
  constants := IndexMap.ofList [("gain", scaledByte "gain" 0 none (.num (.fin (1 / 2)))),
    ("idle", scaledByte "idle" 1 none (.expr (.ident "gain"))),
    ("bins", scaledByte "bins" 2 (some (.array1D 2)) (.expr (.binary .add (.ident "idle") (.ident "gain"))))]
  outputChannels := IndexMap.ofList [
    ("load", .scalar .u08 0 none (.expr (.ident "gain")) (.num (.fin 0))),
    ("twice", .derived (.binary .mul (.ident "load") (.ident "idle")) none)]

def isDeep {α : Type} : Exec α → Bool
  | .error .stackOverflow => true
  | _ => false

theorem isDeep_eq_false {α : Type} {x : Exec α} : isDeep x = false ↔ x ≠ .error .stackOverflow := by
  rcases x with e | a
  · cases e <;> simp [isDeep]
  · simp [isDeep]

def linkedTune : Tune XRat := Tune.new linked

def linkedTelemetry : Telemetry XRat :=
  Telemetry.withExtra linked [2] (linkedTune.symbols ⟨.debug, 8⟩)

/-- A tune, and a telemetry over it: one look-up is not enough, and there is no circle. -/
theorem resolves_iff_linked :
    (linkedTune.symbolsAt ⟨.debug, 8⟩ 1).value "idle" = .error .stackOverflow ∧
      (linkedTelemetry.symbolsAt ⟨.debug, 8⟩ 1).value "twice" = .error .stackOverflow ∧
      linkedTune.Acyclic ⟨.debug, 8⟩ ∧ linkedTelemetry.Acyclic ⟨.debug, 8⟩ := by
  have htried : ∀ q ∈ linkedTune.askers,
      isDeep ((linkedTune.symbolsAt ⟨.debug, 8⟩ 4).answers q) = false := by decide +kernel
  have htelTried : ∀ q ∈ linkedTelemetry.askers,
      isDeep ((linkedTelemetry.symbolsAt ⟨.debug, 8⟩ 4).answers q) = false := by decide +kernel
  have hanswers : ∀ depth ≥ 4, (linkedTune.symbolsAt ⟨.debug, 8⟩ depth).AbortsOnly NotDeep :=
    fun depth hd => Tune.abortsOnly_of_tried (by decide)
      (fun q hq => isDeep_eq_false.mp (htried q hq)) hd
  have hextra : linkedTelemetry.ExtraAbortsOnly NotDeep := by
    intro extra he name
    rw [← Option.some.inj he]
    exact (hanswers 8 (by decide)).value name
  obtain ⟨hacyclic, htelAcyclic⟩ := resolves_iff ⟨.debug, 8⟩ linkedTune linkedTelemetry hextra
  refine ⟨rfl, rfl, hacyclic.mp ⟨4, fun depth hd => ?_⟩, htelAcyclic.mp ⟨4, fun depth hd => ?_⟩⟩
  · exact Tune.resolvesAt_of_abortsOnly (hanswers depth hd)
  · exact Telemetry.resolvesAt_of_abortsOnly (Telemetry.abortsOnly_of_tried hextra (by decide)
      (fun q hq => isDeep_eq_false.mp (htelTried q hq)) hd)

/-! ## Definitions that do not resolve -/

/-- A scalar that is its own scale. -/
def ownScale : List Char :=
  "[Constants]\nnPages = 1\npageSize = 4\npage = 1\nidle = scalar, U08, 0, \"rpm\", { idle }, 0, 0, 255, 0".toList

/-- A channel that is derived from itself. -/
def ownChannel : List Char := "[OutputChannels]\nload = { load }".toList

def isName (name : String) : Expr F → Bool
  | .ident n => n = name
  | _ => false

omit [F64 F] in
theorem eq_ident_of_isName {name : String} {e : Expr F} (h : isName name e = true) :
    e = .ident name := by
  cases e with
  | ident n => exact congrArg _ (of_decide_eq_true h)
  | _ => exact nomatch h

theorem evalOk_ident_of_deep {s : SymbolSource F} {name : String}
    (h : s.value name = .error .stackOverflow) :
    evalOk ((Expr.ident name).eval m s) = .error .stackOverflow := by
  rw [Expr.eval, h]
  rfl

/-- A channel that is derived from itself is never answered. -/
theorem value_ownChannel {t : Telemetry F} {name : String} {units : Option String}
    (h : t.df.outputChannels.get? name = some (.derived (.ident name) units)) (depth : ℕ) :
    (t.symbolsAt m depth).value name = .error .stackOverflow := by
  induction depth with
  | zero => rfl
  | succ depth ih =>
    simp only [Telemetry.symbolsAt, Telemetry.lookUp, IndexMap.containsKey, h, Option.isSome_some,
      if_true, Telemetry.channelWith]
    exact evalOk_ident_of_deep ih

/-- A scalar that is its own scale is never answered. -/
theorem value_ownScale {t : Tune F} {c : ConstantDef F} {name : String} {p : PageState} {offset : ℕ}
    {raw : ℤ} (hc : t.df.constants.get? name = some c) (hcls : c.cls = .scalar)
    (hl : t.located c = some (p, offset)) (hraw : readRaw p.data offset c.ty = some raw)
    (hscale : c.scale = .expr (.ident name)) (depth : ℕ) :
    (t.symbolsAt m depth).value name = .error .stackOverflow := by
  have hc' : t.constant name = some c := hc
  induction depth with
  | zero => rfl
  | succ depth ih =>
    have heval : evalOk (c.scale.eval m (t.symbolsAt m depth)) = .error .stackOverflow := by
      rw [hscale, NumOrExpr.eval, Expr.eval, ih]
      rfl
    simp only [Tune.symbolsAt_succ, Tune.lookUp, IndexMap.containsKey, hc, Option.isSome_some, if_true,
      Tune.constantValueWith, hc', hl, hcls, hraw, Tune.scaled, heval]
    rfl

/-- The name, and whether the field is it. -/
def NumOrExpr.isName (name : String) : NumOrExpr F → Bool
  | .num _ => false
  | .expr e => RustyTune.isName name e

/-- The name, and whether the channel is derived from it alone. -/
def OutputChannel.isDerived (name : String) : OutputChannel F → Bool
  | .derived e _ => RustyTune.isName name e
  | _ => false

/-- **There are definitions that no depth suffices for**, through the tune and through the
telemetry. -/
theorem parsed_not_resolves :
    (¬ ∀ (m : Machine) (src : List Char) (df : IniDef XRat), (parse src).run = .ok (.ok df) →
      ∀ t : Tune XRat, t.df = df → t.Resolves m) ∧
    ¬ ∀ (m : Machine) (src : List Char) (df : IniDef XRat), (parse src).run = .ok (.ok df) →
      ∀ block, (Telemetry.new df block).Resolves m := by
  constructor
  · intro h
    obtain ⟨df, hdf, hlook⟩ : ∃ df : IniDef XRat, (parse ownScale).run = .ok (.ok df) ∧
        (df.header.pageSizes == [4] && (df.constants.get? "idle").any fun c =>
          decide (c.cls = .scalar ∧ c.ty = .u08 ∧ Tune.location c = some (0, 0)) &&
            NumOrExpr.isName "idle" c.scale) = true := exists_parsed (by decide +kernel)
    rw [Bool.and_eq_true, beq_iff_eq, Option.any_eq_true] at hlook
    obtain ⟨hsizes, c, hc, hfields⟩ := hlook
    rw [Bool.and_eq_true, decide_eq_true_eq] at hfields
    obtain ⟨⟨hcls, hty, hloc⟩, hname⟩ := hfields
    obtain ⟨bound, hbound⟩ := h ⟨.debug, 8⟩ ownScale df hdf (Tune.new df) rfl
    have hpage : (Tune.new df).page 0 = some ⟨[0, 0, 0, 0], [0, 0, 0, 0], [0, 0, 0, 0]⟩ := by
      simp only [Tune.page, Tune.new, hsizes]
      rfl
    have hl := Tune.located_eq_some.mpr ⟨0, hloc, hpage⟩
    have hscale : c.scale = .expr (.ident "idle") := by
      cases hs : c.scale with
      | num n => simp [hs, NumOrExpr.isName] at hname
      | expr e =>
        rw [hs] at hname
        rw [eq_ident_of_isName hname]
    have hraw : readRaw [0, 0, 0, 0] 0 c.ty = some 0 := by
      rw [hty]
      rfl
    exact (hbound bound le_rfl).value "idle" (value_ownScale hc hcls hl hraw hscale bound)
  · intro h
    obtain ⟨df, hdf, hlook⟩ : ∃ df : IniDef XRat, (parse ownChannel).run = .ok (.ok df) ∧
        (df.outputChannels.get? "load").any (OutputChannel.isDerived "load") = true := exists_parsed (by decide +kernel)
    obtain ⟨ch, hch, hname⟩ := (Option.any_eq_true _ _).mp hlook
    obtain ⟨bound, hbound⟩ := h ⟨.debug, 8⟩ ownChannel df hdf []
    cases ch with
    | scalar _ _ _ _ _ => cases hname
    | bits _ _ _ _ => cases hname
    | derived e units =>
      rw [eq_ident_of_isName hname] at hch
      exact (hbound bound le_rfl).value "load" (value_ownChannel hch bound)

end RustyTune
