import RustyTune.Lib.InPlace
import RustyTune.Server.Handlers
import RustyTune.TuneModel.Grid
import RustyTune.TuneModel.Puts

/-!
# Edits in a batch

The requests that edit several cells of a table or several points of a curve make their edits in the
tune itself, one after the other.

* `Batch`: these requests; `Batch.steps`: their edits. **`performEdit_of_steps`**.
* `Wanted`: what an edit asks for. `Takes`, `Rejects`: the tune takes it over as a raw value, or
  rejects it (`Serves`).
* **`batch_all_or_nothing_iff`**: a batch that is answered with an error leaves the local data exactly
  when the edits before the first rejected one put there what stood there. **`half_a_batch`**: they
  need not.
-/

namespace RustyTune.Server

open TsIni TuneModel EcuProto Exec Update

variable {F : Type}

/-- A request that makes several edits. -/
inductive Batch (F : Type)
  | cells (id : String) (edits : List (CellEdit F))
  | points (id : String) (edits : List (PointEdit F))

/-! ## What the edits ask for -/

/-- What an edit asks for. -/
inductive Wanted (F : Type)
  | element (name : String) (index : ℕ) (value : F)
  /-- A row, a column, an axis or a table that there is not. -/
  | nothing
  /-- A cell so far outside that the index its error names overflows. -/
  | overflow

def CellEdit.wanted (m : Machine) (t : Tune F) (id : String) (cell : CellEdit F) : Wanted F :=
  match t.tableDef id with
  | none => .nothing
  | some table =>
    match t.tableDims table with
    | none => .nothing
    | some (nx, ny) =>
      if cell.row < ny ∧ cell.col < nx then
        .element table.zBins (cell.row * nx + cell.col) cell.value
      else if m.build = .debug ∧ 2 ^ 64 ≤ cell.row * nx + cell.col then .overflow
      else .nothing

def PointEdit.wanted (xBin yBin : String) (p : PointEdit F) : Wanted F :=
  if p.axis = "x" then .element xBin p.index p.value
  else if p.axis = "y" then .element yBin p.index p.value
  else .nothing

/-- What the edits of a batch ask for, in order; nothing where the curve is not known or has no y
bins. -/
def Batch.wanted (m : Machine) (df : IniDef F) (t : Tune F) : Batch F → Option (List (Wanted F))
  | .cells id edits => some (edits.map (CellEdit.wanted m t id))
  | .points id edits =>
    (df.curves.get? id).bind fun curve => curve.yBins.head?.map fun yBin =>
      edits.map (PointEdit.wanted curve.xBins.1 yBin)

variable [F64 F]

/-- The tune takes the edit over as the raw value. -/
def Takes (m : Machine) (t : Tune F) : Wanted F → Put → Prop
  | .element name index value, p => ∃ c base, t.constant name = some c ∧ c.cls = .array ∧
      index < c.elementCount ∧ Tune.location c = some (p.pageIdx, base) ∧
      p.offset = base + index * c.ty.size ∧ p.ty = c.ty ∧ (∃ page, t.page p.pageIdx = some page) ∧
      (t.encodeImpl m c value true).run = .ok (.ok p.raw)
  | .nothing, _ | .overflow, _ => False

/-- The tune rejects the edit: there is no such element, it has no place, or its scale or translate does
not evaluate. -/
def Rejects (m : Machine) (t : Tune F) : Wanted F → Prop
  | .element name index _ => ∀ c, t.constant name = some c → c.cls = .array →
      index < c.elementCount → Tune.location c ≠ none → ∃ e, (t.coding m c).run = .ok (.error e)
  | .nothing => True
  | .overflow => False

/-- The tune takes the edits over one after the other, as the raw values. -/
def TakesAll (m : Machine) : Tune F → List (Wanted F) → List Put → Prop
  | _, [], [] => True
  | t, a :: wanted, p :: puts => Takes m t a p ∧ TakesAll m (t.put [p]) wanted puts
  | _, _, _ => False

/-- **The batch does no harm**: if the client has the lock, the tune is loaded and the request gets to its
edits, then those before the first rejected one put in every byte, the last of them, what stood there. -/
def Batch.Harmless (m : Machine) (a : App F) (client : String) (b : Batch F) : Prop :=
  (a.writer = none ∨ a.writer = some client) → a.tune.loaded = true →
    ∀ before rejected after puts, b.wanted m a.df a.tune = some (before ++ rejected :: after) →
      TakesAll m a.tune before puts → Rejects m (a.tune.put puts) rejected →
        ∀ j i p, a.tune.lastPut puts j i = some p →
          a.tune.byte j i = (rawBytes p.ty p.raw)[i - p.offset]?

/-! ## Edits as steps -/

namespace Batch

variable (m : Machine)

def toEdit : Batch F → TuneEdit F
  | .cells id edits => .tableCells id edits
  | .points id edits => .curvePoints id edits

/-- An attempt whose error is answered. -/
def answered (x : Attempt (Tune F)) : ExceptT ApiError Exec (Tune F) :=
  x.adapt fun e => ⟨.badRequest, e.display⟩

/-- One point: the axis is checked first. -/
def setPoint (xBin yBin : String) (p : PointEdit F) (t : Tune F) : ExceptT ApiError Exec (Tune F) :=
  if p.axis ≠ "x" ∧ p.axis ≠ "y" then
    throw ⟨.badRequest, s!"axis must be x or y, got `{p.axis}`"⟩
  else answered (t.setArrayElement m (if p.axis = "x" then xBin else yBin) p.index p.value)

/-- The edits of a batch, unless it is refused before the first. -/
def steps (df : IniDef F) : Batch F → Option (List (Tune F → ExceptT ApiError Exec (Tune F)))
  | .cells id edits =>
    some (edits.map fun cell t => answered (t.setTableCell m id cell.row cell.col cell.value))
  | .points id edits =>
    (df.curves.get? id).bind fun curve => curve.yBins.head?.map fun yBin =>
      edits.map fun p t => setPoint m curve.xBins.1 yBin p t

end Batch

variable {m : Machine} {df : IniDef F} {msq : Option (String × Msq.MsqFile F)} {t t' : Tune F}
  {r : Except ApiError Unit}

omit [F64 F] in
theorem answered_run (x : Attempt (Tune F)) : (Batch.answered x).run =
    Except.mapError (fun e => ⟨.badRequest, e.display⟩) <$> x.run := rfl

omit [F64 F] in
theorem answered_ok {x : Attempt (Tune F)} :
    (Batch.answered x).run = .ok (.ok t') ↔ x.run = .ok (.ok t') := by
  rw [answered_run]
  rcases x.run with a | (e | u)
  · exact iff_of_false nofun nofun
  · exact iff_of_false nofun nofun
  · exact ⟨fun h => by rw [Except.ok.inj (Except.ok.inj h)],
      fun h => by rw [Except.ok.inj (Except.ok.inj h)]; rfl⟩

omit [F64 F] in
theorem answered_error {x : Attempt (Tune F)} :
    (∃ e, (Batch.answered x).run = .ok (.error e)) ↔ ∃ e, x.run = .ok (.error e) := by
  rw [answered_run]
  rcases x.run with a | (e | u)
  · exact iff_of_false nofun nofun
  · exact iff_of_true ⟨_, rfl⟩ ⟨_, rfl⟩
  · exact iff_of_false nofun nofun

theorem setCells_eq (id : String) (cells : List (CellEdit F)) (t : Tune F) :
    setCells m id cells t = eachInPlace
      (cells.map fun cell t => Batch.answered (t.setTableCell m id cell.row cell.col cell.value)) t := by
  induction cells generalizing t with
  | nil => rfl
  | cons cell cells ih =>
    rw [setCells, editOutcome, List.map_cons, eachInPlace, answered_run]
    rcases (t.setTableCell m id cell.row cell.col cell.value).run with a | (e | t')
    · rfl
    · rfl
    · exact ih t'

theorem setPoints_eq (xBin yBin : String) (points : List (PointEdit F)) (t : Tune F) :
    setPoints m xBin yBin points t =
      eachInPlace (points.map fun p t => Batch.setPoint m xBin yBin p t) t := by
  induction points generalizing t with
  | nil => rfl
  | cons p points ih =>
    rw [setPoints, List.map_cons, eachInPlace, Batch.setPoint]
    by_cases haxis : p.axis ≠ "x" ∧ p.axis ≠ "y"
    · rw [if_pos haxis, if_pos haxis]
      rfl
    · rw [if_neg haxis, if_neg haxis, answered_run]
      simp only [editOutcome]
      rcases (t.setArrayElement m (if p.axis = "x" then xBin else yBin) p.index p.value).run with
        a | (e | t')
      · rfl
      · rfl
      · exact ih t'

/-- **The edits of a batch are made in place**, one after the other. -/
theorem performEdit_of_steps {b : Batch F} {steps : List (Tune F → ExceptT ApiError Exec (Tune F))}
    (h : b.steps m df = some steps) (hloaded : t.loaded = true) :
    performEdit m df msq t b.toEdit = eachInPlace steps t := by
  cases b with
  | cells id edits =>
    rw [← Option.some.inj h, ← setCells_eq]
    exact if_pos hloaded
  | points id edits =>
    simp only [Batch.steps] at h
    simp only [Batch.toEdit, performEdit]
    cases hc : df.curves.get? id with
    | none => simp [hc] at h
    | some curve =>
      cases hy : curve.yBins with
      | nil => simp [hc, hy] at h
      | cons yBin yBins =>
        simp only [hc, hy, Option.bind_some, List.head?_cons, Option.map_some, Option.some.injEq] at h
        simp only [hy]
        rw [← h, ← setPoints_eq]
        exact if_pos hloaded

/-- A batch that does not get to its edits is refused, and one for a tune that is not loaded. -/
theorem performEdit_refused {b : Batch F} (h : b.steps m df = none ∨ t.loaded = false) :
    ∃ e, performEdit m df msq t b.toEdit = .ok (.error e, t) := by
  have hunloaded : ∀ {body}, t.loaded = false → ∃ e, whenLoaded t body = .ok (.error e, t) :=
    fun hl => ⟨_, if_neg (by rw [hl]; exact Bool.false_ne_true)⟩
  cases b with
  | cells id edits =>
    rcases h with h | h
    · exact nomatch h
    · exact hunloaded h
  | points id edits =>
    simp only [Batch.steps] at h
    simp only [Batch.toEdit, performEdit]
    cases hc : df.curves.get? id with
    | none => exact ⟨_, rfl⟩
    | some curve =>
      cases hy : curve.yBins with
      | nil =>
        simp only [hy]
        exact ⟨_, rfl⟩
      | cons yBin yBins =>
        simp only [hy]
        rcases h with h | h
        · simp [hc, hy] at h
        · exact hunloaded h

/-! ## Steps and what they ask for -/

/-- The step does what is asked for, in every tune of the definition. -/
structure Serves (m : Machine) (df : IniDef F) (step : Tune F → ExceptT ApiError Exec (Tune F))
    (a : Wanted F) : Prop where
  takes : ∀ t t' : Tune F, t.df = df →
    ((step t).run = .ok (.ok t') ↔ ∃ p, Takes m t a p ∧ t' = t.put [p])
  rejects : ∀ t : Tune F, t.df = df → ((∃ e, (step t).run = .ok (.error e)) ↔ Rejects m t a)

theorem serves_nothing {step : Tune F → ExceptT ApiError Exec (Tune F)}
    (h : ∀ t : Tune F, t.df = df → ∃ e, (step t).run = .ok (.error e)) : Serves m df step .nothing where
  takes t t' ht := by
    obtain ⟨e, he⟩ := h t ht
    refine iff_of_false (fun h' => ?_) fun ⟨_, hno, _⟩ => hno
    exact nomatch Except.ok.inj (he.symm.trans h')
  rejects t ht := iff_of_true (h t ht) trivial

/-- **An element is set**: it is there, it has a place, and its value encodes. -/
theorem serves_setArrayElement (df : IniDef F) (name : String) (index : ℕ) (value : F) :
    Serves m df (fun t => Batch.answered (t.setArrayElement m name index value))
      (.element name index value) := by
  have hcell : ∀ t : Tune F, t.setArrayElement m name index value =
      t.setCell m (.element name index) value true := fun _ => rfl
  -- an element with its place
  have hstands : ∀ (t : Tune F) (c : ConstantDef F) (pageIdx base : ℕ), t.constant name = some c →
      c.cls = .array → index < c.elementCount → Tune.location c = some (pageIdx, base) →
      t.Stands (.element name index) c pageIdx (base + index * c.ty.size) :=
    fun _ _ _ base hc hcls hi hloc => ⟨hc, ⟨hcls, hi⟩, base, hloc, rfl⟩
  -- no such element
  have hnone : ∀ t : Tune F, (∀ c, t.constant name = some c → c.cls = .array →
      index < c.elementCount → Tune.location c = none) →
      ∃ e, (t.setArrayElement m name index value).run = .ok (.error e) := by
    intro t h
    rw [Tune.setArrayElement, Tune.setArrayElementImpl]
    cases hc : t.constant name with
    | none => exact ⟨_, rfl⟩
    | some c =>
      rw [orError, pure_bind]
      by_cases hcls : c.cls = .array
      · rw [if_neg (not_not.mpr hcls)]
        by_cases hi : c.elementCount ≤ index
        · rw [if_pos hi]
          exact ⟨_, rfl⟩
        · rw [if_neg hi, h c hc hcls (Nat.not_le.mp hi)]
          exact ⟨_, rfl⟩
      · rw [if_pos hcls]
        exact ⟨_, rfl⟩
  refine ⟨fun t t' _ => ?_, fun t _ => ?_⟩
  · rw [answered_ok]
    constructor
    · intro h
      by_cases hno : ∀ c, t.constant name = some c → c.cls = .array → index < c.elementCount →
          Tune.location c = none
      · obtain ⟨e, he⟩ := hnone t hno
        cases Except.ok.inj (he.symm.trans h)
      · push Not at hno
        obtain ⟨c, hc, hcls, hi, hloc⟩ := hno
        obtain ⟨⟨pageIdx, base⟩, hloc⟩ := Option.ne_none_iff_exists'.mp hloc
        rw [hcell, Tune.setCell_ok (hstands t c pageIdx base hc hcls hi hloc)] at h
        obtain ⟨raw, page, hraw, hpage, rfl⟩ := h
        exact ⟨⟨pageIdx, base + index * c.ty.size, c.ty, raw⟩,
          ⟨c, base, hc, hcls, hi, hloc, rfl, rfl, ⟨page, hpage⟩, hraw⟩, rfl⟩
    · rintro ⟨⟨pageIdx, offset, ty, raw⟩, ⟨c, base, hc, hcls, hi, hloc, rfl, rfl, ⟨page, hpage⟩, hraw⟩, rfl⟩
      rw [hcell, Tune.setCell_ok (hstands t c pageIdx base hc hcls hi hloc)]
      exact ⟨raw, page, hraw, hpage, rfl⟩
  · rw [answered_error]
    constructor
    · rintro ⟨e, h⟩ c hc hcls hi hloc
      obtain ⟨⟨pageIdx, base⟩, hloc⟩ := Option.ne_none_iff_exists'.mp hloc
      rw [hcell, Tune.setCell_error (hstands t c pageIdx base hc hcls hi hloc)] at h
      exact ⟨e, h⟩
    · intro h
      by_cases hno : ∀ c, t.constant name = some c → c.cls = .array → index < c.elementCount →
          Tune.location c = none
      · exact hnone t hno
      · push Not at hno
        obtain ⟨c, hc, hcls, hi, hloc⟩ := hno
        obtain ⟨e, he⟩ := h c hc hcls hi hloc
        obtain ⟨⟨pageIdx, base⟩, hloc⟩ := Option.ne_none_iff_exists'.mp hloc
        exact ⟨e, (Tune.setCell_error (hstands t c pageIdx base hc hcls hi hloc)).mpr he⟩

/-- **A cell is set**: as the element of its row and column, if there is one. -/
theorem serves_setTableCell (t₀ : Tune F) (id : String) (cell : CellEdit F) :
    Serves m t₀.df (fun t => Batch.answered (t.setTableCell m id cell.row cell.col cell.value))
      (cell.wanted m t₀ id) := by
  have hdef : ∀ t : Tune F, t.df = t₀.df → t.tableDef id = t₀.tableDef id := fun t ht => by
    rw [Tune.tableDef, Tune.tableDef, ht]
  have hdims : ∀ (t : Tune F) (table : TableDef F), t.df = t₀.df →
      t.tableDims table = t₀.tableDims table := fun t table ht => by
    rw [Tune.tableDims, Tune.tableDims, Tune.constant, Tune.constant, ht]
  rw [CellEdit.wanted]
  split
  next htable =>
    refine serves_nothing fun t ht => answered_error.mpr ⟨.unknownTable id, ?_⟩
    rw [Tune.setTableCell, hdef t ht, htable]
    rfl
  next table htable =>
    split
    next hno =>
      refine serves_nothing fun t ht => answered_error.mpr ⟨.unknownTable id, ?_⟩
      rw [Tune.setTableCell, hdef t ht, htable, orError, pure_bind, hdims t table ht, hno]
      rfl
    next nx ny hsome =>
      split_ifs with hin hover
      · have hcell : ∀ t : Tune F, t.df = t₀.df →
            t.setTableCell m id cell.row cell.col cell.value =
              t.setArrayElement m table.zBins (cell.row * nx + cell.col) cell.value := fun t ht =>
          Tune.setTableCell_inside ((hdef t ht).trans htable) ((hdims t table ht).trans hsome) hin.1 hin.2
        have hserves := serves_setArrayElement (m := m) t₀.df table.zBins (cell.row * nx + cell.col)
          cell.value
        refine ⟨fun t t' ht => ?_, fun t ht => ?_⟩
        · rw [hcell t ht]
          exact hserves.takes t t' ht
        · rw [hcell t ht]
          exact hserves.rejects t ht
      · -- neither taken over nor rejected
        have hno : ¬ ∃ k, Tune.namedIndex m nx cell.row cell.col = .ok k := fun hk => by
          rcases (Tune.namedIndex_total_iff m nx cell.row cell.col).mp hk with hrelease | hlt
          · cases hover.1.symm.trans hrelease
          · omega
        have hrun : ∀ (t : Tune F), t.df = t₀.df → ∀ x,
            ¬ (t.setTableCell m id cell.row cell.col cell.value).run = .ok x := fun t ht x hx => by
          rw [Tune.setTableCell_outside ((hdef t ht).trans htable) ((hdims t table ht).trans hsome)
            (by omega), bind_eq_ok] at hx
          exact hno ⟨hx.choose, hx.choose_spec.1⟩
        refine ⟨fun t t' ht => iff_of_false ?_ (by rintro ⟨_, hno, _⟩; exact hno),
          fun t ht => iff_of_false ?_ fun h => h⟩
        · exact fun h => hrun t ht _ (answered_ok.mp h)
        · exact fun h => hrun t ht _ (answered_error.mp h).choose_spec
      · refine serves_nothing fun t ht => answered_error.mpr ?_
        obtain ⟨k, hk⟩ := (Tune.namedIndex_total_iff m nx cell.row cell.col).mpr (by
          rw [not_and, Nat.not_le] at hover
          cases hbuild : m.build with
          | release => exact .inl rfl
          | debug => exact .inr (hover hbuild))
        refine ⟨.indexRange table.zBins k (nx * ny), ?_⟩
        rw [Tune.setTableCell_outside ((hdef t ht).trans htable) ((hdims t table ht).trans hsome)
          (by omega), hk]
        rfl

/-- **A point is set**: as an element of the bins of its axis. -/
theorem serves_setPoint (df : IniDef F) (xBin yBin : String) (p : PointEdit F) :
    Serves m df (fun t => Batch.setPoint m xBin yBin p t) (p.wanted xBin yBin) := by
  unfold Batch.setPoint PointEdit.wanted
  by_cases hx : p.axis = "x"
  · simp only [hx, ne_eq, not_true_eq_false, false_and, if_false, if_true]
    exact serves_setArrayElement df xBin p.index p.value
  · by_cases hy : p.axis = "y"
    · have hyx : ¬ "y" = "x" := by decide
      simp only [hy, hyx, ne_eq, not_true_eq_false, and_false, if_false, if_true]
      exact serves_setArrayElement df yBin p.index p.value
    · simp only [hx, hy, ne_eq, not_false_eq_true, and_self, if_false, if_true]
      exact serves_nothing fun t _ => ⟨_, rfl⟩

/-- The steps of a batch do what its edits ask for. -/
theorem serves_steps (m : Machine) (df : IniDef F) (t : Tune F) (b : Batch F) :
    Option.Rel (List.Forall₂ (Serves m t.df)) (b.steps m df) (b.wanted m df t) := by
  cases b with
  | cells id edits =>
    refine .some (List.forall₂_map_left_iff.mpr (List.forall₂_map_right_iff.mpr ?_))
    exact List.forall₂_same.mpr fun cell _ => serves_setTableCell t id cell
  | points id edits =>
    rw [Batch.steps, Batch.wanted]
    cases df.curves.get? id with
    | none => exact .none
    | some curve =>
      rw [Option.bind_some, Option.bind_some]
      cases curve.yBins.head? with
      | none => exact .none
      | some yBin =>
        refine .some (List.forall₂_map_left_iff.mpr (List.forall₂_map_right_iff.mpr ?_))
        exact List.forall₂_same.mpr fun p _ => serves_setPoint t.df _ _ p

/-! ## Runs of edits -/

variable {steps : List (Tune F → ExceptT ApiError Exec (Tune F))} {wanted : List (Wanted F)}

/-- **All steps of a batch are done** exactly when the tune takes all edits over. -/
theorem runAll_iff (h : List.Forall₂ (Serves m df) steps wanted) (ht : t.df = df) :
    (runAll steps t).run = .ok (.ok t') ↔ ∃ puts, TakesAll m t wanted puts ∧ t' = t.put puts := by
  induction h generalizing t with
  | nil =>
    constructor
    · intro h
      exact ⟨[], trivial, (Except.ok.inj (Except.ok.inj h)).symm⟩
    · rintro ⟨puts, hall, rfl⟩
      cases puts with
      | nil => rfl
      | cons p puts => exact hall.elim
  | @cons step a steps wanted hserves h ih =>
    rw [runAll_cons]
    constructor
    · rintro ⟨t₁, hstep, hrun⟩
      obtain ⟨p, hp, rfl⟩ := (hserves.takes t t₁ ht).mp hstep
      obtain ⟨puts, hall, rfl⟩ := (ih ((Tune.df_put t [p]).trans ht)).mp hrun
      exact ⟨p :: puts, ⟨hp, hall⟩, rfl⟩
    · rintro ⟨puts, hall, rfl⟩
      cases puts with
      | nil => exact hall.elim
      | cons p puts =>
        refine ⟨t.put [p], (hserves.takes t _ ht).mpr ⟨p, hall.1, rfl⟩, ?_⟩
        exact (ih ((Tune.df_put t [p]).trans ht)).mpr ⟨puts, hall.2, rfl⟩

/-- **A batch stops** exactly at an edit that the tune rejects after those before it. -/
theorem stopsAt_iff (h : List.Forall₂ (Serves m df) steps wanted) (ht : t.df = df) :
    (∃ e, StopsAt steps t e t') ↔ ∃ before rejected after puts, wanted = before ++ rejected :: after ∧
      TakesAll m t before puts ∧ Rejects m (t.put puts) rejected ∧ t' = t.put puts := by
  induction h generalizing t with
  | nil =>
    refine iff_of_false (fun ⟨e, before, step, after, h, _⟩ => ?_) fun ⟨before, a, after, puts, h, _⟩ => ?_
    · exact absurd h (by simp)
    · exact absurd h (by simp)
  | @cons step a steps wanted hserves h ih =>
    simp only [stopsAt_cons]
    constructor
    · rintro ⟨e, ⟨hstep, rfl⟩ | ⟨t₁, hstep, hstop⟩⟩
      · exact ⟨[], a, wanted, [], rfl, trivial, (hserves.rejects t' ht).mp ⟨e, hstep⟩, rfl⟩
      · obtain ⟨p, hp, rfl⟩ := (hserves.takes t t₁ ht).mp hstep
        obtain ⟨before, rejected, after, puts, rfl, hall, hrej, rfl⟩ :=
          (ih ((Tune.df_put t [p]).trans ht)).mp ⟨e, hstop⟩
        exact ⟨a :: before, rejected, after, p :: puts, rfl, ⟨hp, hall⟩, hrej, rfl⟩
    · rintro ⟨before, rejected, after, puts, heq, hall, hrej, rfl⟩
      cases before with
      | nil =>
        obtain ⟨rfl, rfl⟩ := List.cons.inj heq
        cases puts with
        | nil =>
          obtain ⟨e, he⟩ := (hserves.rejects t ht).mpr hrej
          exact ⟨e, .inl ⟨he, rfl⟩⟩
        | cons p puts => exact hall.elim
      | cons b before =>
        obtain ⟨rfl, rfl⟩ := List.cons.inj heq
        cases puts with
        | nil => exact hall.elim
        | cons p puts =>
          obtain ⟨e, hstop⟩ := (ih ((Tune.df_put t [p]).trans ht)).mpr
            ⟨before, rejected, after, puts, rfl, hall.2, hrej, rfl⟩
          exact ⟨e, .inr ⟨t.put [p], (hserves.takes t _ ht).mpr ⟨p, hall.1, rfl⟩, hstop⟩⟩

/-! ## All or nothing -/

omit [F64 F] in
/-- The lock is given to whoever has it, and to anyone when it is free. -/
theorem acquireWriter_isOk {writer : Option String} {client : String} :
    (∃ w, acquireWriter writer client = .ok w) ↔ writer = none ∨ writer = some client := by
  unfold acquireWriter
  cases writer with
  | none => exact iff_of_true ⟨_, rfl⟩ (.inl rfl)
  | some current =>
    dsimp only
    split_ifs with h
    · exact iff_of_true ⟨_, rfl⟩ (.inr (congrArg some h))
    · refine iff_of_false nofun fun h' => ?_
      rcases h' with h' | h'
      · exact nomatch h'
      · exact h (Option.some.inj h')

/-- **A batch is all or nothing exactly when the edits before the first rejected one put there what stood
there**; and in one that is answered ok the tune has taken all edits over, in order. -/
theorem batch_all_or_nothing_iff (m : Machine) (a : App F) (client : String) (b : Batch F) :
    (∀ r a', a.edit m client b.toEdit = (.ok r, a') →
      (∀ e, r = .error e → a'.tune.data = a.tune.data) ∧
      (r = .ok () → ∃ wanted puts, b.wanted m a.df a.tune = some wanted ∧
        TakesAll m a.tune wanted puts ∧ a'.tune = a.tune.put puts)) ↔ b.Harmless m a client := by
  have hserves := serves_steps m a.df a.tune b
  constructor
  · intro h hlock hloaded before rejected after puts hwanted hall hrej
    obtain ⟨writer, hwriter⟩ := acquireWriter_isOk.mpr hlock
    rw [hwanted] at hserves
    generalize hsteps : b.steps m a.df = steps? at hserves
    obtain ⟨hserves⟩ := hserves
    obtain ⟨e, hstop⟩ := (stopsAt_iff hserves rfl).mpr
      ⟨before, rejected, after, puts, rfl, hall, hrej, rfl⟩
    have hedit : a.edit m client b.toEdit =
        (.ok (.error e), { a with writer, tune := a.tune.put puts }) := by
      simp only [App.edit, App.locked, hwriter, performEdit_of_steps hsteps hloaded,
        eachInPlace_eq_ok.mpr (.inr ⟨e, rfl, hstop⟩)]
    exact (Tune.data_put_iff puts).mp ((h _ _ hedit).1 e rfl)
  · intro hharmless r a' hedit
    cases hwriter : acquireWriter a.writer client with
    | error e =>
      simp only [App.edit, App.locked, hwriter, Prod.mk.injEq, Except.ok.injEq] at hedit
      obtain ⟨rfl, rfl⟩ := hedit
      exact ⟨fun _ _ => rfl, fun h => nomatch h⟩
    | ok writer =>
      simp only [App.edit, App.locked, hwriter] at hedit
      by_cases hrefused : b.steps m a.df = none ∨ a.tune.loaded = false
      · obtain ⟨e, he⟩ : ∃ e, performEdit m a.df a.msq a.tune b.toEdit = .ok (.error e, a.tune) :=
          performEdit_refused hrefused
        simp only [he, Prod.mk.injEq, Except.ok.injEq] at hedit
        obtain ⟨rfl, rfl⟩ := hedit
        exact ⟨fun _ _ => rfl, fun h => nomatch h⟩
      · rw [not_or, Bool.not_eq_false] at hrefused
        obtain ⟨hsome, hloaded⟩ := hrefused
        obtain ⟨steps, hsteps⟩ := Option.ne_none_iff_exists'.mp hsome
        rw [hsteps] at hserves
        generalize hwanted : b.wanted m a.df a.tune = wanted? at hserves
        obtain ⟨hserves⟩ := hserves
        rw [performEdit_of_steps hsteps hloaded] at hedit
        cases heach : eachInPlace steps a.tune with
        | error abort => simp [heach] at hedit
        | ok outcome =>
          simp only [heach, Prod.mk.injEq, Except.ok.injEq] at hedit
          obtain ⟨rfl, rfl⟩ := hedit
          rcases eachInPlace_eq_ok.mp heach with ⟨hr, hrun⟩ | ⟨e, hr, hstop⟩
          · obtain ⟨puts, hall, hput⟩ := (runAll_iff hserves rfl).mp hrun
            refine ⟨fun e he => ?_, fun _ => ⟨_, puts, rfl, hall, hput⟩⟩
            exact nomatch hr.symm.trans he
          · refine ⟨fun _ _ => ?_, fun h => ?_⟩
            · obtain ⟨before, rejected, after, puts, rfl, hall, hrej, hput⟩ :=
                (stopsAt_iff hserves rfl).mp ⟨e, hstop⟩
              rw [hput]
              refine (Tune.data_put_iff puts).mpr ?_
              exact hharmless (acquireWriter_isOk.mp ⟨writer, hwriter⟩) hloaded before rejected after
                puts hwanted hall hrej
            · exact nomatch hr.symm.trans h

/-- A server with a loaded table. -/
def tuned : App XRat where
  df := ve.df
  status := {}
  tune := ve.setLoaded true
  writer := none
  msq := none
  comms := none

/-- Two cells, the second outside the table. -/
def halfABatch : Batch XRat := .cells "veTable1Tbl" [⟨0, 0, .fin 50⟩, ⟨3, 0, .fin 50⟩]

/-- **Half of a batch may be made.** The second cell is outside the table; the first stays written. -/
theorem half_a_batch : ¬ ∀ (m : Machine) (a a' : App XRat) (client : String) (b : Batch XRat)
    (r : Except ApiError Unit), a.edit m client b.toEdit = (.ok r, a') →
    (∀ e, r = .error e → a'.tune.data = a.tune.data) ∧
    (r = .ok () → ∃ wanted puts, b.wanted m a.df a.tune = some wanted ∧
      TakesAll m a.tune wanted puts ∧ a'.tune = a.tune.put puts) := by
  intro h
  have hrun : ((tuned.edit ⟨.debug, 8⟩ "A" halfABatch.toEdit).1.map (·.isOk),
      (tuned.edit ⟨.debug, 8⟩ "A" halfABatch.toEdit).2.tune.data) =
        (.ok false, [[0, 0, 0, 0, 0, 50, 0, 0, 0, 0, 0]]) := by decide +kernel
  rcases hedit : tuned.edit ⟨.debug, 8⟩ "A" halfABatch.toEdit with ⟨reply, a'⟩
  rw [hedit] at hrun
  obtain ⟨hreply, hdata⟩ := Prod.mk.inj hrun
  rcases reply with abort | (e | u)
  · exact nomatch hreply
  · have hsame := (h _ _ a' _ _ _ hedit).1 e rfl
    rw [hdata] at hsame
    exact absurd hsame (by decide)
  · exact nomatch Except.ok.inj hreply

end RustyTune.Server
