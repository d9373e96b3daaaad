import RustyTune.Lib.XRat
import RustyTune.TuneModel.Coding
import RustyTune.TuneModel.Msq.Diff

/-!
# What a comparison lists

Every constant of the file should be listed as different, unknown or unresolved, or else be equal to
the tune's at the level of raw values.

* `RawEqual`: the value of an entry encodes to what the tune has.
* `Group`, `InGroup`: the three lists of a comparison, and the entries that are raw-equal.
* `Comparable`: an array lies in its page and its scale and translate evaluate; a string lies in its
  page.
* **`listedOnce_iff`**: every entry is in exactly one group exactly when every entry is comparable;
  an array or a string that is not is left out of all of them (`dropped_not_listed`).
-/

namespace RustyTune.TuneModel.Msq

open TsIni Exec

variable {F : Type}

/-! ## The lists -/

/-- Where a constant of the file belongs. -/
inductive Group
  | entries
  | onlyInFile
  | unresolved
  | rawEqual
  deriving DecidableEq, Repr

/-- The list of a comparison that stands for the group has the name. -/
def MsqDiff.Lists (d : MsqDiff F) (name : String) : Group → Prop
  | .entries => name ∈ d.entries.map DiffEntry.name
  | .onlyInFile => name ∈ d.onlyInFile
  | .unresolved => name ∈ d.unresolved.map Prod.fst
  | .rawEqual => False

/-- The list that a verdict puts an entry in. -/
def Verdict.group : Verdict F → Option Group
  | .entry _ _ => some .entries
  | .onlyInFile => some .onlyInFile
  | .unresolved _ => some .unresolved
  | .unlisted => none

theorem lists_push (out : MsqDiff F) (name name' : String) (v : Verdict F) (g : Group) :
    (out.push name' v).Lists name g ↔ out.Lists name g ∨ name = name' ∧ v.group = some g := by
  cases v <;> cases g <;> simp [MsqDiff.push, MsqDiff.Lists, Verdict.group]

theorem lists_empty (name : String) (g : Group) : ¬ (MsqDiff.empty : MsqDiff F).Lists name g := by
  cases g <;> simp [MsqDiff.empty, MsqDiff.Lists]

variable [F64 F] {m : Machine} {t : Tune F}

theorem exists_compare {entries : List (String × MsqValue F)} {out d : MsqDiff F}
    (h : entries.foldlM (diffStep m t) out = .ok d) {e : String × MsqValue F} (he : e ∈ entries) :
    ∃ v, compare m t e.1 e.2 = .ok v := by
  induction entries generalizing out with
  | nil => exact nomatch he
  | cons e' es ih =>
    rw [List.foldlM_cons, bind_eq_ok] at h
    obtain ⟨out', hstep, h⟩ := h
    rw [diffStep, bind_eq_ok] at hstep
    obtain ⟨v, hv, -⟩ := hstep
    rcases List.mem_cons.mp he with rfl | he
    · exact ⟨v, hv⟩
    · exact ih h he

/-- **A list has the names of the entries whose comparison puts them there.** -/
theorem lists_foldlM {entries : List (String × MsqValue F)} {out d : MsqDiff F}
    (h : entries.foldlM (diffStep m t) out = .ok d) (name : String) (g : Group) :
    d.Lists name g ↔ out.Lists name g ∨
      ∃ e ∈ entries, ∃ v, name = e.1 ∧ compare m t e.1 e.2 = .ok v ∧ v.group = some g := by
  induction entries generalizing out with
  | nil =>
    rw [List.foldlM_nil, pure_eq_ok] at h
    simp [h]
  | cons e es ih =>
    rw [List.foldlM_cons, bind_eq_ok] at h
    obtain ⟨out', hstep, h⟩ := h
    rw [diffStep, bind_eq_ok] at hstep
    obtain ⟨v, hv, hout⟩ := hstep
    rw [pure_eq_ok] at hout
    rw [ih h, ← hout, lists_push, or_assoc]
    refine or_congr Iff.rfl ⟨?_, ?_⟩
    · rintro (⟨rfl, hg⟩ | ⟨e', he', h'⟩)
      · exact ⟨e, List.mem_cons_self, v, rfl, hv, hg⟩
      · exact ⟨e', List.mem_cons_of_mem _ he', h'⟩
    · rintro ⟨e', he', v', rfl, hv', hg⟩
      rcases List.mem_cons.mp he' with rfl | he'
      · rw [hv] at hv'
        exact Or.inl ⟨rfl, by rw [Except.ok.inj hv', hg]⟩
      · exact Or.inr ⟨e', he', v', rfl, hv', hg⟩

/-- A constant of the file is in the list its own comparison puts it in, and in no other. -/
theorem lists_diff {file : MsqFile F} {d : MsqDiff F} (h : diff m t file = .ok d)
    {e : String × MsqValue F} (he : e ∈ file.constants.entries) {v : Verdict F}
    (hv : compare m t e.1 e.2 = .ok v) (g : Group) : d.Lists e.1 g ↔ v.group = some g := by
  rw [lists_foldlM h, or_iff_right (lists_empty _ _)]
  constructor
  · rintro ⟨e', he', v', hname, hv', hg⟩
    have hvalue := Option.some.inj
      ((IndexMap.get?_eq_some.mpr (show (e.1, e.2) ∈ file.constants.entries from he)).symm.trans
        (IndexMap.get?_eq_some.mpr (show (e.1, e'.2) ∈ file.constants.entries by rw [hname]; exact he')))
    rw [← hname, ← hvalue, hv] at hv'
    rw [Except.ok.inj hv', hg]
  · intro hg
    exact ⟨e, he, v, rfl, hv, hg⟩

/-! ## Comparisons -/

section Compare

variable (m t)

/-- An element of the file encodes to what the tune has. -/
def ElementEqual (name : String) (i : ℕ) (v : F) : Prop :=
  ∃ raw, t.arrayRaw name i = some raw ∧ (t.encodeUser m name v).run = .ok (.ok raw)

/-- The value of an entry encodes to what the tune has. -/
def RawEqual (name : String) (value : MsqValue F) : Prop :=
  ∃ c, t.constant name = some c ∧
    match c.cls, value with
    | .scalar, .num v =>
      ∃ raw, t.constantRaw m name = .ok (some raw) ∧ (t.encodeUser m name v).run = .ok (.ok raw)
    | .bits, value =>
      ∃ raw, t.constantRaw m name = .ok (some raw) ∧ fileBitsIndex t name value = some raw
    | .array, .array values =>
      values.length = c.elementCount ∧ ∀ i v, values[i]? = some v → ElementEqual m t name i v
    | .string, .text text => t.constantValue m name = .ok (some (.str text))
    | _, _ => False

/-- The bytes of `count` values of the constant are on a page of the tune. -/
def InPage (c : ConstantDef F) (count : ℕ) : Prop :=
  ∃ p offset, t.located c = some (p, offset) ∧ offset + count * c.ty.size ≤ p.data.length

/-- Scale and translate of the constant evaluate, and the scale is not zero. -/
def Scaled (c : ConstantDef F) : Prop := ∃ s, (t.coding m c).run = .ok (.ok s)

/-- The elements of an array, or the text of a string, are on their page, and an array's scale and
translate evaluate; of other entries nothing is asked. -/
def Comparable (name : String) (value : MsqValue F) : Prop :=
  ∀ c, t.constant name = some c →
    match c.cls, value with
    | .array, .array values =>
      values.length = c.elementCount → values ≠ [] → InPage t c c.elementCount ∧ Scaled m t c
    | .string, .text _ => ∃ p offset len, t.located c = some (p, offset) ∧ c.stringLen = some len ∧
        offset + len.toNat ≤ p.data.length
    | _, _ => True

end Compare

variable {name : String} {c : ConstantDef F}

omit [F64 F] in
theorem arrayRaw_eq_some (hc : t.constant name = some c) {i : ℕ} {raw : ℤ} :
    t.arrayRaw name i = some raw ↔ ∃ p offset, t.located c = some (p, offset) ∧
      readRaw p.data (offset + i * c.ty.size) c.ty = some raw := by
  simp [Tune.arrayRaw, hc, Option.bind_eq_some_iff]

theorem encodeUser_ok (hc : t.constant name = some c) {v : F} {raw : ℤ} :
    (t.encodeUser m name v).run = .ok (.ok raw) ↔
      ∃ s, (t.coding m c).run = .ok (.ok s) ∧ quantise c s v = raw := by
  rw [Tune.encodeUser_of_constant hc, Tune.encode_ok]

/-- An element can be compared: it is on the page, and it can be encoded. -/
def ElementReadable (m : Machine) (t : Tune F) (name : String) (i : ℕ) (v : F) : Prop :=
  ∃ cur raw, t.arrayRaw name i = some cur ∧ (t.encodeUser m name v).run = .ok (.ok raw)

/-- **The element loop**: none at all if an element cannot be compared, else those that differ. -/
theorem changedFrom_cases : ∀ {values : List F} {i : ℕ} {changed out : List ℕ},
    changedFrom m t name i values changed = .ok out →
      (out = [] ∧ ∃ k v, values[k]? = some v ∧ ¬ ElementReadable m t name (i + k) v) ∨
      ((∀ k v, values[k]? = some v → ElementReadable m t name (i + k) v) ∧
        (out = [] ↔ changed = [] ∧ ∀ k v, values[k]? = some v → ElementEqual m t name (i + k) v))
  | [], i, changed, out, h => by
    rw [changedFrom, pure_eq_ok] at h
    exact Or.inr ⟨by simp, by simp [h]⟩
  | user :: values, i, changed, out, h => by
    rw [changedFrom, bind_eq_ok] at h
    obtain ⟨enc, henc, h⟩ := h
    split at h
    · rename_i cur raw hcur
      have hshift : ∀ k, i + 1 + k = i + (k + 1) := fun k => by omega
      have heq : ElementEqual m t name i user ↔ cur = raw := by
        simp only [ElementEqual, hcur, henc, Option.some.injEq, Except.ok.injEq]
        exact ⟨fun ⟨r, h1, h2⟩ => h1.trans h2.symm, fun h => ⟨cur, rfl, h.symm⟩⟩
      have hread : ElementReadable m t name i user := ⟨cur, raw, hcur, henc⟩
      rcases changedFrom_cases h with ⟨hout, k, v, hk, hno⟩ | ⟨hall, hiff⟩
      · exact Or.inl ⟨hout, k + 1, v, hk, by rwa [← hshift]⟩
      · refine Or.inr ⟨fun k v hk => ?_, ?_⟩
        · cases k with
          | zero =>
            rw [← Option.some.inj (show some user = some v from hk)]
            exact hread
          | succ k =>
            rw [← hshift]
            exact hall k v hk
        · rw [hiff]
          have hempty : (if cur ≠ raw then changed ++ [i] else changed) = [] ↔
              changed = [] ∧ cur = raw := by
            split_ifs with hne
            · simp [hne]
            · simp [not_not.mp hne]
          rw [hempty, and_assoc, ← heq]
          refine and_congr Iff.rfl ⟨fun ⟨h0, hs⟩ k v hk => ?_, fun hs => ⟨?_, fun k v hk => ?_⟩⟩
          · cases k with
            | zero =>
              rw [← Option.some.inj (show some user = some v from hk)]
              exact h0
            | succ k =>
              rw [← hshift]
              exact hs k v hk
          · exact hs 0 user rfl
          · rw [hshift]
            exact hs (k + 1) v hk
    · rename_i hno
      rw [pure_eq_ok] at h
      refine Or.inl ⟨h.symm, 0, user, rfl, ?_⟩
      rintro ⟨cur, raw, hcur, hraw⟩
      rw [henc] at hraw
      exact hno cur raw hcur (Except.ok.inj hraw)

/-- All elements can be compared when the array is on its page and scale and translate evaluate. -/
theorem elements_readable_iff (hc : t.constant name = some c) {values : List F}
    (hlen : values.length = c.elementCount) (hne : values ≠ []) :
    (∀ i v, values[i]? = some v → ElementReadable m t name i v) ↔
      InPage t c c.elementCount ∧ Scaled m t c := by
  have hpos : 0 < values.length := List.length_pos_iff.mpr hne
  constructor
  · intro hall
    obtain ⟨cur, raw, hcur, hraw⟩ := hall _ _ (List.getElem?_eq_getElem (Nat.sub_lt hpos Nat.one_pos))
    obtain ⟨p, offset, hl, hread⟩ := (arrayRaw_eq_some hc).mp hcur
    obtain ⟨s, hs, -⟩ := (encodeUser_ok hc).mp hraw
    have hin := (readRaw_eq_some.mp hread).1
    have hlast : (values.length - 1) * c.ty.size + c.ty.size = c.elementCount * c.ty.size := by
      rw [← Nat.succ_mul, ← hlen]
      congr 1
      omega
    exact ⟨⟨p, offset, hl, by rw [← hlast]; omega⟩, s, hs⟩
  · rintro ⟨⟨p, offset, hl, hin⟩, s, hs⟩ i v hi
    have hlt : i < values.length := (List.getElem?_eq_some_iff.mp hi).1
    have hend : (i + 1) * c.ty.size ≤ c.elementCount * c.ty.size :=
      Nat.mul_le_mul_right _ (by omega)
    rw [Nat.succ_mul] at hend
    exact ⟨_, _, (arrayRaw_eq_some hc).mpr ⟨p, offset, hl, readRaw_of_le (by omega)⟩,
      (encodeUser_ok hc).mpr ⟨s, hs, rfl⟩⟩

/-! ## Strings -/

/-- A string is what stands at its place, if it lies in its page. -/
theorem constantValue_string (hc : t.constant name = some c) (hcls : c.cls = .string) :
    t.constantValue m name = .ok ((t.located c).bind fun (p, offset) => c.stringLen.bind fun len =>
      (slice? p.data offset len.toNat).map fun text => .str (Tune.decodeText text)) := by
  simp only [Tune.constantValue, Tune.constantValueWith, hc]
  rcases t.located c with - | ⟨p, offset⟩
  · rfl
  · rcases hl : c.stringLen with - | len <;> simp [hcls]

theorem string_decodes_iff (hc : t.constant name = some c) (hcls : c.cls = .string) :
    (∃ s, t.constantValue m name = .ok (some (.str s))) ↔
      ∃ p offset len, t.located c = some (p, offset) ∧ c.stringLen = some len ∧
        offset + len.toNat ≤ p.data.length := by
  simp only [constantValue_string hc hcls, Except.ok.injEq, Option.bind_eq_some_iff,
    Option.map_eq_some_iff, slice?_eq_some, Prod.exists]
  constructor
  · rintro ⟨s, p, offset, hl, len, hlen, text, ⟨hin, -⟩, -⟩
    exact ⟨p, offset, len, hl, hlen, hin⟩
  · rintro ⟨p, offset, len, hl, hlen, hin⟩
    exact ⟨_, p, offset, hl, len, hlen, _, ⟨hin, rfl⟩, rfl⟩

/-! ## Verdicts -/

/-- A verdict that lists a comparable entry, or none and the entry is raw-equal if it is
comparable. -/
def Verdict.Right (m : Machine) (t : Tune F) (name : String) (value : MsqValue F) (v : Verdict F) :
    Prop :=
  (v.group ≠ none → ¬ RawEqual m t name value ∧ Comparable m t name value) ∧
    (v.group = none → (RawEqual m t name value ↔ Comparable m t name value))

theorem right_scalar (hc : t.constant name = some c) (hcls : c.cls = .scalar) {user : F}
    {v : Verdict F} (h : compare m t name (.num user) = .ok v) : v.Right m t name (.num user) := by
  have hcomp : Comparable m t name (.num user) := by
    intro c' hc'
    obtain rfl := Option.some.inj (hc.symm.trans hc')
    simp [hcls]
  have hraw : RawEqual m t name (.num user) ↔ ∃ raw, t.constantRaw m name = .ok (some raw) ∧
      (t.encodeUser m name user).run = .ok (.ok raw) := by
    simp [RawEqual, hc, hcls]
  simp only [compare, hc, hcls, bind_eq_ok] at h
  obtain ⟨cur, hcur, enc, henc, h⟩ := h
  simp only [Verdict.Right, hraw, hcomp, hcur, henc, Except.ok.injEq, and_true, iff_true]
  split at h
  · split_ifs at h with heq
    · rw [pure_eq_ok] at h
      simp [← h, heq, Verdict.group]
    · rw [bind_eq_ok] at h
      obtain ⟨value, -, h⟩ := h
      rw [pure_eq_ok] at h
      simpa [← h, Verdict.group] using fun h => heq h.symm
  · rename_i hno
    rw [pure_eq_ok] at h
    simpa [← h, Verdict.group] using fun raw => hno raw raw

theorem right_bits (hc : t.constant name = some c) (hcls : c.cls = .bits) {value : MsqValue F}
    {v : Verdict F} (h : compare m t name value = .ok v) : v.Right m t name value := by
  have hcomp : Comparable m t name value := by
    intro c' hc'
    obtain rfl := Option.some.inj (hc.symm.trans hc')
    simp [hcls]
  have hraw : RawEqual m t name value ↔ ∃ raw, t.constantRaw m name = .ok (some raw) ∧
      fileBitsIndex t name value = some raw := by
    simp [RawEqual, hc, hcls]
  simp only [compare, hc, hcls, bind_eq_ok] at h
  obtain ⟨cur, hcur, h⟩ := h
  simp only [Verdict.Right, hraw, hcomp, hcur, Except.ok.injEq, and_true, iff_true]
  split at h
  · rename_i idx hidx
    rw [hidx]
    split_ifs at h with heq
    · rw [pure_eq_ok] at h
      simp [← h, heq, Verdict.group]
    · rw [pure_eq_ok] at h
      simpa [← h, Verdict.group] using fun h => heq h.symm
  · rename_i hno
    rw [pure_eq_ok] at h
    simpa [← h, Verdict.group] using fun raw => hno raw raw

theorem right_array (hc : t.constant name = some c) (hcls : c.cls = .array) {values : List F}
    {v : Verdict F} (h : compare m t name (.array values) = .ok v) :
    v.Right m t name (.array values) := by
  have hcomp : Comparable m t name (.array values) ↔
      (values.length = c.elementCount → values ≠ [] → InPage t c c.elementCount ∧ Scaled m t c) := by
    simp [Comparable, hc, hcls]
  have hraw : RawEqual m t name (.array values) ↔ values.length = c.elementCount ∧
      ∀ i v, values[i]? = some v → ElementEqual m t name i v := by
    simp [RawEqual, hc, hcls]
  simp only [compare, hc, hcls] at h
  split_ifs at h with hlen
  · rw [pure_eq_ok] at h
    simp [Verdict.Right, hraw, hcomp, hlen, ← h, Verdict.group]
  · rw [ne_eq, not_not] at hlen
    rw [bind_eq_ok] at h
    obtain ⟨changed, hch, h⟩ := h
    have hcases := changedFrom_cases hch
    simp only [Nat.zero_add, true_and] at hcases
    by_cases hne : values = []
    · subst hne
      have hnil : changed = [] := (pure_eq_ok.mp hch).symm
      subst hnil
      rw [pure_eq_ok] at h
      simp [Verdict.Right, hraw, hcomp, hlen, ← h, Verdict.group]
    · have hiff := elements_readable_iff (m := m) hc hlen hne
      simp only [Verdict.Right, hraw, hcomp, hlen, hne, true_implies, true_and, ne_eq,
        not_false_eq_true]
      rcases hcases with ⟨rfl, k, user, hk, hno⟩ | ⟨hall, hout⟩
      · -- an element cannot be compared: nothing is listed, and the entry is not raw-equal
        rw [pure_eq_ok] at h
        have h1 : ¬ (InPage t c c.elementCount ∧ Scaled m t c) := fun hok =>
          hno (hiff.mpr hok k user hk)
        have h2 : ¬ ∀ i v, values[i]? = some v → ElementEqual m t name i v := fun hall =>
          let ⟨raw, hcur, henc⟩ := hall k user hk
          hno ⟨raw, raw, hcur, henc⟩
        simp [h1, h2, ← h, Verdict.group]
      · have h1 := hiff.mp hall
        cases changed with
        | nil =>
          rw [pure_eq_ok] at h
          simpa [h1, ← h, Verdict.group] using hout.mp rfl
        | cons i is =>
          rw [pure_eq_ok] at h
          have h2 : ¬ ∀ i v, values[i]? = some v → ElementEqual m t name i v := fun hall =>
            absurd (hout.mpr hall) (List.cons_ne_nil _ _)
          simp [h1, h2, ← h, Verdict.group]

theorem right_string (hc : t.constant name = some c) (hcls : c.cls = .string) {text : String}
    {v : Verdict F} (h : compare m t name (.text text) = .ok v) : v.Right m t name (.text text) := by
  have hcomp : Comparable m t name (.text text) ↔
      ∃ s, t.constantValue m name = .ok (some (.str s)) := by
    rw [string_decodes_iff hc hcls]
    simp [Comparable, hc, hcls]
  have hraw : RawEqual m t name (.text text) ↔
      t.constantValue m name = .ok (some (.str text)) := by
    simp [RawEqual, hc, hcls]
  simp only [compare, hc, hcls, bind_eq_ok] at h
  obtain ⟨value, hvalue, h⟩ := h
  simp only [Verdict.Right, hraw, hcomp, hvalue, Except.ok.injEq]
  split at h
  · rename_i current
    split_ifs at h with heq
    · rw [pure_eq_ok] at h
      simp [← h, heq, Verdict.group]
    · rw [pure_eq_ok] at h
      simp [← h, heq, Verdict.group]
  · rename_i hno
    rw [pure_eq_ok] at h
    have h1 : ∀ s, value ≠ some (.str s) := hno
    simp [← h, h1, Verdict.group]

/-- **The verdict on an entry.** -/
theorem compare_right {value : MsqValue F} {v : Verdict F} (h : compare m t name value = .ok v) :
    v.Right m t name value := by
  rcases hc : t.constant name with - | c
  · simp only [compare, hc, pure_eq_ok] at h
    simp [Verdict.Right, RawEqual, Comparable, hc, ← h, Verdict.group]
  · have hmismatch (h : (pure (.unresolved "value shape mismatch") : Exec (Verdict F)) = .ok v)
        (hno : ¬ RawEqual m t name value) (hcomp : Comparable m t name value) :
        v.Right m t name value := by
      rw [pure_eq_ok] at h
      simp [Verdict.Right, hno, hcomp, ← h, Verdict.group]
    cases hcls : c.cls with
    | bits => exact right_bits hc hcls h
    | scalar =>
      cases value with
      | num user => exact right_scalar hc hcls h
      | text _ | array _ =>
        exact hmismatch (by simpa [compare, hc, hcls] using h) (by simp [RawEqual, hc, hcls])
          (by simp [Comparable, hc, hcls])
    | array =>
      cases value with
      | array values => exact right_array hc hcls h
      | num _ | text _ =>
        exact hmismatch (by simpa [compare, hc, hcls] using h) (by simp [RawEqual, hc, hcls])
          (by simp [Comparable, hc, hcls])
    | string =>
      cases value with
      | text s => exact right_string hc hcls h
      | num _ | array _ =>
        exact hmismatch (by simpa [compare, hc, hcls] using h) (by simp [RawEqual, hc, hcls])
          (by simp [Comparable, hc, hcls])

/-! ## Listed as different -/

/-- A scalar is listed when both raw values are there and differ. -/
theorem listed_scalar (hc : t.constant name = some c) (hcls : c.cls = .scalar) {user : F}
    {v : Verdict F} (h : compare m t name (.num user) = .ok v) :
    v.group = some .entries ↔ ∃ cur raw, t.constantRaw m name = .ok (some cur) ∧
      (t.encodeUser m name user).run = .ok (.ok raw) ∧ cur ≠ raw := by
  simp only [compare, hc, hcls, bind_eq_ok] at h
  obtain ⟨cur, hcur, enc, henc, h⟩ := h
  simp only [hcur, henc, Except.ok.injEq]
  split at h
  · rename_i a b
    split_ifs at h with heq
    · rw [pure_eq_ok] at h
      simp [← h, heq, Verdict.group]
    · rw [bind_eq_ok] at h
      obtain ⟨value, -, h⟩ := h
      rw [pure_eq_ok] at h
      simp [← h, heq, Verdict.group]
  · rename_i hno
    rw [pure_eq_ok] at h
    simp only [← h, Verdict.group, Option.some.injEq, reduceCtorEq, false_iff]
    rintro ⟨a, b, ha, hb, -⟩
    exact hno a b ha hb

/-- A bit field is listed when both indices are there and differ. -/
theorem listed_bits (hc : t.constant name = some c) (hcls : c.cls = .bits) {value : MsqValue F}
    {v : Verdict F} (h : compare m t name value = .ok v) :
    v.group = some .entries ↔ ∃ cur idx, t.constantRaw m name = .ok (some cur) ∧
      fileBitsIndex t name value = some idx ∧ cur ≠ idx := by
  simp only [compare, hc, hcls, bind_eq_ok] at h
  obtain ⟨cur, hcur, h⟩ := h
  simp only [hcur, Except.ok.injEq]
  split at h
  · rename_i a idx hidx
    split_ifs at h with heq
    · rw [pure_eq_ok] at h
      simp [← h, heq, hidx, Verdict.group]
    · rw [pure_eq_ok] at h
      simp [← h, heq, hidx, Verdict.group]
  · rename_i hno
    rw [pure_eq_ok] at h
    simp only [← h, Verdict.group, Option.some.injEq, reduceCtorEq, false_iff]
    rintro ⟨a, b, ha, hb, -⟩
    exact hno a b ha hb

/-- An array is listed when all its elements can be compared and one differs. -/
theorem listed_array (hc : t.constant name = some c) (hcls : c.cls = .array) {values : List F}
    (hlen : values.length = c.elementCount) {v : Verdict F}
    (h : compare m t name (.array values) = .ok v) :
    v.group = some .entries ↔ (∀ i v, values[i]? = some v → ElementReadable m t name i v) ∧
      ∃ i v, values[i]? = some v ∧ ¬ ElementEqual m t name i v := by
  simp only [compare, hc, hcls, hlen, ne_eq, not_true_eq_false, if_false, bind_eq_ok] at h
  obtain ⟨changed, hch, h⟩ := h
  have hcases := changedFrom_cases hch
  simp only [Nat.zero_add, true_and] at hcases
  rcases hcases with ⟨rfl, k, user, hk, hno⟩ | ⟨hall, hout⟩
  · rw [pure_eq_ok] at h
    simp only [← h, Verdict.group, reduceCtorEq, false_iff]
    exact fun hall => hno (hall.1 k user hk)
  · cases changed with
    | nil =>
      rw [pure_eq_ok] at h
      simp only [← h, Verdict.group, reduceCtorEq, false_iff]
      rintro ⟨-, i, user, hi, hne⟩
      exact hne (hout.mp rfl i user hi)
    | cons i is =>
      rw [pure_eq_ok] at h
      simp only [← h, Verdict.group, true_iff]
      refine ⟨hall, ?_⟩
      by_contra hnone
      push Not at hnone
      exact absurd (hout.mpr hnone) (List.cons_ne_nil _ _)

/-- An entry whose value does not fit its constant is not listed as different. -/
theorem not_listed_mismatch (hc : t.constant name = some c) {value : MsqValue F}
    (hmis : (c.cls = .scalar ∧ ∀ v, value ≠ .num v) ∨
      (c.cls = .array ∧ ∀ values, value = .array values → values.length ≠ c.elementCount))
    {v : Verdict F} (h : compare m t name value = .ok v) : v.group ≠ some .entries := by
  rcases hmis with ⟨hcls, hv⟩ | ⟨hcls, hv⟩
  · cases value with
    | num v => exact absurd rfl (hv v)
    | text _ | array _ =>
      simp only [compare, hc, hcls, pure_eq_ok] at h
      simp [← h, Verdict.group]
  · cases value with
    | num _ | text _ =>
      simp only [compare, hc, hcls, pure_eq_ok] at h
      simp [← h, Verdict.group]
    | array values =>
      simp only [compare, hc, hcls, ne_eq, hv values rfl, not_false_eq_true, if_true,
        pure_eq_ok] at h
      simp [← h, Verdict.group]

/-- The constant of the file is in the group. -/
def InGroup (m : Machine) (t : Tune F) (d : MsqDiff F) (name : String) (value : MsqValue F)
    (g : Group) : Prop :=
  d.Lists name g ∨ g = .rawEqual ∧ RawEqual m t name value

/-- **Every constant of the file is in exactly one group exactly when every one is comparable.** -/
theorem listedOnce_iff (m : Machine) (t : Tune F) (file : MsqFile F) (d : MsqDiff F)
    (h : diff m t file = .ok d) :
    (∀ e ∈ file.constants.entries, ∃! g, InGroup m t d e.1 e.2 g) ↔
      ∀ e ∈ file.constants.entries, Comparable m t e.1 e.2 := by
  refine forall₂_congr fun e he => ?_
  obtain ⟨v, hv⟩ := exists_compare h he
  obtain ⟨hlisted, hnot⟩ := compare_right hv
  simp only [InGroup, lists_diff h he hv]
  cases hg : v.group with
  | some g =>
    obtain ⟨hne, hcomp⟩ := hlisted (by simp [hg])
    refine iff_of_true ⟨g, Or.inl rfl, ?_⟩ hcomp
    rintro g' (h | ⟨-, h⟩)
    · exact (Option.some.inj h).symm
    · exact absurd h hne
  | none =>
    rw [← hnot hg]
    constructor
    · rintro ⟨g, h | ⟨-, h⟩, -⟩
      · exact nomatch h
      · exact h
    · intro h
      refine ⟨.rawEqual, Or.inr ⟨rfl, h⟩, ?_⟩
      rintro g' (h' | ⟨h', -⟩)
      · exact nomatch h'
      · exact h'

/-! ## An array whose scale does not resolve -/

/-- A tune over a definition of the given constants, with the given bytes on its pages. -/
def plainTune (constants : List (ConstantDef XRat)) (pages : List (List UInt8)) : Tune XRat where
  df :=
    { signature := "", pcVariables := ∅, requiresPowerCycle := [], defaultValues := []
      outputChannels := ∅
      header := { pageSizes := pages.map fun p => UInt32.ofNat p.length }
      constants := IndexMap.ofList (constants.map fun c => (c.name, c)) }
  pages := pages.map fun p => ⟨p, p, p⟩
  pcValues := ∅
  loaded := true

/-- A constant on the first page. -/
def plainConstant (name : String) (cls : ConstantClass) (ty : DataType) (offset : UInt32)
    (shape : Option Shape) (scale : NumOrExpr XRat) : ConstantDef XRat where
  name
  cls
  ty
  page := some 1
  offset := some offset
  shape
  units := none
  scale
  translate := .num 0
  lo := none
  hi := none
  digits := none
  labels := []
  stringLen := none
  noMsqSave := false

/-- An array of two bytes at the start of the page. -/
def twoBytes (scale : NumOrExpr XRat) : ConstantDef XRat :=
  plainConstant "bins" .array .u08 0 (some (.array1D 2)) scale

def oneEntry (name : String) (value : MsqValue XRat) : MsqFile XRat :=
  { MsqFile.empty with constants := IndexMap.ofList [(name, value)] }

/-- An array whose scale names a symbol there is not. -/
def unscaled : Tune XRat := plainTune [twoBytes (.expr (.ident "resolution"))] [[1, 2]]

theorem listedOnce_iff_twoBytes :
    (∀ e ∈ (oneEntry "bins" (.array [1, 5])).constants.entries,
      ∃! g, InGroup ⟨.debug, 8⟩ (plainTune [twoBytes (.num 1)] [[1, 2]])
        ⟨[⟨"bins", some 1, .array [1] 2⟩], [], []⟩ e.1 e.2 g) ↔
    ∀ e ∈ (oneEntry "bins" (.array [1, 5])).constants.entries,
      Comparable ⟨.debug, 8⟩ (plainTune [twoBytes (.num 1)] [[1, 2]]) e.1 e.2 :=
  listedOnce_iff _ _ _ _ (by decide +kernel)

/-- **A constant that cannot be encoded is dropped silently.** -/
theorem dropped_not_listed :
    ¬ ∀ (m : Machine) (t : Tune XRat) (file : MsqFile XRat) (d : MsqDiff XRat),
      diff m t file = .ok d →
        ∀ e ∈ file.constants.entries, ∃! g, InGroup m t d e.1 e.2 g := by
  intro h
  obtain ⟨g, hg, -⟩ := h ⟨.debug, 8⟩ unscaled (oneEntry "bins" (.array [1, 5])) .empty rfl
    ("bins", .array [1, 5]) (by decide)
  rcases hg with hg | ⟨-, c, hc, hg⟩
  · exact lists_empty _ _ hg
  · obtain rfl := Option.some.inj (show some (twoBytes _) = some c from hc)
    obtain ⟨raw, -, henc⟩ := hg.2 0 1 rfl
    exact nomatch henc

end RustyTune.TuneModel.Msq
