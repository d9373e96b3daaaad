import RustyTune.TuneModel.Msq.Restore

/-!
# A saved file compared with its own tune

* `Returns`: the number that is written of a raw value encodes to it again.
* `SelfEqual`: what has to hold of a constant that is written for the file to have its value.
* **`selfDiff_iff`**: a saved file has no differences to its tune exactly when this holds of all of them.
* `Plain.selfEqual`: it holds of the numbers, arrays and choices of a plain definition.
-/

namespace RustyTune.TuneModel.Msq

open TsIni Exec XRat

open Text (Recoding)

open Xml (Reader)

variable {m : Machine} {t : Tune XRat} {name : String} {c : ConstantDef XRat} {line : Line XRat}
  {r : Recoding}

/-- The value of a raw value, to six decimals, is rounded to it. Where scale or translate are not finite,
every number encodes to zero. -/
def Returns (ty : DataType) : XRat → XRat → ℤ → Prop
  | fin scale, fin translate, raw =>
    RoundsTo ty (inRaw scale translate (toMillionths (decoded scale translate raw))) raw
  | _, _, raw => raw = 0

/-- What has to hold of a constant for a saved file to have its value. An array that cannot be encoded
is never listed. -/
def SelfEqual (r : Recoding) (m : Machine) (t : Tune XRat) (name : String) (c : ConstantDef XRat) : Prop :=
  match c.cls with
  | .scalar => ∀ raw scale translate, t.constantRaw m name = .ok (some raw) →
      t.Coded m c scale translate → scale ≠ fin 0 ∧ Returns c.ty scale translate raw
  | .array => 2 ≤ c.elementCount ∧ ∀ scale translate, t.Coded m c scale translate → scale ≠ fin 0 →
      ∀ k < c.elementCount, ∀ raw, t.arrayRaw name k = some raw → Returns c.ty scale translate raw
  | .bits => ∀ (i : ℕ) label, t.constantRaw m name = .ok (some (i : ℤ)) → c.labels[i]? = some label →
      label ≠ "INVALID" → Kept r label ∧ c.labels.idxOf label = i
  | .string => ∀ text, t.constantValue m name = .ok (some (.str text)) → Kept r text

/-! ## Numbers -/

section Numbers

variable {scale translate user : XRat} {raw : ℤ}

theorem fin_inj {q q' : ℚ} : fin q = fin q' ↔ q = q' := by rw [fin.injEq]

theorem eq_zero_iff {x : XRat} : F64.eq x 0 = true ↔ x = fin 0 := by
  cases x with
  | fin q => exact decide_eq_true_iff.trans fin_inj.symm
  | inf s => exact iff_of_false Bool.false_ne_true (by simp)
  | nan => exact iff_of_false Bool.false_ne_true (by simp)

theorem quantise_nan (h : F64.sub (F64.div user scale) translate = nan) :
    quantise c (scale, translate) user = 0 := by
  rw [quantise, h]
  exact clampRaw_nan c.ty

/-- Where scale or translate are not finite, no number is left of a value. -/
theorem quantise_of_not_finite (hne : scale ≠ fin 0)
    (h : F64.isFinite scale = false ∨ F64.isFinite translate = false) :
    quantise c (scale, translate) (sixDecimals (userOf scale translate raw)) = 0 := by
  cases scale with
  | fin s =>
    have hs : s ≠ 0 := fun hs => hne (congrArg fin hs)
    cases translate with
    | fin q => rcases h with h | h <;> cases h
    | inf b =>
      have hvalue : userOf (fin s) (inf b) raw = inf ((s < 0) ^^ b) := if_neg hs
      rw [hvalue, sixDecimals_inf]
      refine quantise_nan ?_
      change XRat.add (inf ((s < 0) ^^ ((s < 0) ^^ b))) (inf (!b)) = nan
      rw [← Bool.xor_assoc, Bool.xor_self, Bool.false_xor, XRat.add, if_neg (by cases b <;> decide)]
    | nan => exact clampRaw_nan c.ty
  | inf b =>
    have hvalue : userOf (inf b) translate raw = nan ∨ ∃ s, userOf (inf b) translate raw = inf s := by
      cases translate with
      | fin q =>
        by_cases hzero : (raw : ℚ) + q = 0
        · exact .inl (if_pos hzero)
        · exact .inr ⟨_, if_neg hzero⟩
      | inf s => exact .inr ⟨_, rfl⟩
      | nan => exact .inl rfl
    rcases hvalue with hvalue | ⟨s, hvalue⟩
    · rw [hvalue, sixDecimals_nan]
      exact quantise_nan rfl
    · rw [hvalue, sixDecimals_inf]
      exact quantise_nan rfl
  | nan =>
    have hvalue : userOf nan translate raw = nan := by cases translate <;> rfl
    rw [hvalue, sixDecimals_nan]
    exact quantise_nan rfl

/-- **What is written of a raw value encodes to it exactly when it returns.** -/
theorem quantise_written (hne : scale ≠ fin 0) (hraw : InRange c.ty raw) :
    raw = quantise c (scale, translate) (sixDecimals (userOf scale translate raw)) ↔
      Returns c.ty scale translate raw := by
  cases scale with
  | fin s =>
    cases translate with
    | fin q =>
      have hs : s ≠ 0 := fun hs => hne (congrArg fin hs)
      rw [userOf, quantise_sixDecimals hs, eq_comm, nearestRaw_eq_iff hraw, Returns]
    | inf b =>
      rw [quantise_of_not_finite hne (.inr rfl)]
      exact Iff.rfl
    | nan =>
      rw [quantise_of_not_finite hne (.inr rfl)]
      exact Iff.rfl
  | inf b =>
    rw [quantise_of_not_finite hne (.inl rfl)]
    exact Iff.rfl
  | nan =>
    rw [quantise_of_not_finite hne (.inl rfl)]
    exact Iff.rfl

theorem encodeUser_coded (user : XRat) (hc : t.constant name = some c)
    (hcoded : t.Coded m c scale translate) (hne : scale ≠ fin 0) :
    (t.encodeUser m name user).run = .ok (.ok (quantise c (scale, translate) user)) := by
  refine (encodeUser_ok hc).mpr ⟨(scale, translate), ?_, rfl⟩
  rw [hcoded.coding (Bool.not_eq_true _ ▸ mt eq_zero_iff.mp hne)]
  rfl

theorem encodeUser_zero (hc : t.constant name = some c) (hcoded : t.Coded m c (fin 0) translate) :
    (t.encodeUser m name user).run = .ok (.error (.eval c.name "scale is zero")) := by
  rw [Tune.encodeUser_of_constant hc, Tune.encode_error, hcoded.coding_zero (eq_zero_iff.mpr rfl)]
  rfl

end Numbers

/-! ## Classes -/

theorem compare_scalar {p : PageState} {offset : ℕ} {raw : ℤ} {scale translate : XRat}
    (hc : t.constant name = some c) (hcls : c.cls = .scalar) (hl : t.located c = some (p, offset))
    (hraw : readRaw p.data offset c.ty = some raw) (hcoded : t.Coded m c scale translate) :
    compare m t name (.num (sixDecimals (userOf scale translate raw))) = .ok .unlisted ↔
      scale ≠ fin 0 ∧ Returns c.ty scale translate raw := by
  simp only [compare, hc, hcls, Tune.constantRaw_scalar hc hcls hl, hraw, ok_bind]
  by_cases hne : scale = fin 0
  · subst hne
    rw [encodeUser_zero hc hcoded]
    exact iff_of_false (fun h => by cases h) fun h => h.1 rfl
  rw [encodeUser_coded _ hc hcoded hne, ok_bind, and_iff_right hne,
    ← quantise_written hne (readRaw_inRange hraw)]
  dsimp only
  by_cases hsame : raw = quantise c (scale, translate) (sixDecimals (userOf scale translate raw))
  · rw [if_pos hsame]
    exact iff_of_true rfl hsame
  · rw [if_neg hsame]
    refine iff_of_false (fun h => ?_) hsame
    obtain ⟨value, -, h⟩ := bind_eq_ok.mp h
    cases h

theorem compare_bits (hc : t.constant name = some c) (hcls : c.cls = .bits) {raw : ℤ}
    (hraw : t.constantRaw m name = .ok (some raw)) {value : MsqValue XRat} :
    compare m t name value = .ok .unlisted ↔ fileBitsIndex t name value = some raw := by
  simp only [compare, hc, hcls, hraw, ok_bind]
  rcases fileBitsIndex t name value with - | idx
  · exact iff_of_false (fun h => by cases h) (by simp)
  · by_cases heq : raw = idx
    · simp only [if_pos heq, Option.some.injEq]
      exact iff_of_true rfl heq.symm
    · simp only [if_neg heq, Option.some.injEq]
      exact iff_of_false (fun h => by cases h) fun h => heq h.symm

/-- **A choice is not listed when its label is read back as it was written, and stands there first.** -/
theorem compare_choice {n : ℕ} (hc : t.constant name = some c) (hcls : c.cls = .bits)
    (hn : n < 2 ^ 63) (hraw : t.constantRaw m name = .ok (some (n : ℤ))) :
    compare m t name ((choiceLine c.labels n n).value r) = .ok .unlisted ↔
      ∀ label, c.labels[n]? = some label → label ≠ "INVALID" →
        Kept r label ∧ c.labels.idxOf label = n := by
  rw [compare_bits hc hcls hraw, fileBitsIndex_choice hc hn]

theorem compare_string {text : String} (hc : t.constant name = some c) (hcls : c.cls = .string)
    (htext : t.constantValue m name = .ok (some (.str text))) :
    compare m t name ((Line.string text).value r) = .ok .unlisted ↔ Kept r text := by
  rw [← readText_eq_iff]
  simp only [compare, hc, hcls, htext, ok_bind, Line.value]
  by_cases heq : text = String.ofList (Text.trimEndWhere (· == '"') (r.apply text.toList))
  · rw [if_pos heq]
    exact iff_of_true rfl heq.symm
  · rw [if_neg heq]
    exact iff_of_false (fun h => by cases h) fun h => heq h.symm

/-! ## Arrays -/

section Arrays

variable {scale translate : XRat}

theorem ofNumbers_eq_array {values : List XRat} (h : 2 ≤ values.length) :
    ofNumbers values = .array values := by
  rcases values with - | ⟨v, - | ⟨w, values⟩⟩
  · simp at h
  · simp at h
  · rfl

theorem compare_short {values : List XRat} (hc : t.constant name = some c) (hcls : c.cls = .array)
    (h : ¬ 2 ≤ values.length) : compare m t name (ofNumbers values) ≠ .ok .unlisted := by
  intro hcmp
  rcases values with - | ⟨v, - | ⟨w, values⟩⟩
  · simp only [ofNumbers, compare, hc, hcls] at hcmp
    cases hcmp
  · simp only [ofNumbers, compare, hc, hcls] at hcmp
    cases hcmp
  · simp at h

theorem compare_array_unlisted {values : List XRat} (hc : t.constant name = some c)
    (hcls : c.cls = .array) (hlen : values.length = c.elementCount) :
    compare m t name (.array values) = .ok .unlisted ↔ changedFrom m t name 0 values [] = .ok [] := by
  simp only [compare, hc, hcls, hlen, ne_eq, not_true_eq_false, if_false]
  rcases changedFrom m t name 0 values [] with e | out
  · exact iff_of_false (fun h => by cases h) fun h => by cases h
  · rw [ok_bind]
    cases out with
    | nil => exact iff_of_true rfl rfl
    | cons i is => exact iff_of_false (fun h => by cases h) fun h => by cases h

theorem changedFrom_zero {values : List XRat} (hc : t.constant name = some c)
    (hcoded : t.Coded m c (fin 0) translate) (i : ℕ) :
    changedFrom m t name i values [] = .ok [] := by
  cases values with
  | nil => rfl
  | cons v values =>
    rw [changedFrom, encodeUser_zero hc hcoded, ok_bind]
    cases t.arrayRaw name i <;> rfl

theorem changedFrom_returns {values : List XRat} {i : ℕ} (changed : List ℕ)
    (h : ∀ k v, values[k]? = some v → ElementReadable m t name (i + k) v) :
    ∃ out, changedFrom m t name i values changed = .ok out := by
  induction values generalizing i changed with
  | nil => exact ⟨changed, rfl⟩
  | cons v values ih =>
    obtain ⟨cur, raw, hcur, hraw⟩ := h 0 v rfl
    rw [Nat.add_zero] at hcur
    rw [changedFrom, hraw, ok_bind, hcur]
    refine ih _ fun k v hv => ?_
    rw [Nat.add_assoc, Nat.add_comm 1 k]
    exact h (k + 1) v hv

/-- No element is listed exactly when all of them are equal. -/
theorem changedFrom_eq_nil_iff {values : List XRat}
    (h : ∀ k v, values[k]? = some v → ElementReadable m t name k v) :
    changedFrom m t name 0 values [] = .ok [] ↔
      ∀ k v, values[k]? = some v → ElementEqual m t name k v := by
  have hread : ∀ k v, values[k]? = some v → ElementReadable m t name (0 + k) v := by
    simpa only [Nat.zero_add] using h
  obtain ⟨out, hout⟩ := changedFrom_returns [] hread
  rcases changedFrom_cases hout with ⟨-, k, v, hv, hno⟩ | ⟨-, hempty⟩
  · exact absurd (hread k v hv) hno
  · simp only [Nat.zero_add, true_and] at hempty
    rw [← hempty, hout, Except.ok.injEq]

/-- An element that is read, and what its number is encoded to. -/
theorem element_written {k : ℕ} {v : XRat} (hc : t.constant name = some c)
    (hcoded : t.Coded m c scale translate) (hne : scale ≠ fin 0)
    (h : t.arrayElement m name k = .ok (some v)) :
    ∃ raw, t.arrayRaw name k = some raw ∧ ElementReadable m t name k (sixDecimals v) ∧
      (ElementEqual m t name k (sixDecimals v) ↔ Returns c.ty scale translate raw) := by
  obtain ⟨raw, scale', translate', hraw, hcoded', rfl⟩ := arrayElement_coded hc h
  obtain ⟨rfl, rfl⟩ := hcoded.unique hcoded'
  obtain ⟨p, offset, -, hread⟩ := (arrayRaw_eq_some hc).mp hraw
  have henc := encodeUser_coded (sixDecimals (userOf scale' translate' raw)) hc hcoded hne
  refine ⟨raw, hraw, ⟨raw, _, hraw, henc⟩, ?_⟩
  rw [← quantise_written hne (readRaw_inRange hread)]
  simp only [ElementEqual, hraw, henc, Option.some.injEq, exists_eq_left', Except.ok.injEq]
  exact eq_comm

/-- **An array is not listed when it has two elements or more**, and cannot be encoded or is of numbers
that all return. -/
theorem compare_array {values : List XRat} (hc : t.constant name = some c) (hcls : c.cls = .array)
    (hlen : values.length = c.elementCount)
    (hread : ∀ k v, values[k]? = some v → t.arrayElement m name k = .ok (some v)) :
    compare m t name (ofNumbers (values.map sixDecimals)) = .ok .unlisted ↔
      2 ≤ c.elementCount ∧ ∀ scale translate, t.Coded m c scale translate → scale ≠ fin 0 →
        ∀ k < c.elementCount, ∀ raw, t.arrayRaw name k = some raw →
          Returns c.ty scale translate raw := by
  have hlen' : (values.map sixDecimals).length = c.elementCount := by rw [List.length_map, hlen]
  by_cases htwo : 2 ≤ c.elementCount
  swap
  · exact iff_of_false (compare_short hc hcls (hlen' ▸ htwo)) fun h => htwo h.1
  obtain ⟨-, scale, translate, -, hcoded, -⟩ :=
    arrayElement_coded hc (hread 0 _ (List.getElem?_eq_getElem (by omega : 0 < values.length)))
  rw [ofNumbers_eq_array (hlen'.symm ▸ htwo), compare_array_unlisted hc hcls hlen', and_iff_right htwo]
  by_cases hne : scale = fin 0
  · subst hne
    refine iff_of_true (changedFrom_zero hc hcoded 0) fun scale' translate' hcoded' hne' => ?_
    exact absurd (hcoded.unique hcoded').1 hne'
  have hwritten := fun k v hv => element_written hc hcoded hne (hread k v hv)
  rw [changedFrom_eq_nil_iff fun k v hv => ?_]
  · simp only [List.getElem?_map, Option.map_eq_some_iff]
    constructor
    · rintro h scale' translate' hcoded' - k hk raw hraw
      obtain ⟨rfl, rfl⟩ := hcoded.unique hcoded'
      have hv := List.getElem?_eq_getElem (hlen.symm ▸ hk : k < values.length)
      obtain ⟨raw', hraw', -, hiff⟩ := hwritten k _ hv
      obtain rfl := Option.some.inj (hraw.symm.trans hraw')
      exact hiff.mp (h k _ ⟨_, hv, rfl⟩)
    · rintro h k _ ⟨v, hv, rfl⟩
      obtain ⟨raw, hraw, -, hiff⟩ := hwritten k v hv
      have hk := (List.getElem?_eq_some_iff.mp hv).1
      exact hiff.mpr (h scale translate hcoded hne k (hlen ▸ hk) raw hraw)
  · rw [List.getElem?_map, Option.map_eq_some_iff] at hv
    obtain ⟨v, hv, rfl⟩ := hv
    obtain ⟨raw, -, hreadable, -⟩ := hwritten k v hv
    exact hreadable

end Arrays

/-! ## The file -/

theorem diff_eq_empty_iff {file : MsqFile XRat} : diff m t file = .ok MsqDiff.empty ↔
    ∀ e ∈ file.constants.entries, compare m t e.1 e.2 = .ok .unlisted := by
  constructor
  · intro h e he
    obtain ⟨v, hv⟩ := exists_compare h he
    have hlists := lists_diff h he hv
    cases v with
    | unlisted => exact hv
    | entry page kind => exact absurd ((hlists .entries).mpr rfl) (lists_empty _ _)
    | onlyInFile => exact absurd ((hlists .onlyInFile).mpr rfl) (lists_empty _ _)
    | unresolved reason => exact absurd ((hlists .unresolved).mpr rfl) (lists_empty _ _)
  · rw [diff]
    generalize file.constants.entries = entries
    intro h
    induction entries with
    | nil => rfl
    | cons e entries ih =>
      obtain ⟨he, hentries⟩ := List.forall_mem_cons.mp h
      rw [List.foldlM_cons, diffStep, he]
      exact ih hentries

/-- **A constant that is written is not listed when its value is kept.** -/
theorem compare_written (hfit : ∀ lo hi, c.cls = .bits → c.shape = some (.bits lo hi) →
      lo.toNat ≤ hi.toNat ∧ hi.toNat < 8 * c.ty.size) (h : Written m t name c line) :
    compare m t name (line.value r) = .ok .unlisted ↔ SelfEqual r m t name c := by
  have hc := h.1
  rw [SelfEqual]
  cases hcls : c.cls with
  | scalar =>
    obtain ⟨p, offset, raw, scale, translate, digits, units, hl, hraw, hcoded, rfl⟩ :=
      lineOf_scalar hc hcls h.lineOf
    refine (compare_scalar hc hcls hl hraw hcoded).trans ?_
    simp only [Tune.constantRaw_scalar hc hcls hl, hraw, Except.ok.injEq, Option.some.injEq]
    constructor
    · rintro hkept raw' scale' translate' rfl hcoded'
      obtain ⟨rfl, rfl⟩ := hcoded.unique hcoded'
      exact hkept
    · exact fun hkept => hkept raw scale translate rfl hcoded
  | bits =>
    obtain ⟨p, offset, raw, lo, hi, v, hl, hraw, hshape, hv, rfl⟩ := lineOf_choice hc hcls h.lineOf
    obtain ⟨hle, hhi⟩ := hfit lo hi hcls hshape
    have hconst := constantRaw_choice hle hhi hc hcls hl hraw hshape hv
    refine (compare_choice hc hcls (fieldValue_lt hv) hconst).trans ?_
    simp only [hconst, Except.ok.injEq, Option.some.injEq, Nat.cast_inj]
    constructor
    · rintro h i label rfl
      exact h label
    · exact fun h label => h _ label rfl
  | array =>
    obtain ⟨cols, rows, digits, units, values, rfl, hlen, hread⟩ := lineOf_array hc hcls h.lineOf
    exact compare_array hc hcls hlen hread
  | string =>
    obtain ⟨text, htext, rfl⟩ := lineOf_string hcls h.lineOf
    refine (compare_string hc hcls htext).trans ?_
    simp only [htext, Except.ok.injEq, Option.some.injEq, Value.str.injEq, forall_eq']

/-- A saved file has no differences to its tune exactly when the constants that are written are kept. -/
theorem diff_savedFile_iff {symbols : List String} {author writeDate : String}
    {vars : List (String × Line XRat)} {pages : List (List (String × Line XRat))}
    (hkept : ∀ name c, t.constant name = some c → r.string name = name) (hfit : FieldsFit t)
    (hpages : (List.range t.pageCount).mapM (pageLines m t) = .ok pages) :
    diff m t (savedFile r t symbols author writeDate vars pages) = .ok MsqDiff.empty ↔
      ∀ name c line, Written m t name c line → SelfEqual r m t name c := by
  have hmem : ∀ name value,
      (name, value) ∈ (savedFile r t symbols author writeDate vars pages).constants.entries ↔
        ∃ c line, Written m t name c line ∧ value = line.value r := fun name value =>
    mem_constants_savedFile hkept hpages
  rw [diff_eq_empty_iff]
  constructor
  · intro h name c line hwritten
    rw [← compare_written (hfit name c · · hwritten.1) hwritten]
    exact h (name, line.value r) ((hmem name _).mpr ⟨c, line, hwritten, rfl⟩)
  · rintro h ⟨name, value⟩ he
    obtain ⟨c, line, hwritten, rfl⟩ := (hmem name value).mp he
    exact (compare_written (hfit name c · · hwritten.1) hwritten).mpr (h name c line hwritten)

/-- **A saved file is read, and has no differences to its tune exactly when the constants that are
written are kept.** -/
theorem selfDiff_iff (reader : Reader) (r : Recoding) (m : Machine) (t : Tune XRat)
    (symbols : List String) (author writeDate text : String)
    (hnames : PlainNames t) (hascii : ∀ name c, t.constant name = some c → Text.IsAscii name.toList)
    (hfit : FieldsFit t) (hsave : save m t symbols author writeDate = .ok text) :
    ∃ file, MsqFile.parse reader (r.apply text.toList) = .ok file ∧
      (diff m t file = .ok MsqDiff.empty ↔
        ∀ name c line, Written m t name c line → SelfEqual r m t name c) := by
  obtain ⟨vars, pages, -, hpages, hparse⟩ := parse_save reader r hnames hsave
  exact ⟨_, hparse,
    diff_savedFile_iff (fun name c hc => r.string_of_isAscii (hascii name c hc)) hfit hpages⟩

/-! ## A plain definition -/

theorem returns_of_literal {ty : DataType} {raw : ℤ} {scale translate : ℚ} {s tr : XRat}
    (hcoded : t.Coded m c s tr) (hscale : c.scale = .num (fin scale))
    (htranslate : c.translate = .num (fin translate)) (hs : 1 / 1000000 < |scale|) :
    s ≠ fin 0 ∧ Returns ty s tr raw := by
  obtain ⟨rfl, rfl⟩ := (Tune.coded_of_num m t hscale htranslate).unique hcoded
  exact ⟨fun h => ne_zero_of_abs hs (fin.inj h), roundsTo_toMillionths hs⟩

/-- **The constants of a plain definition are kept**, when its texts are. -/
theorem Plain.selfEqual (hplain : Plain r t) (hc : t.constant name = some c)
    (htexts : c.cls = .string → ∀ text, t.constantValue m name = .ok (some (.str text)) → Kept r text) :
    SelfEqual r m t name c := by
  rw [SelfEqual]
  cases hcls : c.cls with
  | scalar =>
    obtain ⟨scale, translate, hscale, htranslate, hs⟩ := hplain.literal name c hc (.inl hcls)
    exact fun raw s tr _ hcoded => returns_of_literal hcoded hscale htranslate hs
  | bits => exact fun i label _ => hplain.labels name c hc hcls i label
  | array =>
    obtain ⟨scale, translate, hscale, htranslate, hs⟩ := hplain.literal name c hc (.inr hcls)
    exact ⟨hplain.arrays name c hc hcls,
      fun s tr hcoded _ k _ raw _ => (returns_of_literal hcoded hscale htranslate hs).2⟩
  | string => exact htexts hcls

theorem selfEqual_garage {name : String} {c : ConstantDef XRat}
    (hc : (garage garageBytes).constant name = some c) :
    SelfEqual Recoding.latin1 ⟨.debug, 8⟩ (garage garageBytes) name c := by
  refine (plain_garage _).selfEqual hc fun hcls text htext => ?_
  have hmem := garage_constant hc
  simp only [garageConstants, List.map_cons, List.map_nil, List.mem_cons, List.not_mem_nil, or_false,
    Prod.mk.injEq] at hmem
  rcases hmem with ⟨-, rfl⟩ | ⟨-, rfl⟩ | ⟨-, rfl⟩ | ⟨rfl, -⟩
  · cases hcls
  · cases hcls
  · cases hcls
  · have hvalue : ((garage garageBytes).constantValue ⟨.debug, 8⟩ "engine").toOption =
        some (some (.str "V&8")) := by decide +kernel
    obtain rfl := Value.str.inj
      (Option.some.inj (Option.some.inj (hvalue.symm.trans (congrArg Except.toOption htext))))
    exact ⟨Recoding.latin1.apply_of_isAscii (by decide), by decide⟩

theorem selfDiff_iff_garage : ∃ text file,
    save ⟨.debug, 8⟩ (garage garageBytes) ["LAMBDA"] "Ann & Bo" "today" = .ok text ∧
      MsqFile.parse Xml.scanner (Recoding.latin1.apply text.toList) = .ok file ∧
      diff ⟨.debug, 8⟩ (garage garageBytes) file = .ok MsqDiff.empty := by
  obtain ⟨text, hsave⟩ := save_garage
  obtain ⟨file, hparse, hiff⟩ := selfDiff_iff Xml.scanner Recoding.latin1 _ _ _ _ _ _ (garage_names _)
    (fun _ _ => garage_ascii) (plain_garage _).fields hsave
  exact ⟨text, file, hsave, hparse, hiff.mpr fun name c line h => selfEqual_garage h.1⟩

end RustyTune.TuneModel.Msq
