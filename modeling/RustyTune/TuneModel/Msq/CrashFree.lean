import RustyTune.TuneModel.Traps

/-!
# Definitions that cannot crash the tune

Nothing a definition says is checked when it is parsed, so what keeps the tune from trapping has to
be asked of the definition.

* `CrashFree`: no access, comparison or application of a file over the definition traps, and no
  channel of the telemetry.
* `Guarded`: the bit fields fit their words, and the constants that can be written are on pages there
  are.
* **`crashFree_iff`**: one is the other.
-/

namespace RustyTune.TuneModel.Msq

open TsIni Exec

variable {F : Type} [F64 F] {m : Machine}

/-! ## Files -/

section Diff

variable {t : Tune F} (hs : t.Safe m)
include hs

theorem constantRaw_noTrap (name : String) : NoTrap (t.constantRaw m name) := by
  unfold Tune.constantRaw
  split
  · exact noTrap_pure _
  · next c hc =>
    split
    · exact noTrap_pure _
    · next p offset hl =>
      split
      · exact noTrap_pure _
      · next raw hraw =>
        split
        · next lo hi hcls hsh =>
          refine AbortsOnly.bind (fieldRaw_noTrap_iff.mpr fun hd => ?_) fun _ _ => noTrap_pure _
          exact hs.fields hd name c p offset raw lo hi hc hcls hsh hl hraw
        · exact noTrap_pure _
        · exact noTrap_pure _

theorem encodeUser_noTrap (name : String) (user : F) : NoTrap (t.encodeUser m name user).run :=
  AbortsOnly.attempt_bind (Tune.orError_noTrap _ _) fun c _ => hs.encodeImpl c user false

theorem changedFrom_noTrap (name : String) (values : List F) (i : ℕ) (changed : List ℕ) :
    NoTrap (changedFrom m t name i values changed) := by
  induction values generalizing i changed with
  | nil => exact noTrap_pure _
  | cons v values ih =>
    rw [changedFrom]
    refine AbortsOnly.bind (encodeUser_noTrap hs name v) fun r _ => ?_
    split
    · exact ih _ _
    · exact noTrap_pure _

theorem compare_noTrap (name : String) (value : MsqValue F) : NoTrap (compare m t name value) := by
  unfold compare
  split
  · exact noTrap_pure _
  · split
    · refine AbortsOnly.bind (constantRaw_noTrap hs name) fun rawCur _ =>
        AbortsOnly.bind (encodeUser_noTrap hs name _) fun rawFile _ => ?_
      split
      · split_ifs
        · exact noTrap_pure _
        · exact AbortsOnly.bind (hs.constantValue name) fun _ _ => noTrap_pure _
      · exact noTrap_pure _
    · refine AbortsOnly.bind (constantRaw_noTrap hs name) fun rawCur _ => ?_
      split
      · split_ifs <;> exact noTrap_pure _
      · exact noTrap_pure _
    · split_ifs
      · exact noTrap_pure _
      · refine AbortsOnly.bind (changedFrom_noTrap hs name _ 0 []) fun changed _ => ?_
        cases changed <;> exact noTrap_pure _
    · refine AbortsOnly.bind (hs.constantValue name) fun current _ => ?_
      split
      · split_ifs <;> exact noTrap_pure _
      · exact noTrap_pure _
    · exact noTrap_pure _

theorem diff_noTrap (file : MsqFile F) : NoTrap (diff m t file) := by
  have hstep (out : MsqDiff F) (entry : String × MsqValue F) : NoTrap (diffStep m t out entry) :=
    AbortsOnly.bind (compare_noTrap hs entry.1 entry.2) fun _ _ => noTrap_pure _
  exact abortsOnly_foldlM (Q := fun _ => True) (fun out entry _ => hstep out entry)
    (fun _ _ _ _ _ => trivial) _ trivial

end Diff

section Apply

/-- A tune over the definition. -/
structure Over (df : IniDef F) (t : Tune F) : Prop where
  df : t.df = df
  sized : t.Sized

omit [F64 F] in
theorem Over.rewrites {df : IniDef F} {t t' : Tune F} (ht : Over df t) (h : Rewrites t t') :
    Over df t' := ⟨h.df.trans ht.df, h.sized ht.sized⟩

variable {df : IniDef F} (hsafe : ∀ t : Tune F, Over df t → t.Safe m)
include hsafe

theorem applyElements_noTrap (name : String) (values : List F) (i : ℕ) {t : Tune F}
    (ht : Over df t) : NoTrap (applyElements m name i values t) := by
  induction values generalizing i t with
  | nil => exact noTrap_pure _
  | cons v values ih =>
    rw [applyElements]
    refine AbortsOnly.bind ((hsafe t ht).setArrayElementImpl name i v false) fun r hr => ?_
    cases r with
    | ok t' =>
      exact ih (i + 1) (ht.rewrites
        (setArrayElementImpl_sameFrame m t name i v false t' hr).toRewrites)
    | error e => exact noTrap_pure _

omit hsafe [F64 F] in
theorem written_noTrap {t : Tune F} {x : Attempt (Tune F)} (hx : NoTrap x.run) :
    NoTrap (written t x) := by
  refine AbortsOnly.bind hx fun r _ => ?_
  cases r <;> exact noTrap_pure _

theorem applyValue_noTrap (name : String) (c : ConstantDef F) (value : MsqValue F) {t : Tune F}
    (ht : Over df t) : NoTrap (applyValue m t name c value) := by
  unfold applyValue
  split
  · exact written_noTrap ((hsafe t ht).setConstantImpl name _ false)
  · split
    · exact written_noTrap ((hsafe t ht).setConstantImpl name _ false)
    · exact noTrap_pure _
  · split_ifs
    · exact noTrap_pure _
    · exact applyElements_noTrap hsafe name _ 0 ht
  · exact noTrap_pure _
  · exact noTrap_pure _

theorem applyConstant_noTrap (names : Option (List String)) (s : ApplyReport × Tune F)
    (entry : String × MsqValue F) (hs : Over df s.2) : NoTrap (applyConstant m names s entry) := by
  unfold applyConstant
  dsimp only
  split_ifs
  · exact noTrap_pure _
  · split
    · exact noTrap_pure _
    · next c _ =>
      refine AbortsOnly.bind (applyValue_noTrap hsafe entry.1 c entry.2 hs) fun r _ => ?_
      obtain ⟨r, t'⟩ := r
      cases r <;> exact noTrap_pure _

theorem applyPcVariable_noTrap (names : Option (List String)) (s : ApplyReport × Tune F)
    (entry : String × MsqValue F) (hs : Over df s.2) :
    NoTrap (applyPcVariable m names s entry) := by
  have hset (name : String) (user : F) : NoTrap (s.2.setPcValue m name user).run :=
    AbortsOnly.attempt_bind (Tune.orError_noTrap _ _) fun c _ =>
      AbortsOnly.attempt_bind ((hsafe s.2 hs).clampUser c user).lift fun _ _ => abortsOnly_ok _
  unfold applyPcVariable
  dsimp only
  split_ifs
  · exact noTrap_pure _
  · split
    · exact noTrap_pure _
    · refine AbortsOnly.bind (hset _ _) fun r _ => ?_
      cases r <;> exact noTrap_pure _

theorem apply_noTrap (file : MsqFile F) (names : Option (List String)) {t : Tune F}
    (ht : Over df t) : NoTrap (apply m file t names) := by
  have hconstants : ∀ s e s', Over df s.2 → applyConstant m names s e = .ok s' → Over df s'.2 :=
    fun s e s' hs h => hs.rewrites (applyConstant_rewrites h)
  refine AbortsOnly.bind (abortsOnly_foldlM (Q := fun s => Over df s.2)
    (applyConstant_noTrap hsafe names) hconstants _ ht) fun s hs => ?_
  exact abortsOnly_foldlM (Q := fun s => Over df s.2) (applyPcVariable_noTrap hsafe names)
    (fun s e s' hs h => hs.rewrites (applyPcVariable_rewrites h)) _
    (ht.rewrites (foldlM_rewrites (fun _ _ _ => applyConstant_rewrites) _ hs))

end Apply

/-! ## Definitions -/

/-- No access to a tune over the definition traps, and no channel of the telemetry. -/
structure CrashFree (m : Machine) (df : IniDef F) : Prop where
  constantValue : ∀ t : Tune F, Over df t → ∀ name, NoTrap (t.constantValue m name)
  arrayValues : ∀ t : Tune F, Over df t → ∀ name, NoTrap (t.arrayValues m name)
  table : ∀ t : Tune F, Over df t → ∀ id, NoTrap (t.table m id)
  setConstant : ∀ t : Tune F, Over df t → ∀ name user, F64.isFinite user = true →
    NoTrap (t.setConstant m name user).run
  setArrayElement : ∀ t : Tune F, Over df t → ∀ name index user, F64.isFinite user = true →
    NoTrap (t.setArrayElement m name index user).run
  setTableCell : ∀ t : Tune F, Over df t → ∀ id row col value, F64.isFinite value = true →
    NoTrap (t.setTableCell m id row col value).run
  diff : ∀ t : Tune F, Over df t → ∀ file, NoTrap (diff m t file)
  apply : ∀ t : Tune F, Over df t → ∀ file names, NoTrap (apply m file t names)
  /-- Whatever the block is, and whatever an extra source answers that does not trap itself. -/
  channel : ∀ tel : Telemetry F, tel.df = df → tel.ExtraAbortsOnly NotTrap → ∀ name,
    NoTrap (tel.channel m name)

/-- What is to be asked of a definition. -/
structure Guarded (m : Machine) (df : IniDef F) : Prop where
  /-- A constant that can be written to is on a page there is. -/
  pages : ∀ name c pageIdx offset, df.constants.get? name = some c →
    Tune.location c = some (pageIdx, offset) → Writes c (∃ t : Tune F, Over df t ∧ t.Codes m c) →
    pageIdx < df.header.pageSizes.length
  /-- A bit field whose word lies in its page fits. -/
  fields : m.build = .debug → ∀ name c pageIdx offset size lo hi,
    df.constants.get? name = some c → c.cls = .bits → c.shape = some (.bits lo hi) →
    Tune.location c = some (pageIdx, offset) → df.header.pageSizes[pageIdx]? = some size →
    offset + c.ty.size ≤ size.toNat → Fits 62 lo hi
  /-- A channel that is a bit field fits. -/
  channels : m.build = .debug → ∀ name ty offset lo hi,
    df.outputChannels.get? name = some (.bits ty offset lo hi) → Fits 63 lo hi

theorem Guarded.safe {df : IniDef F} (hg : Guarded m df) (t : Tune F) (ht : Over df t) :
    t.Safe m := by
  obtain ⟨rfl, hsized⟩ := ht
  have hfields : t.FieldsFit m := by
    intro hd name c p offset raw lo hi hc hcls hsh hl hraw
    obtain ⟨pageIdx, hloc, hp⟩ := Tune.located_eq_some.mp hl
    obtain ⟨size, hsize, hps⟩ := hsized.page hp
    have hin := (readRaw_eq_some.mp hraw).1
    rw [hps.data] at hin
    exact hg.fields hd name c pageIdx offset size lo hi hc hcls hsh hloc hsize hin
  refine ⟨Tune.symbolsAt_abortsOnly notTrap_expression hfields.abortsOnly notTrap_stackOverflow _,
    hfields, ?_⟩
  intro name c pageIdx offset hc hloc hw
  have hlt := hg.pages name c pageIdx offset hc hloc (Writes.mono (fun h => ⟨t, ⟨rfl, hsized⟩, h⟩) hw)
  rw [← hsized.pageCount] at hlt
  exact ⟨_, List.getElem?_eq_getElem hlt⟩

theorem Guarded.channel {df : IniDef F} (hg : Guarded m df) (tel : Telemetry F) (hdf : tel.df = df)
    (hextra : tel.ExtraAbortsOnly NotTrap) (name : String) : NoTrap (tel.channel m name) := by
  subst hdf
  have hfields : tel.FieldsAbortOnly m NotTrap := fun name ty offset lo hi raw hget _ =>
    bitsOf_noTrap_iff.mpr fun hd => hg.channels hd name ty offset lo hi hget
  have hsymbols : (tel.symbols m).AbortsOnly NotTrap :=
    Telemetry.symbolsAt_abortsOnly notTrap_expression hfields hextra notTrap_stackOverflow _
  exact Telemetry.channelWith_abortsOnly notTrap_expression hfields hsymbols name

/-! ### What has to be asked -/

def fileOf (name : String) (value : MsqValue F) : MsqFile F :=
  { MsqFile.empty with constants := IndexMap.empty.insert name value }

section Needed

variable {df : IniDef F} {name : String} {c : ConstantDef F}

theorem CrashFree.applyValue (h : CrashFree m df) {t : Tune F} (ht : Over df t)
    (hc : df.constants.get? name = some c) (value : MsqValue F) :
    NoTrap (applyValue m t name c value) := by
  have hc' : t.constant name = some c := by
    rw [Tune.constant, ht.df]
    exact hc
  have happly := h.apply t ht (fileOf name value) none
  have hfirst : NoTrap (applyConstant m none (.empty, t) (name, value)) :=
    (abortsOnly_bind.mp (abortsOnly_bind.mp happly).1).1
  simp only [applyConstant, passes, Bool.not_true, Bool.false_eq_true, if_false, hc'] at hfirst
  exact (abortsOnly_bind.mp hfirst).1

theorem CrashFree.fields (h : CrashFree m df) (hd : m.build = .debug) {pageIdx offset : ℕ}
    {size : UInt32} {lo hi : UInt8} (hc : df.constants.get? name = some c) (hcls : c.cls = .bits)
    (hsh : c.shape = some (.bits lo hi)) (hloc : Tune.location c = some (pageIdx, offset))
    (hsize : df.header.pageSizes[pageIdx]? = some size) (hin : offset + c.ty.size ≤ size.toNat) :
    Fits 62 lo hi := by
  have hc' : (Tune.new df).constant name = some c := hc
  have hpage : (Tune.new df).page pageIdx = some ⟨List.replicate size.toNat 0,
      List.replicate size.toNat 0, List.replicate size.toNat 0⟩ := by
    simp [Tune.page, Tune.new, hsize]
  have hraw : readRaw (List.replicate size.toNat 0) offset c.ty = some _ :=
    readRaw_of_le (by simpa using hin)
  have hdiff := h.diff (Tune.new df) ⟨rfl, Tune.sized_new df⟩ (fileOf name (.num 0))
  have hfirst : NoTrap (compare m (Tune.new df) name (.num 0)) :=
    (abortsOnly_bind.mp (abortsOnly_bind.mp hdiff).1).1
  simp only [compare, hc', hcls] at hfirst
  have hword := (abortsOnly_bind.mp hfirst).1
  rw [Tune.constantRaw_word hc' hcls hsh (Tune.located_eq_some.mpr ⟨pageIdx, hloc, hpage⟩) hraw]
    at hword
  exact fieldRaw_noTrap_iff.mp (abortsOnly_bind.mp hword).1 hd

theorem CrashFree.channels (h : CrashFree m df) (hd : m.build = .debug) {ty : DataType}
    {offset : UInt32} {lo hi : UInt8}
    (hget : df.outputChannels.get? name = some (.bits ty offset lo hi)) : Fits 63 lo hi := by
  have hchannel := h.channel (.new df (List.replicate (offset.toNat + ty.size) 0)) rfl nofun name
  have hraw : ∃ raw : F, Telemetry.readRaw (List.replicate (offset.toNat + ty.size) 0) offset.toNat ty
      = some raw := by
    rw [Telemetry.readRaw, slice?, if_pos (by simp)]
    exact ⟨_, rfl⟩
  obtain ⟨raw, hraw⟩ := hraw
  simp only [Telemetry.channel, Telemetry.channelWith, Telemetry.new, hget, hraw] at hchannel
  exact bitsOf_noTrap_iff.mp (abortsOnly_bind.mp hchannel).1 hd

theorem CrashFree.pages (h : CrashFree m df) {pageIdx offset : ℕ}
    (hc : df.constants.get? name = some c) (hloc : Tune.location c = some (pageIdx, offset))
    (hw : Writes c (∃ t : Tune F, Over df t ∧ t.Codes m c)) :
    pageIdx < df.header.pageSizes.length := by
  by_contra hge
  -- whatever reaches the page indexes out of bounds
  have hno {t : Tune F} (ht : Over df t) {α : Type} (f : PageState → Attempt α) :
      ¬ NoTrap (liftM (t.pageAt pageIdx) >>= f).run := by
    have hpage : t.page pageIdx = none := by
      rw [Tune.page, List.getElem?_eq_none_iff]
      have hcount : t.pages.length = _ := ht.sized.pageCount
      rw [hcount, ht.df]
      omega
    intro hx
    rw [Tune.pageAt, hpage] at hx
    exact (hx .indexOutOfBounds rfl).2 rfl
  have hc' {t : Tune F} (ht : Over df t) : (orError (.unknownConstant name) (t.constant name)).run =
      .ok (.ok c) := by
    rw [Tune.orError_eq_ok, Tune.constant, ht.df]
    exact hc
  have hloc' : (orError (.notEditable name "not a page constant") (Tune.location c)).run =
      .ok (.ok (pageIdx, offset)) := Tune.orError_eq_ok.mpr hloc
  rw [Writes] at hw
  split at hw
  · next hcls =>
    obtain ⟨t, ht, s, hcodes⟩ := hw
    have hval := h.applyValue ht hc (.num 0)
    simp only [Msq.applyValue, hcls] at hval
    have hset := (abortsOnly_bind.mp hval).1
    have hrest := (hset.after (hc' ht)).after hloc'
    simp only [hcls] at hrest
    exact hno ht _ (hrest.after (Tune.encode_ok.mpr ⟨s, hcodes, rfl⟩))
  · next hcls =>
    obtain ⟨hpos, t, ht, s, hcodes⟩ := hw
    have hval := h.applyValue ht hc (.array (List.replicate c.elementCount 0))
    simp only [Msq.applyValue, hcls, List.length_replicate, ne_eq, not_true_eq_false, if_false] at hval
    obtain ⟨n, hn⟩ := Nat.exists_eq_succ_of_ne_zero hpos.ne'
    rw [hn, List.replicate_succ, applyElements] at hval
    have hset := (abortsOnly_bind.mp hval).1
    have hrest := hset.after (hc' ht)
    simp only [hcls, ne_eq, not_true_eq_false, if_false, Nat.not_le.mpr hpos] at hrest
    exact hno ht _ ((hrest.after hloc').after (Tune.encode_ok.mpr ⟨s, hcodes, rfl⟩))
  · next hcls =>
    obtain ⟨lo, hi, hsh⟩ := hw
    have ht : Over df (Tune.new df) := ⟨rfl, Tune.sized_new df⟩
    have hval := h.applyValue ht hc (.num 0)
    simp only [Msq.applyValue, hcls, fileBitsIndex] at hval
    have hset := (abortsOnly_bind.mp hval).1
    have hrest := (hset.after (hc' ht)).after hloc'
    simp only [hcls, hsh] at hrest
    exact hno ht _ hrest
  · exact hw

end Needed

/-- **A definition cannot crash the tune exactly when it is guarded.** -/
theorem crashFree_iff (m : Machine) (df : IniDef F) : CrashFree m df ↔ Guarded m df := by
  constructor
  · intro h
    exact ⟨fun name c pageIdx offset hc hloc hw => h.pages hc hloc hw,
      fun hd name c pageIdx offset size lo hi hc hcls hsh hloc hsize hin =>
        h.fields hd hc hcls hsh hloc hsize hin,
      fun hd name ty offset lo hi hget => h.channels hd hget⟩
  · intro hg
    have hs := hg.safe
    exact {
      constantValue := fun t ht name => (hs t ht).constantValue name
      arrayValues := fun t ht name => (hs t ht).arrayValues name
      table := fun t ht id => (hs t ht).table id
      setConstant := fun t ht name user _ => (hs t ht).setConstantImpl name user true
      setArrayElement := fun t ht name index user _ =>
        (hs t ht).setArrayElementImpl name index user true
      setTableCell := fun t ht id row col value _ => (hs t ht).setTableCell id row col value
      diff := fun t ht file => diff_noTrap (hs t ht) file
      apply := fun t ht file names => apply_noTrap hs file names ht
      channel := fun tel hdf hextra name => hg.channel tel hdf hextra name }

/-! ## Definitions that crash -/

/-- A bit field whose ends are the wrong way round. -/
def reversedField : List Char :=
  "[Constants]\nnPages = 1\npageSize = 4\npage = 1\nspark = bits, U08, 0, [3:1], \"Off\", \"On\"".toList

/-- A scalar on a page there is not. -/
def secondPage : List Char :=
  "[Constants]\nnPages = 1\npageSize = 4\npage = 2\nidle = scalar, U08, 0, \"rpm\", 1, 0, 0, 255, 0".toList

/-- A channel that starts beyond its word. -/
def shiftedChannel : List Char := "[OutputChannels]\nstatus = bits, U08, 0, [64:64]".toList

/-- **There are definitions that crash the tune**: a bit field and a channel where overflow is detected,
a page in every build. -/
theorem parsed_not_crashFree :
    (¬ ∀ (m : Machine) (src : List Char) (df : IniDef XRat), (parse src).run = .ok (.ok df) →
      ∀ t : Tune XRat, Over df t → ∀ name, NoTrap (t.constantValue m name)) ∧
    (¬ ∀ (m : Machine) (src : List Char) (df : IniDef XRat), m.build = .release →
      (parse src).run = .ok (.ok df) → ∀ t : Tune XRat, Over df t → ∀ name user,
        F64.isFinite user = true → NoTrap (t.setConstant m name user).run) ∧
    ¬ ∀ (m : Machine) (src : List Char) (df : IniDef XRat), (parse src).run = .ok (.ok df) →
      ∀ block name, NoTrap ((Telemetry.new df block).channel m name) := by
  have htrap {α β : Type} {x : Exec α} {f : α → β} {e : Abort} (hx : x.map f = .error e)
      (hno : NoTrap x) : NotTrap e := by
    cases x with
    | ok a => exact nomatch hx
    | error e' => exact hno e (congrArg _ (Except.error.inj hx))
  refine ⟨fun h => ?_, fun h => ?_, fun h => ?_⟩
  · obtain ⟨df, hdf, hval⟩ : ∃ df : IniDef XRat, (parse reversedField).run = .ok (.ok df) ∧
        ((Tune.new df).constantValue ⟨.debug, 8⟩ "spark").map (fun _ => ()) = .error .overflow :=
      exists_parsed (by decide +kernel)
    exact (htrap hval (h _ _ df hdf _ ⟨rfl, Tune.sized_new df⟩ _)).1 rfl
  · obtain ⟨df, hdf, hset⟩ : ∃ df : IniDef XRat, (parse secondPage).run = .ok (.ok df) ∧
        ((Tune.new df).setConstant ⟨.release, 8⟩ "idle" 7).run.map (fun _ => ()) =
          .error .indexOutOfBounds := exists_parsed (by decide +kernel)
    exact (htrap hset (h _ _ df rfl hdf _ ⟨rfl, Tune.sized_new df⟩ _ 7 rfl)).2 rfl
  · obtain ⟨df, hdf, hchannel⟩ : ∃ df : IniDef XRat, (parse shiftedChannel).run = .ok (.ok df) ∧
        ((Telemetry.new df [0]).channel ⟨.debug, 8⟩ "status").map (fun _ => ()) = .error .overflow :=
      exists_parsed (by decide +kernel)
    exact (htrap hchannel (h _ _ df hdf _ _)).1 rfl

end RustyTune.TuneModel.Msq
