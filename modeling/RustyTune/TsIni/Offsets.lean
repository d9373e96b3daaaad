import RustyTune.Lib.XRat
import RustyTune.TsIni.Sections

/-!
# Offsets of definitions

A definition states its offset, or `lastOffset`, which is the offset of the definition before it.

* `Written`: what stands for an offset; `Entry`: what a line is to the offsets; `previous`: the offset
  of the definition before.
* `constantDef_yields`: a definition gets the offset that it states, or that of the parser's context.
* `constants_cursor`: in [Constants] the context is the definition before, page by page. In
  [OutputChannels] it is 0 throughout.
* `offset_kept`: what is defined stays, where no later line is of its key.
* **`lastOffset_iff`**: so a channel written `lastOffset` gets the offset of the one before exactly
  when that is 0. **`lastOffset_lost`**: it may be another.
-/

namespace RustyTune.TsIni

open Exec

/-! ## What is written -/

/-- What stands for an offset. -/
inductive Written
  /-- `lastOffset` -/
  | last
  | stated (n : UInt32)
  deriving DecidableEq, Repr

/-- The offset that is meant, where the definition before has that of `prev`. -/
def Written.meant (prev : UInt32) : Written → UInt32
  | last => prev
  | stated n => n

/-- What a line is to the offsets. -/
inductive Entry
  /-- `page = n` -/
  | page
  | definition (key : String) (w : Written)
  | other
  deriving DecidableEq, Repr

/-- The offset of the last definition, once an entry is read. -/
def follow (prev : Option UInt32) : Entry → Option UInt32
  | .page => none
  | .definition _ w => some (w.meant (prev.getD 0))
  | .other => prev

/-- **The offset of the definition before**, if there is one on the page or in the section. -/
def previous (entries : List Entry) : Option UInt32 := entries.foldl follow none

variable (F : Type) [F64 F]

/-- What stands for the offset of a definition; one that cannot be read is an error. -/
def written (num : ℕ) (tokens : List Token) : Written :=
  match (tokens[2]? : Option Token) with
  | some (.bare "lastOffset") => .last
  | some t => .stated (((numberOf num t : Except ParseError F).toOption.map F64.toU32).getD 0)
  | none => .stated 0

/-- Key and tokens of a line. -/
def keyTokens (line : Line) : Option (String × List Token) := (kv line ({} : IniDef F)).1

def constantsItem (line : Line) : Entry :=
  match keyTokens F line with
  | none => .other
  | some (key, tokens) =>
    if key = "page" then .page
    else if (constantClass tokens).isSome then .definition key (written F line.num tokens)
    else .other

def channelsItem (line : Line) : Entry :=
  match keyTokens F line with
  | none => .other
  | some (key, tokens) =>
    if key = "ochGetCommand" ∨ key = "ochBlockSize" then .other
    else if (constantClass tokens).isSome then .definition key (written F line.num tokens)
    else .other

/-- The offset of a channel that has one. -/
def OutputChannel.offset? {F : Type} : OutputChannel F → Option UInt32
  | .scalar _ offset .. | .bits _ offset .. => some offset
  | .derived .. => none

variable {F}

/-! ## One definition -/

omit [F64 F] in
theorem keyTokens_of_kv {line : Line} {df df' : IniDef F} {r : Option (String × List Token)}
    (h : kv line df = (r, df')) : keyTokens F line = r := by
  unfold keyTokens
  unfold kv at h ⊢
  split at h
  · exact congrArg Prod.fst h
  · split at h
    · exact congrArg Prod.fst h
    · exact congrArg Prod.fst h

theorem offsetOf_eq_ok {num : ℕ} {tokens : List Token} {t : Token} {prev n : UInt32}
    (ht : tokens[2]? = some t) (h : offsetOf (F := F) num prev t = .ok n) :
    n = (written F num tokens).meant prev := by
  unfold written
  rw [ht]
  unfold offsetOf at h
  split at h
  · exact (Except.ok.inj h).symm
  · next hlast =>
    obtain ⟨v, hv, h⟩ := except_bind_eq_ok.mp h
    split
    · next heq => exact absurd (Option.some.inj heq) hlast
    · next t' _ heq =>
      obtain rfl := Option.some.inj heq
      rw [hv]
      exact (Except.ok.inj h).symm
    · next heq => exact nomatch heq

/-- What is read after name, class and offset leaves them. -/
structure Keeps (c c' : ConstantDef F) : Prop where
  name : c'.name = c.name
  cls : c'.cls = c.cls
  offset : c'.offset = c.offset

omit [F64 F] in
theorem Keeps.refl (c : ConstantDef F) : Keeps c c := ⟨rfl, rfl, rfl⟩

omit [F64 F] in
theorem Keeps.trans {a b c : ConstantDef F} (hab : Keeps a b) (hbc : Keeps b c) : Keeps a c :=
  ⟨hbc.name.trans hab.name, hbc.cls.trans hab.cls, hbc.offset.trans hab.offset⟩

theorem flag_yields (line : ℕ) (c : ConstantDef F) (t : Token) :
    Yields (flag line c t) (Keeps c) := by
  unfold flag
  split
  · exact yields_pure ⟨rfl, rfl, rfl⟩
  · split_ifs
    · exact yields_pure (.refl c)
    · split
      · exact yields_bind fun _ => yields_pure ⟨rfl, rfl, rfl⟩
      · exact yields_bind fun _ => yields_pure ⟨rfl, rfl, rfl⟩

theorem flags_yields (line : ℕ) (tokens : List Token) (c : ConstantDef F) :
    Yields (tokens.foldlM (flag line) c) (Keeps c) := by
  induction tokens generalizing c with
  | nil => exact yields_pure (.refl c)
  | cons t tokens ih =>
    rw [List.foldlM_cons]
    refine (flag_yields line c t).bind fun c' hc' c'' hc'' => ?_
    exact hc'.trans (ih c' c'' hc'')

theorem constantTail_yields (c : ConstantDef F) (tokens : List Token) (idx line : ℕ) :
    Yields (constantTail c tokens idx line) (Keeps c) := by
  unfold constantTail
  refine yields_bind fun _ => yields_bind fun _ => yields_bind fun _ => yields_bind fun _ =>
    yields_bind fun _ => fun c' hc' => ?_
  have hkeeps := flags_yields line _ _ c' hc'
  exact ⟨hkeeps.name, hkeeps.cls, hkeeps.offset⟩

theorem constantFields_yields (c : ConstantDef F) (tokens : List Token) (idx line : ℕ) :
    Yields (constantFields c tokens idx line) (Keeps c) := by
  unfold constantFields
  split
  · split
    · exact yields_bind fun _ => yields_pure ⟨rfl, rfl, rfl⟩
    · exact yields_throw _
  · refine yields_bind fun shape => ?_
    split
    · exact yields_bind fun _ => yields_pure ⟨rfl, rfl, rfl⟩
    · exact yields_throw _
  · refine yields_bind fun shape c' hc' => ?_
    have hkeeps := constantTail_yields _ _ _ _ c' hc'
    exact ⟨hkeeps.name, hkeeps.cls, hkeeps.offset⟩
  · exact constantTail_yields _ _ _ _

/-- **A definition gets the offset that is written**, in the parser's context. -/
theorem constantDef_yields (name : String) (cls : ConstantClass) (tokens : List Token)
    (page : Option UInt8) (prev : UInt32) (line : ℕ) :
    Yields (constantDef name cls tokens page (some prev) line : Parse (ConstantDef F)) fun c =>
      c.cls = cls ∧ c.offset = some ((written F line tokens).meant prev) := by
  unfold constantDef
  refine yields_bind fun ty => ?_
  dsimp only
  split
  · exact yields_throw _
  · next t ht =>
    intro c hc
    obtain ⟨n, hn, hc⟩ := attempt_bind_eq_ok.mp hc
    have hkeeps := constantFields_yields _ _ _ _ c hc
    rw [← offsetOf_eq_ok (F := F) ht (Except.ok.inj hn)]
    exact ⟨hkeeps.cls, hkeeps.offset⟩

/-! ## Sections -/

section Lines

variable {σ : Type} {entry : ℕ → String → List Token → σ → IniDef F → Parse (σ × IniDef F)}

omit [F64 F] in
/-- **The rule for sections.** What one line preserves, a section preserves. -/
theorem eachLine_yields {I : List Line → σ → IniDef F → Prop}
    (hskip : ∀ pre line s df df', kv line df = (none, df') → I pre s df → I (pre ++ [line]) s df')
    (hentry : ∀ pre line key tokens s df df', kv line df = (some (key, tokens), df') → I pre s df →
      Yields (entry line.num key tokens s df') fun r => I (pre ++ [line]) r.1 r.2)
    (lines pre : List Line) (s : σ) (df : IniDef F) (h : I pre s df) :
    Yields (eachLine entry lines s df) fun r => I (pre ++ lines) r.1 r.2 := by
  induction lines generalizing pre s df with
  | nil => exact yields_pure (by rwa [List.append_nil])
  | cons line lines ih =>
    have hassoc : pre ++ line :: lines = pre ++ [line] ++ lines := by
      rw [List.append_assoc, List.singleton_append]
    rw [eachLine, hassoc]
    split
    · next hkv => exact ih _ _ _ (hskip _ _ _ _ _ hkv h)
    · next hkv => exact (hentry _ _ _ _ _ _ _ hkv h).bind fun r hr => ih _ _ _ hr

end Lines

theorem previous_concat (entries : List Entry) (e : Entry) :
    previous (entries ++ [e]) = follow (previous entries) e := List.foldl_concat ..

/-- The offset of the definition before the line that follows, 0 where there is none. -/
def offsetBefore (item : Line → Entry) (pre : List Line) : UInt32 :=
  (previous (pre.map item)).getD 0

/-- What holds of the definition in the last line, if there is one. -/
def OfLast (item : Line → Entry) (P : List Line → String → Written → Prop) (lines : List Line) : Prop :=
  ∀ pre line key w, lines = pre ++ [line] → item line = .definition key w → P pre key w

section OfLast

variable {item : Line → Entry} {P : List Line → String → Written → Prop} {pre : List Line} {line : Line}

theorem ofLast_nil : OfLast item P [] := fun pre line _ _ h =>
  absurd h.symm (List.append_ne_nil_of_right_ne_nil pre (List.cons_ne_nil line []))

theorem ofLast_of_ne (h : ∀ key w, item line ≠ .definition key w) :
    OfLast item P (pre ++ [line]) := by
  intro pre' line' key w hlines hitem
  obtain ⟨-, hline⟩ := List.append_inj' hlines rfl
  obtain rfl := List.singleton_inj.mp hline
  exact absurd hitem (h key w)

theorem ofLast_of_eq {key : String} {w : Written} (h : item line = .definition key w)
    (hP : P pre key w) : OfLast item P (pre ++ [line]) := by
  intro pre' line' key' w' hlines hitem
  obtain ⟨rfl, hline⟩ := List.append_inj' hlines rfl
  obtain rfl := List.singleton_inj.mp hline
  obtain ⟨rfl, rfl⟩ := Entry.definition.inj (h.symm.trans hitem)
  exact hP

end OfLast

/-! ## [Constants] -/

/-- A constant has the offset that is meant. -/
def ConstantMeant (df : IniDef F) (pre : List Line) (key : String) (w : Written) : Prop :=
  ∃ c, df.constants.get? key = some c ∧ c.offset = some (w.meant (offsetBefore (constantsItem F) pre))

/-- **The cursor is at the definition before**, page by page. -/
theorem constants_cursor (lines : List Line) (df : IniDef F) :
    Yields (eachLine constantsEntry lines {} df) fun r =>
      r.1.lastOffset = previous (lines.map (constantsItem F)) ∧
        OfLast (constantsItem F) (ConstantMeant r.2) lines := by
  refine eachLine_yields (I := fun lines (s : PageCursor) df =>
    s.lastOffset = previous (lines.map (constantsItem F)) ∧
      OfLast (constantsItem F) (ConstantMeant df) lines) ?_ ?_ lines [] {} df ⟨rfl, ofLast_nil⟩
  · rintro pre line s df df' hkv ⟨hs, -⟩
    have hitem : constantsItem F line = .other := by rw [constantsItem, keyTokens_of_kv hkv]
    rw [List.map_append, List.map_singleton, previous_concat, hitem]
    exact ⟨hs, ofLast_of_ne fun key w h => nomatch hitem.symm.trans h⟩
  · rintro pre line key tokens s df df' hkv ⟨hs, -⟩
    have hitem : constantsItem F line = if key = "page" then .page
        else if (constantClass tokens).isSome then .definition key (written F line.num tokens)
        else .other := by rw [constantsItem, keyTokens_of_kv hkv]
    rw [List.map_append, List.map_singleton, previous_concat]
    unfold constantsEntry
    split_ifs with hpage
    · rw [if_pos hpage] at hitem
      rw [hitem]
      exact yields_bind fun _ => yields_bind fun _ => yields_pure
        ⟨rfl, ofLast_of_ne fun key w h => nomatch hitem.symm.trans h⟩
    · rw [if_neg hpage] at hitem
      cases hcls : constantClass tokens with
      | none =>
        rw [hcls] at hitem
        have hother : constantsItem F line = .other := hitem
        rw [hother]
        exact yields_bind fun _ => yields_pure
          ⟨hs, ofLast_of_ne fun key w h => nomatch hother.symm.trans h⟩
      | some cls =>
        rw [hcls] at hitem
        have hdef : constantsItem F line = .definition key (written F line.num tokens) := hitem
        rw [hdef]
        dsimp only
        split
        · exact yields_throw _
        · next page _ =>
          refine (constantDef_yields key cls tokens (some page) _ line.num).bind fun c hc => ?_
          have hoffset : c.offset = some ((written F line.num tokens).meant
              (offsetBefore (constantsItem F) pre)) := hc.2.trans (by rw [hs]; rfl)
          refine yields_pure ⟨hoffset, ofLast_of_eq hdef ⟨c, ?_, hoffset⟩⟩
          dsimp only
          rw [IndexMap.get?_insert, if_pos rfl]

/-! ## [OutputChannels] -/

omit [F64 F] in
theorem offset?_channelOf {num : ℕ} {c : ConstantDef F} {ch : OutputChannel F}
    (h : channelOf num c = .ok ch) : ch.offset? = some (c.offset.getD 0) := by
  unfold channelOf at h
  split at h
  · rw [← Except.ok.inj h]
    rfl
  · exact nomatch h
  · rw [← Except.ok.inj h]
    rfl

def ChannelAt (df : IniDef F) (key : String) (offset : UInt32) : Prop :=
  ∃ ch, df.outputChannels.get? key = some ch ∧ ch.offset? = some offset

theorem outputChannelsEntry_yields {line : Line} {key : String} {tokens : List Token}
    (hkey : keyTokens F line = some (key, tokens)) (pre : List Line) (df : IniDef F) :
    Yields (outputChannelsEntry line.num key tokens df) fun df' =>
      OfLast (channelsItem F) (fun _ key w => ChannelAt df' key (w.meant 0)) (pre ++ [line]) := by
  have hitem : channelsItem F line = if key = "ochGetCommand" ∨ key = "ochBlockSize" then .other
      else if (constantClass tokens).isSome then .definition key (written F line.num tokens)
      else .other := by rw [channelsItem, hkey]
  have hother (h : channelsItem F line = .other) (df' : IniDef F) :
      OfLast (channelsItem F) (fun _ key w => ChannelAt df' key (w.meant 0)) (pre ++ [line]) :=
    ofLast_of_ne fun key w h' => nomatch h.symm.trans h'
  unfold outputChannelsEntry
  split
  · exact yields_bind fun _ => yields_pure (hother hitem _)
  · exact yields_bind fun _ => yields_pure (hother hitem _)
  · next hget hsize =>
    rw [if_neg (not_or.mpr ⟨hget, hsize⟩)] at hitem
    split
    · next src hhead =>
      have hcls : constantClass tokens = none := by rw [constantClass, hhead]
      rw [hcls] at hitem
      exact yields_bind fun _ => yields_pure (hother hitem _)
    · cases hcls : constantClass tokens with
      | none =>
        rw [hcls] at hitem
        exact yields_pure (hother hitem _)
      | some cls =>
        rw [hcls] at hitem
        refine (constantDef_yields key cls tokens none 0 line.num).bind fun c hc => ?_
        intro df' hdf'
        obtain ⟨ch, hch, hdf'⟩ := attempt_bind_eq_ok.mp hdf'
        obtain rfl := Except.ok.inj (Except.ok.inj hdf')
        refine ofLast_of_eq hitem ⟨ch, ?_, ?_⟩
        · dsimp only
          rw [IndexMap.get?_insert, if_pos rfl]
        · rw [offset?_channelOf (Except.ok.inj hch), hc.2]
          rfl

/-- **A channel that is defined gets the offset it states**, and 0 for `lastOffset`. -/
theorem outputChannels_last (lines : List Line) (df : IniDef F) :
    Yields (outputChannels lines df) fun df' =>
      OfLast (channelsItem F) (fun _ key w => ChannelAt df' key (w.meant 0)) lines := by
  unfold outputChannels eachEntry
  refine (eachLine_yields (I := fun lines (_ : Unit) df =>
    OfLast (channelsItem F) (fun _ key w => ChannelAt df key (w.meant 0)) lines)
    ?_ ?_ lines [] () df ofLast_nil).bind fun r hr => yields_pure hr
  · intro pre line _ df df' hkv _
    have hitem : channelsItem F line = .other := by rw [channelsItem, keyTokens_of_kv hkv]
    exact ofLast_of_ne fun key w h => nomatch hitem.symm.trans h
  · intro pre line key tokens _ df df' hkv _
    exact (outputChannelsEntry_yields (keyTokens_of_kv hkv) pre df').bind fun df'' h => yields_pure h

/-! ## The offset before -/

/-- **`lastOffset` is the offset of the definition before** in [Constants], page by page; in
[OutputChannels] an entry has the offset that is meant exactly when it is stated, or the offset of
the definition before is 0. -/
theorem lastOffset_iff :
    (∀ (pre : List Line) (line : Line) (df df' : IniDef F) (key : String) (w : Written),
      (constants (pre ++ [line]) df).run = .ok (.ok df') →
      constantsItem F line = .definition key w → ConstantMeant df' pre key w) ∧
    ∀ (pre : List Line) (line : Line) (df df' : IniDef F) (key : String) (w : Written),
      (outputChannels (pre ++ [line]) df).run = .ok (.ok df') →
      channelsItem F line = .definition key w →
      (ChannelAt df' key (w.meant (offsetBefore (channelsItem F) pre)) ↔
        (w = .last → offsetBefore (channelsItem F) pre = 0)) := by
  refine ⟨fun pre line df df' key w hrun hitem => ?_, fun pre line df df' key w hrun hitem => ?_⟩
  · obtain ⟨r, hr, hdf'⟩ := attempt_bind_eq_ok.mp hrun
    obtain rfl := Except.ok.inj (Except.ok.inj hdf')
    exact (constants_cursor _ _ r hr).2 pre line key w rfl hitem
  · obtain ⟨ch, hget, hoffset⟩ := outputChannels_last _ _ df' hrun pre line key w rfl hitem
    have hat : ChannelAt df' key (w.meant (offsetBefore (channelsItem F) pre)) ↔
        w.meant (offsetBefore (channelsItem F) pre) = w.meant 0 := by
      constructor
      · rintro ⟨ch', hget', hoffset'⟩
        obtain rfl := Option.some.inj (hget.symm.trans hget')
        exact Option.some.inj (hoffset'.symm.trans hoffset)
      · intro heq
        exact ⟨ch, hget, heq ▸ hoffset⟩
    rw [hat]
    cases w with
    | last => exact ⟨fun h _ => h, fun h => h rfl⟩
    | stated n => exact iff_of_true rfl (fun h => nomatch h)

/-! ## Lines behind a definition -/

omit [F64 F] in
/-- Lines in two parts are read one part after the other. -/
theorem eachLine_append {σ : Type} {entry : ℕ → String → List Token → σ → IniDef F → Parse (σ × IniDef F)}
    (pre post : List Line) (s : σ) (df : IniDef F) :
    eachLine entry (pre ++ post) s df = eachLine entry pre s df >>= fun r => eachLine entry post r.1 r.2 := by
  induction pre generalizing s df with
  | nil => rfl
  | cons line pre ih =>
    rw [List.cons_append, eachLine, eachLine]
    split
    · exact ih s _
    · rw [bind_assoc]
      exact bind_congr fun r => ih r.1 r.2

/-- No line is of this key. -/
def Elsewhere (F : Type) (key : String) (lines : List Line) : Prop :=
  ∀ line ∈ lines, ∀ tokens, keyTokens F line ≠ some (key, tokens)

omit [F64 F] in
theorem entries_of_kv {line : Line} {df df' : IniDef F} {r : Option (String × List Token)}
    (h : kv line df = (r, df')) :
    df'.constants = df.constants ∧ df'.outputChannels = df.outputChannels := by
  unfold kv at h
  split at h
  · obtain rfl := (Prod.mk.inj h).2
    exact ⟨rfl, rfl⟩
  · split at h <;>
    · obtain rfl := (Prod.mk.inj h).2
      exact ⟨rfl, rfl⟩

omit [F64 F] in
theorem eachLine_elsewhere {β σ : Type} {f : IniDef F → β} {key : String}
    {entry : ℕ → String → List Token → σ → IniDef F → Parse (σ × IniDef F)}
    (hkv : ∀ line df df' r, kv line df = (r, df') → f df' = f df)
    (hentry : ∀ key', key' ≠ key → ∀ num tokens s df,
      Yields (entry num key' tokens s df) fun r => f r.2 = f df)
    (lines : List Line) (s : σ) (df : IniDef F) (helse : Elsewhere F key lines) :
    Yields (eachLine entry lines s df) fun r => f r.2 = f df := by
  suffices hrun : Yields (eachLine entry lines s df) fun r => Elsewhere F key lines → f r.2 = f df from
    fun r hr => hrun r hr helse
  refine eachLine_yields (I := fun pre _ df' => Elsewhere F key pre → f df' = f df)
    (fun pre line _ df₁ df₂ hline h helse => ?_) (fun pre line key' tokens s₁ df₁ df₂ hline h => ?_)
    lines [] s df fun _ => rfl
  · exact (hkv _ _ _ _ hline).trans (h fun l hl => helse l (List.mem_append_left _ hl))
  · intro r hr helse
    have hne : key' ≠ key := by
      rintro rfl
      exact helse line (List.mem_append_right _ (List.mem_singleton_self _)) tokens (keyTokens_of_kv hline)
    rw [hentry key' hne line.num tokens s₁ df₂ r hr, hkv _ _ _ _ hline]
    exact h fun l hl => helse l (List.mem_append_left _ hl)

theorem constantsEntry_elsewhere {key key' : String} (hne : key' ≠ key) (num : ℕ) (tokens : List Token)
    (s : PageCursor) (df : IniDef F) : Yields (constantsEntry num key' tokens s df) fun r =>
      r.2.constants.get? key = df.constants.get? key := by
  unfold constantsEntry
  split_ifs
  · exact yields_bind fun _ => yields_bind fun _ => yields_pure rfl
  · split
    · split
      · exact yields_throw _
      · refine yields_bind fun c => yields_pure ?_
        dsimp only
        rw [IndexMap.get?_insert, if_neg hne.symm]
    · exact yields_bind fun _ => yields_pure rfl

theorem outputChannelsEntry_elsewhere {key key' : String} (hne : key' ≠ key) (num : ℕ)
    (tokens : List Token) (df : IniDef F) : Yields (outputChannelsEntry num key' tokens df) fun df' =>
      df'.outputChannels.get? key = df.outputChannels.get? key := by
  unfold outputChannelsEntry
  split
  · exact yields_bind fun _ => yields_pure rfl
  · exact yields_bind fun _ => yields_pure rfl
  · split
    · refine yields_bind fun _ => yields_pure ?_
      dsimp only
      rw [IndexMap.get?_insert, if_neg hne.symm]
    · split
      · exact yields_pure rfl
      · refine yields_bind fun _ => yields_bind fun _ => yields_pure ?_
        dsimp only
        rw [IndexMap.get?_insert, if_neg hne.symm]

/-- **The first lines of [Constants] are accepted with all of them**, and what they define stays where no
later line is of its key. -/
theorem constants_append {pre post : List Line} {df df' : IniDef F}
    (h : (constants (pre ++ post) df).run = .ok (.ok df')) :
    ∃ df₁, (constants pre df).run = .ok (.ok df₁) ∧
      ∀ key, Elsewhere F key post → df'.constants.get? key = df₁.constants.get? key := by
  obtain ⟨r, hr, hdf'⟩ := attempt_bind_eq_ok.mp h
  obtain rfl := Except.ok.inj (Except.ok.inj hdf')
  rw [eachLine_append, attempt_bind_eq_ok] at hr
  obtain ⟨r₁, hpre, hpost⟩ := hr
  refine ⟨r₁.2, attempt_bind_eq_ok.mpr ⟨r₁, hpre, rfl⟩, fun key helse => ?_⟩
  exact eachLine_elsewhere (f := fun df => df.constants.get? key)
    (fun _ _ _ _ hkv => congrArg (·.get? key) (entries_of_kv hkv).1)
    (fun key' hne num tokens s df => constantsEntry_elsewhere hne num tokens s df)
    post r₁.1 r₁.2 helse r hpost

/-- **The first lines of [OutputChannels] are accepted with all of them**, and what they define stays
where no later line is of its key. -/
theorem outputChannels_append {pre post : List Line} {df df' : IniDef F}
    (h : (outputChannels (pre ++ post) df).run = .ok (.ok df')) :
    ∃ df₁, (outputChannels pre df).run = .ok (.ok df₁) ∧
      ∀ key, Elsewhere F key post → df'.outputChannels.get? key = df₁.outputChannels.get? key := by
  obtain ⟨r, hr, hdf'⟩ := attempt_bind_eq_ok.mp h
  obtain rfl := Except.ok.inj (Except.ok.inj hdf')
  rw [eachLine_append, attempt_bind_eq_ok] at hr
  obtain ⟨r₁, hpre, hpost⟩ := hr
  refine ⟨r₁.2, attempt_bind_eq_ok.mpr ⟨r₁, hpre, rfl⟩, fun key helse => ?_⟩
  exact eachLine_elsewhere (f := fun df => df.outputChannels.get? key)
    (fun _ _ _ _ hkv => congrArg (·.get? key) (entries_of_kv hkv).2)
    (fun key' hne num tokens s df => (outputChannelsEntry_elsewhere hne num tokens df).bind
      fun df' hdf' => yields_pure hdf')
    post r₁.1 r₁.2 helse r hpost

/-- **A definition keeps its offset to the end of the section** when no later line is of its key: in
[Constants] the one that is meant, in [OutputChannels] the one that is meant behind offset 0. -/
theorem offset_kept {pre post : List Line} {line : Line} {df df' : IniDef F} {key : String} {w : Written}
    (helse : Elsewhere F key post) :
    ((constants (pre ++ line :: post) df).run = .ok (.ok df') →
      constantsItem F line = .definition key w → ConstantMeant df' pre key w) ∧
    ((outputChannels (pre ++ line :: post) df).run = .ok (.ok df') →
      channelsItem F line = .definition key w → ChannelAt df' key (w.meant 0)) := by
  have hassoc : pre ++ line :: post = (pre ++ [line]) ++ post := by simp
  rw [hassoc]
  refine ⟨fun hrun hitem => ?_, fun hrun hitem => ?_⟩
  · obtain ⟨df₁, hpre, hkeep⟩ := constants_append hrun
    obtain ⟨r, hr, hdf₁⟩ := attempt_bind_eq_ok.mp hpre
    obtain rfl := Except.ok.inj (Except.ok.inj hdf₁)
    obtain ⟨c, hget, hoffset⟩ := (constants_cursor _ _ r hr).2 pre line key w rfl hitem
    exact ⟨c, (hkeep key helse).trans hget, hoffset⟩
  · obtain ⟨df₁, hpre, hkeep⟩ := outputChannels_append hrun
    obtain ⟨ch, hget, hoffset⟩ := outputChannels_last _ _ df₁ hpre pre line key w rfl hitem
    exact ⟨ch, (hkeep key helse).trans hget, hoffset⟩

/-! ## Two definitions -/

def accepted {α : Type} (x : Parse α) : Bool :=
  match x.run with
  | .ok (.ok _) => true
  | _ => false

theorem exists_of_accepted {α : Type} {x : Parse α} (h : accepted x = true) :
    ∃ a, x.run = .ok (.ok a) := by
  unfold accepted at h
  split at h
  · next a ha => exact ⟨a, ha⟩
  · exact nomatch h

def pageLine : Line := ⟨1, "page = 1".toList⟩

def firstLine : Line := ⟨2, "first = scalar, U08, 5, \"\", 1, 0".toList⟩

/-- A definition that is to be where the one before is. -/
def secondLine : Line := ⟨3, "second = scalar, U08, lastOffset, \"\", 1, 0".toList⟩

theorem lastOffset_iff_second :
    ∃ df', (constants ([pageLine, firstLine] ++ [secondLine]) ({} : IniDef XRat)).run = .ok (.ok df') ∧
      ConstantMeant df' [pageLine, firstLine] "second" .last := by
  obtain ⟨df', hrun⟩ : ∃ df', (constants ([pageLine, firstLine] ++ [secondLine])
      ({} : IniDef XRat)).run = .ok (.ok df') := exists_of_accepted (by decide +kernel)
  exact ⟨df', hrun, lastOffset_iff.1 _ _ _ _ _ _ hrun (by decide +kernel)⟩

/-- **An offset may be lost.** A channel at `lastOffset` behind one at 5 is at 0. -/
theorem lastOffset_lost : ¬ ∀ (pre : List Line) (line : Line) (df df' : IniDef XRat) (key : String)
    (w : Written), (outputChannels (pre ++ [line]) df).run = .ok (.ok df') →
    channelsItem XRat line = .definition key w →
    ChannelAt df' key (w.meant (offsetBefore (channelsItem XRat) pre)) := by
  intro h
  obtain ⟨df', hrun⟩ : ∃ df', (outputChannels ([firstLine] ++ [secondLine])
      ({} : IniDef XRat)).run = .ok (.ok df') := exists_of_accepted (by decide +kernel)
  have hitem : channelsItem XRat secondLine = .definition "second" .last := by decide +kernel
  obtain ⟨ch, hget, hoffset⟩ := h _ _ _ _ _ _ hrun hitem
  obtain ⟨ch', hget', hoffset'⟩ := outputChannels_last _ _ df' hrun _ _ _ _ rfl hitem
  obtain rfl := Option.some.inj (hget.symm.trans hget')
  exact absurd (Option.some.inj (hoffset.symm.trans hoffset')) (by decide +kernel)

end RustyTune.TsIni
