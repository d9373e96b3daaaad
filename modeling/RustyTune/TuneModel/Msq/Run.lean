import RustyTune.TuneModel.Msq.Turn

/-!
# A run over a file

* `applyConstant_cases`: the turn of an entry that passes the filter.
* `pcVariables_stay`: the variables of the file touch no page.
* **`apply_single`**: an application restricted to one constant is the turn of that constant.
-/

namespace RustyTune.TuneModel.Msq

open TsIni Exec

variable {F : Type}

theorem entries_split {file : MsqFile F} {k : ℕ} {e : String × MsqValue F}
    (he : file.constants.entries[k]? = some e) : file.constants.entries =
      file.constants.entries.take k ++ e :: file.constants.entries.drop (k + 1) := by
  obtain ⟨hk, rfl⟩ := List.getElem?_eq_some_iff.mp he
  rw [List.getElem_cons_drop, List.take_append_drop]

theorem nodup_around {file : MsqFile F} {k : ℕ} {e : String × MsqValue F}
    (he : file.constants.entries[k]? = some e) :
    e.1 ∉ (file.constants.entries.take k).map Prod.fst ∧
      e.1 ∉ (file.constants.entries.drop (k + 1)).map Prod.fst := by
  have hnd := file.constants.nodup
  rw [entries_split he, List.map_append, List.map_cons, List.nodup_append, List.nodup_cons] at hnd
  exact ⟨fun h => hnd.2.2 _ h _ List.mem_cons_self rfl, hnd.2.1.1⟩

variable [F64 F] {m : Machine} {names : Option (List String)}

/-- What the turn of an entry that passes does to report and tune. -/
theorem applyConstant_cases {s s' : ApplyReport × Tune F} {e : String × MsqValue F}
    (hpass : passes names e.1 = true) (h : applyConstant m names s e = .ok s') :
    (s.2.constant e.1 = none ∧ s'.2 = s.2 ∧
        ∃ text, s'.1 = ⟨s.1.applied, s.1.skipped ++ [(e.1, text)]⟩) ∨
      ∃ c r, s.2.constant e.1 = some c ∧ applyValue m s.2 e.1 c e.2 = .ok (r, s'.2) ∧
        ((r = .ok () ∧ s'.1 = ⟨s.1.applied + 1, s.1.skipped⟩) ∨
          ((∃ er, r = .error er) ∧
            ∃ text, s'.1 = ⟨s.1.applied, s.1.skipped ++ [(e.1, text)]⟩)) := by
  simp only [applyConstant, hpass, Bool.not_true, Bool.false_eq_true, if_false] at h
  rcases hc : s.2.constant e.1 with - | c
  · rw [hc] at h
    rw [← pure_eq_ok.mp h]
    exact Or.inl ⟨rfl, rfl, _, rfl⟩
  · rw [hc] at h
    obtain ⟨⟨r, t'⟩, hturn, h⟩ := bind_eq_ok.mp h
    cases r with
    | ok u =>
      rw [← pure_eq_ok.mp h]
      exact Or.inr ⟨c, _, rfl, hturn, Or.inl ⟨rfl, rfl⟩⟩
    | error er =>
      rw [← pure_eq_ok.mp h]
      exact Or.inr ⟨c, _, rfl, hturn, Or.inr ⟨⟨er, rfl⟩, _, rfl⟩⟩

theorem applyConstant_of_not_passes {s : ApplyReport × Tune F} {e : String × MsqValue F}
    (hpass : passes names e.1 = false) : applyConstant m names s e = .ok s := by
  simp only [applyConstant, hpass, Bool.not_false, if_true]
  rfl

/-! ## Variables -/

/-- What the variables of a file leave as it was. -/
structure PcStay (names : Option (List String)) (s s' : ApplyReport × Tune F) : Prop where
  skipped : s'.1.skipped = s.1.skipped
  df : s'.2.df = s.2.df
  pages : s'.2.pages = s.2.pages
  pcValues : ∀ k, passes names k = false → s'.2.pcValues.get? k = s.2.pcValues.get? k

omit [F64 F] in
theorem PcStay.trans {s s' s'' : ApplyReport × Tune F} (h : PcStay names s s')
    (h' : PcStay names s' s'') : PcStay names s s'' :=
  ⟨h'.skipped.trans h.skipped, h'.df.trans h.df, h'.pages.trans h.pages,
    fun k hk => (h'.pcValues k hk).trans (h.pcValues k hk)⟩

theorem setPcValue_ok {t t' : Tune F} {name : String} {user : F}
    (h : (t.setPcValue m name user).run = .ok (.ok t')) :
    ∃ x, t' = { t with pcValues := t.pcValues.insert name x } := by
  simp only [Tune.setPcValue, attempt_bind_eq_ok, Tune.pure_eq_ok_ok] at h
  obtain ⟨c, -, x, -, rfl⟩ := h
  exact ⟨x, rfl⟩

theorem pcVariable_stay {s s' : ApplyReport × Tune F} {e : String × MsqValue F}
    (h : applyPcVariable m names s e = .ok s') : PcStay names s s' := by
  have hsame : s = s' → PcStay names s s' := by
    rintro rfl
    exact ⟨rfl, rfl, rfl, fun _ _ => rfl⟩
  simp only [applyPcVariable] at h
  split at h
  · exact hsame (pure_eq_ok.mp h)
  · rename_i hpass
    split at h
    · exact hsame (pure_eq_ok.mp h)
    · obtain ⟨r, hrun, h⟩ := bind_eq_ok.mp h
      cases r with
      | error _ => exact hsame (pure_eq_ok.mp h)
      | ok t' =>
        obtain ⟨x, rfl⟩ := setPcValue_ok hrun
        rw [← pure_eq_ok.mp h]
        refine ⟨rfl, rfl, rfl, fun k hk => ?_⟩
        have hne : k ≠ e.1 := by
          rintro rfl
          simp [hk] at hpass
        rw [IndexMap.get?_insert, if_neg hne]

/-- **The variables of a file touch no page.** -/
theorem pcVariables_stay : ∀ {es : List (String × MsqValue F)} {s s' : ApplyReport × Tune F},
    es.foldlM (applyPcVariable m names) s = .ok s' → PcStay names s s'
  | [], s, s', h => by
    rw [List.foldlM_nil, pure_eq_ok] at h
    rw [h]
    exact ⟨rfl, rfl, rfl, fun _ _ => rfl⟩
  | e :: es, s, s', h => by
    rw [List.foldlM_cons, bind_eq_ok] at h
    obtain ⟨s₁, hstep, h⟩ := h
    exact (pcVariable_stay hstep).trans (pcVariables_stay h)

/-! ## One constant -/

theorem applyConstants_of_not_pass : ∀ {es : List (String × MsqValue F)} {s : ApplyReport × Tune F},
    (∀ e ∈ es, passes names e.1 = false) → applyConstants m names es s = .ok s
  | [], _, _ => rfl
  | e :: es, s, h => by
    rw [applyConstants, List.foldlM_cons, applyConstant_of_not_passes (h e List.mem_cons_self)]
    exact applyConstants_of_not_pass fun e' he' => h e' (List.mem_cons_of_mem _ he')

theorem passes_single {name k : String} : passes (some [name]) k = false ↔ k ≠ name := by
  simp [passes]

/-- **An application restricted to one constant is its turn.** -/
theorem apply_single {file : MsqFile F} {t t' : Tune F} {report : ApplyReport} {name : String}
    {value : MsqValue F} {c : ConstantDef F} (hmem : (name, value) ∈ file.constants.entries)
    (hc : t.constant name = some c) (h : apply m file t (some [name]) = .ok (report, t')) :
    ∃ r tc, applyValue m t name c value = .ok (r, tc) ∧ t'.df = tc.df ∧ t'.pages = tc.pages ∧
      ∀ k ≠ name, t'.pcValues.get? k = tc.pcValues.get? k := by
  obtain ⟨k, hk⟩ := List.getElem?_of_mem hmem
  obtain ⟨hpre, hpost⟩ := nodup_around hk
  have hno : ∀ es : List (String × MsqValue F), name ∉ es.map Prod.fst →
      ∀ e ∈ es, passes (some [name]) e.1 = false := fun es hes e he =>
    passes_single.mpr fun hname => hes (List.mem_map.mpr ⟨e, he, hname⟩)
  rw [apply, bind_eq_ok, entries_split hk] at h
  obtain ⟨s, hconst, hpc⟩ := h
  rw [applyConstants, List.foldlM_append, bind_eq_ok] at hconst
  obtain ⟨s₀, hs₀, hconst⟩ := hconst
  obtain rfl := Except.ok.inj ((applyConstants_of_not_pass (hno _ hpre)).symm.trans hs₀)
  rw [List.foldlM_cons, bind_eq_ok] at hconst
  obtain ⟨s₁, hstep, hrest⟩ := hconst
  obtain rfl := Except.ok.inj ((applyConstants_of_not_pass (hno _ hpost)).symm.trans hrest)
  have hstay := pcVariables_stay hpc
  have hpass : passes (some [name]) name = true := by simp [passes]
  rcases applyConstant_cases hpass hstep with ⟨hnone, -⟩ | ⟨c', r, hc', hturn, -⟩
  · exact absurd (hc.symm.trans hnone) nofun
  · obtain rfl := Option.some.inj (hc.symm.trans hc')
    exact ⟨r, s₁.2, hturn, hstay.df, hstay.pages, fun k hk => hstay.pcValues k (passes_single.mpr hk)⟩

end RustyTune.TuneModel.Msq
