import RustyTune.TuneModel.Msq.Region
import RustyTune.TuneModel.Sized
import RustyTune.TuneModel.Tables

/-!
# What an edit leaves alone

* `Rewrites.sized`: what differs in local data and variables only has the same sizes.
* `setConstantImpl_sameFrame`, `setArrayElementImpl_sameFrame`, `setTableAxis_sameFrame`,
  `setTableCell_sameFrame`, `setPcValue_rewrites`, **`Msq.apply_rewrites`**: every edit rewrites.
-/

namespace RustyTune.TuneModel

open TsIni Exec

variable {F : Type}

namespace Rewrites

variable {t t' : Tune F}

theorem sized (h : Rewrites t t') (ht : t.Sized) : t'.Sized := by
  have hsized : ∀ u : Tune F, u.Sized ↔ List.Forall₂ (fun (size : UInt32) (p : ℕ × List UInt8 × List UInt8) =>
      p.1 = size.toNat ∧ p.2.1.length = size.toNat ∧ p.2.2.length = size.toNat)
      u.df.header.pageSizes (u.pages.map fun p => (p.data.length, p.ecu, p.burned)) := by
    intro u
    rw [Tune.Sized, List.forall₂_map_right_iff]
    refine ⟨fun h => h.imp fun _ _ hp => ⟨hp.data, hp.ecu, hp.burned⟩,
      fun h => h.imp fun _ _ hp => ⟨hp.1, hp.2.1, hp.2.2⟩⟩
  rw [hsized, h.df, h.pages]
  exact (hsized t).mp ht

end Rewrites

variable [F64 F] {m : Machine} {t t' : Tune F}

/-! ## Single edits -/

theorem setConstantImpl_sameFrame (m : Machine) (t : Tune F) (name : String) (user : F)
    (clamp : Bool) : Yields (t.setConstantImpl m name user clamp) (SameFrame t) := by
  unfold Tune.setConstantImpl
  refine yields_bind fun c => yields_bind fun ⟨pageIdx, offset⟩ => ?_
  dsimp only
  split
  · exact yields_bind fun _ => yields_bind fun _ => yields_pure SameFrame.writePage
  · exact yields_bind fun _ => yields_bind fun _ => yields_bind fun _ =>
      yields_pure SameFrame.writePage
  · exact yields_throw _
  · exact yields_throw _

theorem setArrayElementImpl_sameFrame (m : Machine) (t : Tune F) (name : String) (index : ℕ)
    (user : F) (clamp : Bool) :
    Yields (t.setArrayElementImpl m name index user clamp) (SameFrame t) := by
  unfold Tune.setArrayElementImpl
  refine yields_bind fun c => ?_
  dsimp only
  split
  · exact yields_throw_bind _
  · split
    · exact yields_throw_bind _
    · exact yields_bind fun ⟨pageIdx, offset⟩ => yields_bind fun _ => yields_bind fun _ =>
        yields_pure SameFrame.writePage

theorem setTableAxis_sameFrame (m : Machine) (t : Tune F) (id axis : String) (index : ℕ) (value : F) :
    Yields (t.setTableAxis m id axis index value) (SameFrame t) := by
  unfold Tune.setTableAxis
  refine yields_bind fun table => ?_
  split_ifs
  · exact setArrayElementImpl_sameFrame m t _ index value true
  · exact setArrayElementImpl_sameFrame m t _ index value true
  · exact yields_throw _

theorem setTableCell_sameFrame (m : Machine) (t : Tune F) (id : String) (row col : ℕ) (value : F) :
    Yields (t.setTableCell m id row col value) (SameFrame t) := by
  unfold Tune.setTableCell
  refine yields_bind fun table => yields_bind fun ⟨nx, ny⟩ => ?_
  dsimp only
  split
  · exact yields_bind fun _ => yields_throw_bind _
  · exact setArrayElementImpl_sameFrame m t _ _ value true

theorem setPcValue_rewrites (m : Machine) (t : Tune F) (name : String) (user : F) :
    Yields (t.setPcValue m name user) (Rewrites t) := by
  unfold Tune.setPcValue
  exact yields_bind fun c => yields_bind fun user => yields_pure ⟨rfl, rfl, rfl⟩

/-! ## Whole files -/

namespace Msq

variable {m : Machine} {t t' : Tune F}

theorem applyElements_rewrites {name : String} : ∀ {values : List F} {i : ℕ} {t t' : Tune F}
    {r : Except TuneError Unit}, applyElements m name i values t = .ok (r, t') → Rewrites t t'
  | [], i, t, t', r, h => by
    rw [← (Prod.mk.inj (Except.ok.inj h)).2]
    exact .refl t
  | v :: values, i, t, t', r, h => by
    rw [applyElements, bind_eq_ok] at h
    obtain ⟨x, hx, h⟩ := h
    cases x with
    | error e =>
      rw [← (Prod.mk.inj (Except.ok.inj h)).2]
      exact .refl t
    | ok t₁ =>
      exact (setArrayElementImpl_sameFrame m t name i v false t₁ hx).toRewrites.trans
        (applyElements_rewrites h)

omit [F64 F] in
theorem written_rewrites {x : Attempt (Tune F)} (hx : Yields x (Rewrites t))
    {r : Except TuneError Unit} (h : written t x = .ok (r, t')) : Rewrites t t' := by
  rw [written, bind_eq_ok] at h
  obtain ⟨y, hy, h⟩ := h
  cases y with
  | error e =>
    rw [← (Prod.mk.inj (Except.ok.inj h)).2]
    exact .refl t
  | ok t₁ =>
    rw [← (Prod.mk.inj (Except.ok.inj h)).2]
    exact hx t₁ hy

theorem setConstantUnclamped_rewrites (m : Machine) (t : Tune F) (name : String) (v : F) :
    Yields (t.setConstantUnclamped m name v) (Rewrites t) := fun t' ht =>
  (setConstantImpl_sameFrame m t name v false t' ht).toRewrites

theorem applyValue_rewrites {name : String} {c : ConstantDef F} {value : MsqValue F}
    {r : Except TuneError Unit} (h : applyValue m t name c value = .ok (r, t')) : Rewrites t t' := by
  unfold applyValue at h
  split at h
  · exact written_rewrites (setConstantUnclamped_rewrites m t name _) h
  · split at h
    · exact written_rewrites (setConstantUnclamped_rewrites m t name _) h
    · rw [← (Prod.mk.inj (Except.ok.inj h)).2]
      exact .refl t
  · split_ifs at h
    · rw [← (Prod.mk.inj (Except.ok.inj h)).2]
      exact .refl t
    · exact applyElements_rewrites h
  · rw [← (Prod.mk.inj (Except.ok.inj h)).2]
    exact .refl t
  · rw [← (Prod.mk.inj (Except.ok.inj h)).2]
    exact .refl t

theorem applyConstant_rewrites {names : Option (List String)} {s s' : ApplyReport × Tune F}
    {entry : String × MsqValue F} (h : applyConstant m names s entry = .ok s') :
    Rewrites s.2 s'.2 := by
  unfold applyConstant at h
  dsimp only at h
  split_ifs at h
  · rw [← Except.ok.inj h]
    exact .refl s.2
  · split at h
    · rw [← Except.ok.inj h]
      exact .refl s.2
    · rw [bind_eq_ok] at h
      obtain ⟨⟨r, t₁⟩, hval, h⟩ := h
      have hr := applyValue_rewrites hval
      cases r <;> rw [← Except.ok.inj h] <;> exact hr

theorem applyPcVariable_rewrites {names : Option (List String)} {s s' : ApplyReport × Tune F}
    {entry : String × MsqValue F} (h : applyPcVariable m names s entry = .ok s') :
    Rewrites s.2 s'.2 := by
  unfold applyPcVariable at h
  dsimp only at h
  split_ifs at h
  · rw [← Except.ok.inj h]
    exact .refl s.2
  · split at h
    · rw [← Except.ok.inj h]
      exact .refl s.2
    · rw [bind_eq_ok] at h
      obtain ⟨r, hset, h⟩ := h
      cases r with
      | error e =>
        rw [← Except.ok.inj h]
        exact .refl s.2
      | ok t₁ =>
        rw [← Except.ok.inj h]
        exact setPcValue_rewrites m s.2 _ _ t₁ hset

omit [F64 F] in
theorem foldlM_rewrites {α : Type} {f : ApplyReport × Tune F → α → Exec (ApplyReport × Tune F)}
    (hf : ∀ s a s', f s a = .ok s' → Rewrites s.2 s'.2) :
    ∀ (l : List α) {s s' : ApplyReport × Tune F}, l.foldlM f s = .ok s' → Rewrites s.2 s'.2
  | [], s, s', h => by
    rw [← Except.ok.inj h]
    exact .refl s.2
  | a :: l, s, s', h => by
    rw [List.foldlM_cons, bind_eq_ok] at h
    obtain ⟨s₁, h₁, h⟩ := h
    exact (hf s a s₁ h₁).trans (foldlM_rewrites hf l h)

/-- **Applying a file rewrites.** -/
theorem apply_rewrites {file : MsqFile F} {names : Option (List String)} {report : ApplyReport}
    (h : apply m file t names = .ok (report, t')) : Rewrites t t' := by
  rw [apply, bind_eq_ok] at h
  obtain ⟨s, hs, h⟩ := h
  exact (foldlM_rewrites (fun _ _ _ => applyConstant_rewrites) _ hs).trans
    (foldlM_rewrites (fun _ _ _ => applyPcVariable_rewrites) _ h)

end Msq

end RustyTune.TuneModel
