import Mathlib.Data.List.Perm.Subperm
import RustyTune.Lib.Checked

/-!
# Actions on places of their own

Actions on a state that is read place by place, each of which may look at the whole state but
changes only the places it owns.

* `Places`: the actions, what they own, and the states they act on.
* `Places.Overlaid`: the state where some actions have left in their places what they leave alone.
* **`Places.perm_iff`**: actions on disjoint places end in the same state in every order exactly
  when each does in its places, over any of the others, what it does alone.
* **`foldlM_sets`**: actions that set their places to those of one target.
-/

namespace RustyTune

open Exec

/-- Actions `ε` on states `σ`, read place by place. -/
structure Places (σ ε ι β : Type) where
  act : σ → ε → Exec σ
  read : σ → ι → β
  owns : ε → ι → Prop
  /-- The states considered. -/
  Frame : σ → Prop
  act_frame : ∀ {s s' e}, Frame s → act s e = .ok s' → Frame s'
  act_read : ∀ {s s' e i}, Frame s → act s e = .ok s' → ¬ owns e i → read s' i = read s i
  ext : ∀ {s s'}, Frame s → Frame s' → (∀ i, read s i = read s' i) → s = s'

namespace Places

variable {σ ε ι β : Type} (P : Places σ ε ι β)

/-- The actions one after the other. -/
def run (l : List ε) (s : σ) : Exec σ := l.foldlM P.act s

/-- The state `s₁` is `s` but for the places of the actions in `S`, which are as each of them leaves
them alone. -/
structure Overlaid (s : σ) (S : List ε) (s₁ : σ) : Prop where
  frame : P.Frame s₁
  inside : ∀ e ∈ S, ∀ s', P.act s e = .ok s' → ∀ i, P.owns e i → P.read s₁ i = P.read s' i
  outside : ∀ i, (∀ e ∈ S, ¬ P.owns e i) → P.read s₁ i = P.read s i

/-- From either state the action leaves the same in its places. -/
def Alike (s s₁ : σ) (e : ε) : Prop :=
  ∃ s' s₁', P.act s e = .ok s' ∧ P.act s₁ e = .ok s₁' ∧
    ∀ i, P.owns e i → P.read s₁' i = P.read s' i

/-- No place belongs to two of the actions. -/
def Disjoint (l : List ε) : Prop :=
  ∀ e ∈ l, ∀ e' ∈ l, e ≠ e' → ∀ i, P.owns e i → ¬ P.owns e' i

variable {P} {s s' s₁ : σ} {e : ε} {l S : List ε}

theorem run_append (l l' : List ε) (s : σ) : P.run (l ++ l') s = P.run l s >>= P.run l' :=
  List.foldlM_append

theorem run_cons_eq_ok : P.run (e :: l) s = .ok s' ↔
    ∃ s₁, P.act s e = .ok s₁ ∧ P.run l s₁ = .ok s' := by
  rw [run, List.foldlM_cons, bind_eq_ok]
  rfl

theorem run_append_eq_ok {l' : List ε} : P.run (l ++ l') s = .ok s' ↔
    ∃ s₁, P.run l s = .ok s₁ ∧ P.run l' s₁ = .ok s' := by
  rw [run_append, bind_eq_ok]

theorem run_frame (hs : P.Frame s) (h : P.run l s = .ok s') : P.Frame s' := by
  induction l generalizing s with
  | nil =>
    obtain rfl : s = s' := pure_eq_ok.mp h
    exact hs
  | cons e l ih =>
    obtain ⟨s₁, hact, h⟩ := run_cons_eq_ok.mp h
    exact ih (P.act_frame hs hact) h

theorem run_read (hs : P.Frame s) (h : P.run l s = .ok s') {i : ι} (hi : ∀ e ∈ l, ¬ P.owns e i) :
    P.read s' i = P.read s i := by
  induction l generalizing s with
  | nil =>
    obtain rfl : s = s' := pure_eq_ok.mp h
    rfl
  | cons e l ih =>
    obtain ⟨s₁, hact, h⟩ := run_cons_eq_ok.mp h
    rw [ih (P.act_frame hs hact) h fun e' he' => hi e' (List.mem_cons_of_mem _ he'),
      P.act_read hs hact (hi e List.mem_cons_self)]

/-! ## Overlays -/

theorem Overlaid.nil (hs : P.Frame s) : P.Overlaid s [] s :=
  ⟨hs, fun _ h => absurd h List.not_mem_nil, fun _ _ => rfl⟩

theorem Overlaid.congr (h : P.Overlaid s S s₁) {S' : List ε} (hS : ∀ e, e ∈ S' ↔ e ∈ S) :
    P.Overlaid s S' s₁ :=
  ⟨h.frame, fun e he => h.inside e ((hS e).mp he),
    fun i hi => h.outside i fun e he => hi e ((hS e).mpr he)⟩

theorem Overlaid.unique {s₂ : σ} (h₁ : P.Overlaid s S s₁) (h₂ : P.Overlaid s S s₂)
    (hS : ∀ e ∈ S, ∃ s', P.act s e = .ok s') : s₁ = s₂ := by
  refine P.ext h₁.frame h₂.frame fun i => ?_
  by_cases hi : ∃ e ∈ S, P.owns e i
  · obtain ⟨e, he, hi⟩ := hi
    obtain ⟨s', hs'⟩ := hS e he
    rw [h₁.inside e he s' hs' i hi, h₂.inside e he s' hs' i hi]
  · have hno : ∀ e ∈ S, ¬ P.owns e i := fun e he hown => hi ⟨e, he, hown⟩
    rw [h₁.outside i hno, h₂.outside i hno]

theorem Overlaid.concat (h : P.Overlaid s S s₁) (halike : P.Alike s s₁ e)
    (hdisj : ∀ e' ∈ S, ∀ i, P.owns e' i → ¬ P.owns e i) :
    ∃ s₂, P.act s₁ e = .ok s₂ ∧ P.Overlaid s (S ++ [e]) s₂ := by
  obtain ⟨s', s₂, hact, hact₁, hown⟩ := halike
  refine ⟨s₂, hact₁, P.act_frame h.frame hact₁, fun e' he' s'' hs'' i hi => ?_, fun i hi => ?_⟩
  · rcases List.mem_append.mp he' with he' | he'
    · rw [P.act_read h.frame hact₁ (hdisj e' he' i hi), h.inside e' he' s'' hs'' i hi]
    · obtain rfl := List.mem_singleton.mp he'
      obtain rfl := Except.ok.inj (hact.symm.trans hs'')
      exact hown i hi
  · rw [P.act_read h.frame hact₁ (hi e (by simp)),
      h.outside i fun e' he' => hi e' (List.mem_append_left _ he')]

/-! ## Every order -/

/-- Each action does in its places, over any of the others, what it does alone. -/
def Steady (P : Places σ ε ι β) (s : σ) (l : List ε) : Prop :=
  ∀ e ∈ l, ∀ S, S.Sublist l → e ∉ S → ∀ s₁, P.Overlaid s S s₁ → P.Alike s s₁ e

/-- Steady actions lay themselves over the state, one after the other. -/
theorem Steady.run_overlaid (hsteady : P.Steady s l) (hnd : l.Nodup) (hdisj : P.Disjoint l) :
    ∀ {L S : List ε} {s₁ : σ}, (S ++ L).Subperm l → P.Overlaid s S s₁ →
      ∃ s₂, P.run L s₁ = .ok s₂ ∧ P.Overlaid s (S ++ L) s₂
  | [], S, s₁, _, hS => ⟨s₁, rfl, by rwa [List.append_nil]⟩
  | e :: L, S, s₁, hsub, hS => by
    have hndS : (S ++ e :: L).Nodup := by
      obtain ⟨l₁, hperm, hsub'⟩ := hsub
      exact hperm.nodup_iff.mp (hnd.sublist hsub')
    have heS : e ∉ S := fun h => (List.nodup_append.mp hndS).2.2 e h e List.mem_cons_self rfl
    have he : e ∈ l := hsub.subset (by simp)
    have hSl : ∀ e' ∈ S, e' ∈ l := fun e' he' => hsub.subset (List.mem_append_left _ he')
    obtain ⟨S', hperm, hsub'⟩ := (List.sublist_append_left S (e :: L)).subperm.trans hsub
    have halike : P.Alike s s₁ e := hsteady e he S' hsub' (fun h => heS (hperm.mem_iff.mp h)) s₁
      (hS.congr fun e' => hperm.mem_iff)
    obtain ⟨s₂, hact, hS₂⟩ := hS.concat halike fun e' he' =>
      hdisj e' (hSl e' he') e he fun heq => heS (heq ▸ he')
    rw [List.append_cons] at hsub
    obtain ⟨s₃, hrun, hS₃⟩ := hsteady.run_overlaid hnd hdisj hsub hS₂
    exact ⟨s₃, run_cons_eq_ok.mpr ⟨s₂, hact, hrun⟩, by rwa [List.append_cons]⟩

/-- Where every order ends in the same state, the actions before a point have laid themselves over
the state. -/
theorem overlaid_of_perm (hs : P.Frame s) (hnd : l.Nodup) (hdisj : P.Disjoint l)
    (hperm : ∀ l', l'.Perm l → P.run l' s = .ok s') {L R : List ε} (hLR : (L ++ R).Perm l)
    (h : P.run L s = .ok s₁) : P.Overlaid s L s₁ := by
  have hmem : ∀ {e}, e ∈ L ++ R → e ∈ l := hLR.mem_iff.mp
  refine ⟨run_frame hs h, fun e he s₂ hact i hi => ?_, fun i hi => run_read hs h hi⟩
  have hel : e ∈ l := hmem (List.mem_append_left _ he)
  have hkeep : ∀ {l' : List ε} {s₃ : σ}, P.Frame s₃ → (∀ e' ∈ l', e' ∈ l ∧ e' ≠ e) →
      P.run l' s₃ = .ok s' → P.read s' i = P.read s₃ i := fun hf hne hrun =>
    run_read hf hrun fun e' he' hown =>
      hdisj e hel e' (hne e' he').1 (hne e' he').2.symm i hi hown
  -- the rest leaves the place, and so do all others after `e` alone
  have hndLR : (L ++ R).Nodup := hLR.nodup_iff.mpr hnd
  obtain ⟨s₃, h', hrest⟩ := run_append_eq_ok.mp (hperm (L ++ R) hLR)
  obtain rfl := Except.ok.inj (h.symm.trans h')
  have hend := hkeep (run_frame hs h) (fun e' he' => ⟨hmem (List.mem_append_right _ he'), by
    rintro rfl
    exact (List.nodup_append.mp hndLR).2.2 e' he e' he' rfl⟩) hrest
  obtain ⟨l₁, l₂, rfl⟩ := List.append_of_mem hel
  obtain ⟨s₃, hact', hothers⟩ := run_cons_eq_ok.mp (hperm _ List.perm_middle.symm)
  obtain rfl := Except.ok.inj (hact.symm.trans hact')
  have hndmid := (List.perm_middle.nodup_iff.mp hnd)
  have hend' := hkeep (P.act_frame hs hact) (fun e' he' => ⟨by
    rcases List.mem_append.mp he' with h | h <;> simp [h], by
    rintro rfl
    exact (List.nodup_cons.mp hndmid).1 he'⟩) hothers
  rw [← hend, hend']

/-- **Actions on disjoint places end in the same state in every order exactly when each does in its
places, over any of the others, what it does alone.** -/
theorem perm_iff (hs : P.Frame s) (hnd : l.Nodup) (hdisj : P.Disjoint l)
    (h : P.run l s = .ok s') :
    (∀ l', l'.Perm l → P.run l' s = .ok s') ↔ P.Steady s l := by
  constructor
  · intro hperm e he S hS heS s₁ hover
    obtain ⟨R, hR⟩ := hS.exists_perm_append
    have heR : e ∈ R := (List.mem_append.mp (hR.mem_iff.mp he)).resolve_left heS
    obtain ⟨R₁, R₂, rfl⟩ := List.append_of_mem heR
    have hall : ((S ++ [e]) ++ (R₁ ++ R₂)).Perm l := by
      rw [List.append_assoc, List.singleton_append]
      exact (List.Perm.append_left S List.perm_middle.symm).trans hR.symm
    obtain ⟨s₃, hrun, -⟩ := run_append_eq_ok.mp (hperm _ hall)
    obtain ⟨s₂, hrunS, hrune⟩ := run_append_eq_ok.mp hrun
    obtain ⟨s₃', hact, hnil⟩ := run_cons_eq_ok.mp hrune
    obtain rfl : s₃' = s₃ := pure_eq_ok.mp hnil
    have halone : ∀ e' ∈ l, ∃ s'', P.act s e' = .ok s'' := by
      intro e' he'
      obtain ⟨l₁, l₂, rfl⟩ := List.append_of_mem he'
      obtain ⟨s'', hact', -⟩ := run_cons_eq_ok.mp (hperm _ List.perm_middle.symm)
      exact ⟨s'', hact'⟩
    have hSR : (S ++ ([e] ++ (R₁ ++ R₂))).Perm l := by rwa [← List.append_assoc]
    have hS₂ := overlaid_of_perm hs hnd hdisj hperm hSR hrunS
    obtain rfl := hover.unique hS₂ fun e' he' => halone e' (hS.subset he')
    obtain ⟨s₂', hact'⟩ := halone e he
    have hover' := overlaid_of_perm hs hnd hdisj hperm hall hrun
    exact ⟨s₂', s₃', hact', hact, fun i hi => hover'.inside e (by simp) s₂' hact' i hi⟩
  · intro hsteady l' hl'
    have hover : P.Overlaid s l s' := by
      obtain ⟨s₂, hrun, hS⟩ := hsteady.run_overlaid hnd hdisj (L := l) (S := [])
        (List.Subperm.refl l) (.nil hs)
      obtain rfl := Except.ok.inj (h.symm.trans hrun)
      exact hS
    obtain ⟨s₂, hrun, hS⟩ := hsteady.run_overlaid hnd hdisj (L := l') (S := [])
      hl'.subperm (.nil hs)
    rw [hrun, (hS.congr fun e => hl'.mem_iff.symm).unique hover fun e he => ?_]
    obtain ⟨s₃, -, hact, -⟩ := hsteady e he [] (List.nil_sublist l) List.not_mem_nil s (.nil hs)
    exact ⟨s₃, hact⟩

end Places

/-! ## Actions that set their places -/

/-- **Actions that set their places to those of one target**, whatever the others do, leave the target in
the places of all of them. -/
theorem foldlM_sets {σ ε ι β : Type} {act : σ → ε → Exec σ} {read : σ → ι → β} {owns : ε → ι → Prop}
    {Frame : σ → Prop} {target : ι → β} {l : List ε}
    (h : ∀ e ∈ l, ∀ s, Frame s → ∃ s', act s e = .ok s' ∧ Frame s' ∧
      (∀ i, owns e i → read s' i = target i) ∧ ∀ i, ¬ owns e i → read s' i = read s i)
    {s : σ} (hs : Frame s) : ∃ s', l.foldlM act s = .ok s' ∧ Frame s' ∧
      (∀ i, (∃ e ∈ l, owns e i) → read s' i = target i) ∧
      ∀ i, (¬ ∃ e ∈ l, owns e i) → read s' i = read s i := by
  induction l generalizing s with
  | nil => exact ⟨s, rfl, hs, by simp, fun _ _ => rfl⟩
  | cons e l ih =>
    obtain ⟨s₁, hact, hs₁, hset, hkeep⟩ := h e List.mem_cons_self s hs
    obtain ⟨s', hrun, hs', hset', hkeep'⟩ := ih (fun e' he' => h e' (List.mem_cons_of_mem e he')) hs₁
    refine ⟨s', ?_, hs', fun i hi => ?_, fun i hi => ?_⟩
    · rw [List.foldlM_cons, hact]
      exact hrun
    · by_cases hlater : ∃ e' ∈ l, owns e' i
      · exact hset' i hlater
      · rw [hkeep' i hlater]
        obtain ⟨e', he', hown⟩ := hi
        rcases List.mem_cons.mp he' with rfl | he'
        · exact hset i hown
        · exact absurd ⟨e', he', hown⟩ hlater
    · simp only [List.exists_mem_cons_iff, not_or] at hi
      rw [hkeep' i hi.2, hkeep i hi.1]

end RustyTune
