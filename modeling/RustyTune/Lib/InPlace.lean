import RustyTune.Lib.Checked

/-!
# Updates in place

A program that changes a state as it goes, and may end in an error half-way, beside one that gives the
new state or an error.

* `Update`, with `reading`: what is computed from the state as it is.
* **`Carries`**: the update ends in the new state, or in the error with the state as it was. What reads
  first and writes last is such an update: `carries_bind`, `carries_modify`, `carries_throw`.
-/

namespace RustyTune

open Exec

variable {σ ε α β : Type}

/-- A computation that changes a state, and keeps its changes when it ends in an error. -/
abbrev Update (σ ε α : Type) : Type := ExceptT ε (StateT σ Exec) α

namespace Update

/-- The outcome and the state it is reached in. -/
def outcome (u : Update σ ε α) (s : σ) : Exec (Except ε α × σ) := StateT.run (ExceptT.run u) s

/-- What is computed from the state, which stays. -/
def reading (x : σ → ExceptT ε Exec α) : Update σ ε α := ExceptT.mk fun s => do return (← (x s).run, s)

/-- The update ends in the state that is given, or in the error with the state as it was. -/
def Carries (u : Update σ ε Unit) (f : σ → ExceptT ε Exec σ) : Prop :=
  ∀ s, u.outcome s = do
    match ← (f s).run with
    | .ok s' => return (.ok (), s')
    | .error e => return (.error e, s)

theorem carries_modify (f : σ → σ) :
    Carries (modify f : Update σ ε Unit) fun s => pure (f s) := fun _ => rfl

theorem carries_throw (e : ε) : Carries (throw e : Update σ ε Unit) fun _ => throw e := fun _ => rfl

theorem carries_bind {x : σ → ExceptT ε Exec α} {k : α → Update σ ε Unit}
    {g : α → σ → ExceptT ε Exec σ} (h : ∀ a, Carries (k a) (g a)) :
    Carries (reading x >>= k) fun s => x s >>= fun a => g a s := by
  intro s
  have hread : (reading x >>= k).outcome s = (do
      match ← (x s).run with
      | .ok a => (k a).outcome s
      | .error e => return (.error e, s)) := by
    change (do
      let r ← (do return (← (x s).run, s) : Exec (Except ε α × σ))
      (ExceptT.bindCont k r.1) r.2) = _
    cases (x s).run with
    | error e => rfl
    | ok r => cases r <;> rfl
  rw [hread, ExceptT.run_bind]
  cases (x s).run with
  | error e => rfl
  | ok r =>
    cases r with
    | error e => rfl
    | ok a => exact h a s

theorem carries_ite {p : Prop} [Decidable p] {u u' : Update σ ε Unit} {f f' : σ → ExceptT ε Exec σ}
    (h : p → Carries u f) (h' : ¬ p → Carries u' f') :
    Carries (if p then u else u') fun s => if p then f s else f' s := by
  by_cases hp : p
  · simpa only [if_pos hp] using h hp
  · simpa only [if_neg hp] using h' hp

theorem Carries.outcome_eq_ok {u : Update σ ε Unit} {f : σ → ExceptT ε Exec σ} (h : Carries u f)
    {s s' : σ} {r : Except ε Unit} : u.outcome s = .ok (r, s') ↔
      (f s).run = .ok (.ok s') ∧ r = .ok () ∨ ∃ e, (f s).run = .ok (.error e) ∧ r = .error e ∧ s' = s := by
  rw [h s]
  rcases (f s).run with e | (e | t)
  · simp
  · constructor
    · intro heq
      obtain ⟨rfl, rfl⟩ := Prod.mk.inj (Except.ok.inj heq)
      exact .inr ⟨e, rfl, rfl, rfl⟩
    · rintro (⟨heq, -⟩ | ⟨e', heq, rfl, rfl⟩)
      · exact nomatch Except.ok.inj heq
      · rw [Except.error.inj (Except.ok.inj heq)]
        rfl
  · constructor
    · intro heq
      obtain ⟨rfl, rfl⟩ := Prod.mk.inj (Except.ok.inj heq)
      exact .inl ⟨rfl, rfl⟩
    · rintro (⟨heq, rfl⟩ | ⟨e', heq, -⟩)
      · rw [Except.ok.inj (Except.ok.inj heq)]
        rfl
      · exact nomatch Except.ok.inj heq

/-! ## Steps one after the other -/

/-- The state after all steps, or the first error. -/
def runAll (steps : List (σ → ExceptT ε Exec σ)) (s : σ) : ExceptT ε Exec σ :=
  steps.foldlM (fun s step => step s) s

/-- The steps in place: those before the first error stay done. -/
def eachInPlace : List (σ → ExceptT ε Exec σ) → σ → Exec (Except ε Unit × σ)
  | [], s => return (.ok (), s)
  | step :: steps, s => do
    match ← (step s).run with
    | .ok s' => eachInPlace steps s'
    | .error e => return (.error e, s)

/-- Some step ends in the error, from the state that those before it leave. -/
def StopsAt (steps : List (σ → ExceptT ε Exec σ)) (s : σ) (e : ε) (s' : σ) : Prop :=
  ∃ before step after, steps = before ++ step :: after ∧ (runAll before s).run = .ok (.ok s') ∧
    (step s').run = .ok (.error e)

variable {step : σ → ExceptT ε Exec σ} {steps : List (σ → ExceptT ε Exec σ)} {s s' s₁ : σ} {e : ε}

theorem runAll_cons : (runAll (step :: steps) s).run = .ok (.ok s') ↔
    ∃ s₁, (step s).run = .ok (.ok s₁) ∧ (runAll steps s₁).run = .ok (.ok s') := by
  rw [runAll, List.foldlM_cons, attempt_bind_eq_ok]
  rfl

theorem stopsAt_cons : StopsAt (step :: steps) s e s' ↔
    ((step s).run = .ok (.error e) ∧ s' = s) ∨
      ∃ s₁, (step s).run = .ok (.ok s₁) ∧ StopsAt steps s₁ e s' := by
  constructor
  · rintro ⟨before, stop, after, heq, hbefore, hstop⟩
    cases before with
    | nil =>
      obtain ⟨rfl, rfl⟩ := List.cons.inj heq
      obtain rfl : s = s' := Except.ok.inj (Except.ok.inj hbefore)
      exact .inl ⟨hstop, rfl⟩
    | cons first before =>
      obtain ⟨rfl, rfl⟩ := List.cons.inj heq
      obtain ⟨s₁, h₁, hrest⟩ := runAll_cons.mp hbefore
      exact .inr ⟨s₁, h₁, before, stop, after, rfl, hrest, hstop⟩
  · rintro (⟨hstop, rfl⟩ | ⟨s₁, h₁, before, stop, after, rfl, hbefore, hstop⟩)
    · exact ⟨[], step, steps, rfl, rfl, hstop⟩
    · exact ⟨step :: before, stop, after, rfl, runAll_cons.mpr ⟨s₁, h₁, hbefore⟩, hstop⟩

/-- **Steps in place are all done, or those before the first error.** -/
theorem eachInPlace_eq_ok {r : Except ε Unit} : eachInPlace steps s = .ok (r, s') ↔
    (r = .ok () ∧ (runAll steps s).run = .ok (.ok s')) ∨ ∃ e, r = .error e ∧ StopsAt steps s e s' := by
  induction steps generalizing s with
  | nil =>
    constructor
    · intro h
      obtain ⟨rfl, rfl⟩ := Prod.mk.inj (Except.ok.inj h)
      exact .inl ⟨rfl, rfl⟩
    · rintro (⟨rfl, h⟩ | ⟨e, -, before, step, after, h, -⟩)
      · rw [← Except.ok.inj (Except.ok.inj h)]
        rfl
      · simp at h
  | cons step steps ih =>
    rw [eachInPlace, bind_eq_ok]
    simp only [runAll_cons, stopsAt_cons]
    constructor
    · rintro ⟨y, hy, h⟩
      cases y with
      | error e =>
        obtain ⟨rfl, rfl⟩ := Prod.mk.inj (Except.ok.inj h)
        exact .inr ⟨e, rfl, .inl ⟨hy, rfl⟩⟩
      | ok s₁ =>
        rcases ih.mp h with ⟨hr, hrun⟩ | ⟨e, hr, hstop⟩
        · exact .inl ⟨hr, s₁, hy, hrun⟩
        · exact .inr ⟨e, hr, .inr ⟨s₁, hy, hstop⟩⟩
    · rintro (⟨rfl, s₁, hy, hrun⟩ | ⟨e, rfl, ⟨hy, rfl⟩ | ⟨s₁, hy, hstop⟩⟩)
      · exact ⟨.ok s₁, hy, ih.mpr (.inl ⟨rfl, hrun⟩)⟩
      · exact ⟨.error e, hy, rfl⟩
      · exact ⟨.ok s₁, hy, ih.mpr (.inr ⟨e, rfl, hstop⟩)⟩

end Update

end RustyTune
