import Mathlib.Data.List.Basic

/-!
# Runs of a machine

A machine is a step function `step : σ → ι → σ`; a run feeds it a list of inputs.

* `Along step ok s is`: every step of the run from `s` on `is` meets the condition `ok`, which
  sees the state before the step and the input.
* **`Along.invariant`**: what every such step preserves holds where the run ends; and since
  prefixes of a run are runs (`Along.initial`), in every state it passes through.
-/

namespace RustyTune

variable {σ ι : Type} (step : σ → ι → σ) (ok : σ → ι → Prop)

/-- Every step of the run from `s` on the inputs meets `ok`. -/
def Along : σ → List ι → Prop
  | _, [] => True
  | s, i :: is => ok s i ∧ Along (step s i) is

variable {step ok}

@[simp] theorem along_nil (s : σ) : Along step ok s [] ↔ True := Iff.rfl

@[simp] theorem along_cons (s : σ) (i : ι) (is : List ι) :
    Along step ok s (i :: is) ↔ ok s i ∧ Along step ok (step s i) is := Iff.rfl

instance decidableAlong [∀ s i, Decidable (ok s i)] : ∀ s is, Decidable (Along step ok s is)
  | _, [] => inferInstanceAs (Decidable True)
  | s, i :: is =>
    have := decidableAlong (step s i) is
    inferInstanceAs (Decidable (_ ∧ _))

theorem along_append (s : σ) (is js : List ι) :
    Along step ok s (is ++ js) ↔ Along step ok s is ∧ Along step ok (is.foldl step s) js := by
  induction is generalizing s with
  | nil => simp
  | cons i is ih => simp [ih, and_assoc]

theorem Along.initial {s : σ} {is js : List ι} (h : Along step ok s (is ++ js)) :
    Along step ok s is := ((along_append s is js).mp h).1

/-- **The invariant rule.** What every admissible step preserves holds where the run ends. -/
theorem Along.invariant {I : σ → Prop} (hstep : ∀ s i, I s → ok s i → I (step s i))
    {s : σ} {is : List ι} (h : I s) (hr : Along step ok s is) : I (is.foldl step s) := by
  induction is generalizing s with
  | nil => exact h
  | cons i is ih => exact ih (hstep s i h hr.1) hr.2

/-- What an admissible step from a state of the invariant meets, every step of the run meets. -/
theorem Along.ensures {I : σ → Prop} {good : σ → ι → Prop}
    (hstep : ∀ s i, I s → ok s i → I (step s i)) (hgood : ∀ s i, I s → ok s i → good s i) :
    ∀ {s : σ} {is : List ι}, I s → Along step ok s is → Along step good s is
  | _, [], _, _ => trivial
  | s, i :: _, h, ⟨hi, hs⟩ => ⟨hgood s i h hi, hs.ensures hstep hgood (hstep s i h hi)⟩

theorem foldl_invariant {I : σ → Prop} (hstep : ∀ s i, I s → I (step s i)) {s : σ}
    (is : List ι) (h : I s) : I (is.foldl step s) := by
  induction is generalizing s with
  | nil => exact h
  | cons i is ih => exact ih (hstep s i h)

end RustyTune
