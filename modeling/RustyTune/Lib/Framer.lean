import Mathlib.Data.List.Basic

/-!
# Frames of a stream

A reader takes frames off the front of what has arrived, and keeps the rest until more arrives.

* `Framer`: one attempt at the front. It needs no more than what it takes, so that what follows does
  not change it.
* `Framer.frames`: the frames of a stream, and the rest. **`frames_append`**: of one stream behind another.
* `answerAll`: a machine that answers every frame. **`answerAll_append`**.
-/

namespace RustyTune

/-! ## Frames -/

/-- One attempt at the front of what has arrived: none where more is needed, else the frame that was
found, if there is one, and the rest. -/
structure Framer (α β : Type) where
  next : List α → Option (Option β × List α)
  shrinks : ∀ {xs o rest}, next xs = some (o, rest) → rest.length < xs.length
  stable : ∀ {xs o rest}, next xs = some (o, rest) → ∀ ys, next (xs ++ ys) = some (o, rest ++ ys)

namespace Framer

variable {α β : Type} (f : Framer α β)

/-- The frames of a stream one after the other, and what is left over. -/
def frames (xs : List α) : List β × List α :=
  match _h : f.next xs with
  | none => ([], xs)
  | some (o, rest) => (o.toList ++ (frames rest).1, (frames rest).2)
termination_by xs.length
decreasing_by exact Framer.shrinks _ _h

variable {f} {xs ys rest : List α} {o : Option β}

theorem frames_wait (h : f.next xs = none) : f.frames xs = ([], xs) := by
  rw [frames]
  split
  · rfl
  · rename_i heq
    rw [h] at heq
    cases heq

theorem frames_take (h : f.next xs = some (o, rest)) :
    f.frames xs = (o.toList ++ (f.frames rest).1, (f.frames rest).2) := by
  rw [frames]
  split
  · rename_i heq
    rw [h] at heq
    cases heq
  · rename_i heq
    rw [h] at heq
    cases heq
    rfl

/-- The rule of induction: a stream that waits, and one behind what is taken off its front. -/
theorem frames_induction {P : List α → Prop} (wait : ∀ xs, f.next xs = none → P xs)
    (take : ∀ xs o rest, f.next xs = some (o, rest) → P rest → P xs) (xs : List α) : P xs := by
  induction hn : xs.length using Nat.strongRecOn generalizing xs with
  | ind n ih =>
    cases h : f.next xs with
    | none => exact wait xs h
    | some p =>
      obtain ⟨o, rest⟩ := p
      exact take xs o rest h (ih rest.length (hn ▸ f.shrinks h) rest rfl)

theorem next_left (xs : List α) : f.next (f.frames xs).2 = none := by
  induction xs using f.frames_induction with
  | wait xs h => rw [frames_wait h, h]
  | take xs o rest h ih => rw [frames_take h, ih]

/-- **Frames of a stream behind another**: those of the first, then those of what it leaves with the
second. -/
theorem frames_append (xs ys : List α) :
    f.frames (xs ++ ys) = ((f.frames xs).1 ++ (f.frames ((f.frames xs).2 ++ ys)).1,
      (f.frames ((f.frames xs).2 ++ ys)).2) := by
  induction xs using f.frames_induction with
  | wait xs h => rw [frames_wait h, List.nil_append]
  | take xs o rest h ih => rw [frames_take h, frames_take (f.stable h ys), ih, List.append_assoc]

end Framer

/-! ## Answers -/

section Answers

variable {σ β γ : Type} (step : σ → β → γ × σ)

/-- The answers of a machine, one for each input, and its state afterwards. -/
def answerAll : σ → List β → List γ × σ
  | s, [] => ([], s)
  | s, b :: bs => ((step s b).1 :: (answerAll (step s b).2 bs).1, (answerAll (step s b).2 bs).2)

theorem answerAll_append (s : σ) (bs cs : List β) :
    answerAll step s (bs ++ cs) = ((answerAll step s bs).1 ++ (answerAll step (answerAll step s bs).2 cs).1,
      (answerAll step (answerAll step s bs).2 cs).2) := by
  induction bs generalizing s with
  | nil => rfl
  | cons b bs ih => rw [List.cons_append, answerAll, answerAll, ih, List.cons_append]

end Answers

end RustyTune
