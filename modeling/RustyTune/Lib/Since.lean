import Mathlib.Data.List.Basic

/-!
# What has happened since

Properties of a history, a list of events with the latest at its end.

* `Since p q h`: an event with `p` happened, and none with `q` after it.
* `Never q h`: no event with `q` happened.
* **`since_concat`**, `never_concat`: what one more event does to them.
-/

namespace RustyTune

variable {ε : Type} {p q : ε → Prop}

/-- `p` held of an event, and `q` of none after it. -/
def Since (p q : ε → Prop) (h : List ε) : Prop :=
  ∃ before e after, h = before ++ e :: after ∧ p e ∧ ∀ e' ∈ after, ¬ q e'

def Never (q : ε → Prop) (h : List ε) : Prop := ∀ e ∈ h, ¬ q e

theorem not_since_nil : ¬ Since p q [] := by
  rintro ⟨before, e, after, h, -⟩
  simp at h

theorem never_nil : Never q ([] : List ε) := fun _ he => absurd he List.not_mem_nil

theorem since_concat {h : List ε} {e : ε} :
    Since p q (h ++ [e]) ↔ p e ∨ (Since p q h ∧ ¬ q e) := by
  constructor
  · rintro ⟨before, e', after, heq, hp, hq⟩
    rcases List.eq_nil_or_concat after with rfl | ⟨after, d, rfl⟩
    · obtain ⟨-, he⟩ := List.append_inj' heq rfl
      exact .inl ((List.cons.inj he).1 ▸ hp)
    · rw [List.concat_eq_append, ← List.cons_append, ← List.append_assoc] at heq
      obtain ⟨rfl, hd⟩ := List.append_inj' heq rfl
      obtain rfl := (List.cons.inj hd).1
      refine .inr ⟨⟨before, e', after, rfl, hp, fun x hx => hq x (by simp [hx])⟩, hq _ (by simp)⟩
  · rintro (hp | ⟨⟨before, e', after, rfl, hp, hq⟩, he⟩)
    · exact ⟨h, e, [], rfl, hp, fun _ hx => absurd hx List.not_mem_nil⟩
    · refine ⟨before, e', after ++ [e], by simp, hp, fun x hx => ?_⟩
      rcases List.mem_append.mp hx with hx | hx
      · exact hq x hx
      · rwa [List.mem_singleton.mp hx]

theorem never_concat {h : List ε} {e : ε} : Never q (h ++ [e]) ↔ Never q h ∧ ¬ q e := by
  constructor
  · intro hn
    exact ⟨fun x hx => hn x (by simp [hx]), hn e (by simp)⟩
  · rintro ⟨hn, he⟩ x hx
    rcases List.mem_append.mp hx with hx | hx
    · exact hn x hx
    · rwa [List.mem_singleton.mp hx]

end RustyTune
