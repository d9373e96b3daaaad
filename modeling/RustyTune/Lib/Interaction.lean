import Mathlib.Data.Set.Basic

/-!
# Programs that ask

A program asks queries of its surroundings and goes on with the answers. It is a tree, so that one program
runs under several handlers.

* `Program`: the tree; `Program.run`: under a handler, `run_bind`.
* `Program.Safe`: only queries that are allowed are asked, as long as the answers are as promised, and the
  result meets a condition. **`Safe.bind`**: the rule of composition.
* `HandlerRefines`: two handlers step by step, where the second one has choices left to its surroundings.
  **`HandlerRefines.run`**: a safe program runs alike under both, for some choices.
-/

namespace RustyTune

/-- A program that asks queries; `A q` is what can be answered to `q`. -/
inductive Program (Q : Type) (A : Q → Type) (α : Type) : Type
  | done (a : α)
  | ask (q : Q) (k : A q → Program Q A α)

namespace Program

variable {Q : Type} {A : Q → Type} {α β σ : Type}

/-- One program, and another with its result. -/
def bind : Program Q A α → (α → Program Q A β) → Program Q A β
  | done a, f => f a
  | ask q k, f => ask q fun r => (k r).bind f

/-- The result under a handler, and the state afterwards. -/
def run (h : ∀ q, σ → A q × σ) : Program Q A α → σ → α × σ
  | done a, s => (a, s)
  | ask q k, s => (k (h q s).1).run h (h q s).2

theorem run_bind (h : ∀ q, σ → A q × σ) (p : Program Q A α) (f : α → Program Q A β) (s : σ) :
    (p.bind f).run h s = (f (p.run h s).1).run h (p.run h s).2 := by
  induction p generalizing s with
  | done a => rfl
  | ask q k ih => exact ih (h q s).1 (h q s).2

theorem run_invariant {I : σ → Prop} {h : ∀ q, σ → A q × σ} (hstep : ∀ q s, I s → I (h q s).2)
    (p : Program Q A α) {s : σ} (hs : I s) : I (p.run h s).2 := by
  induction p generalizing s with
  | done a => exact hs
  | ask q k ih => exact ih (h q s).1 (hstep q s hs)

/-! ## Safe programs -/

/-- Only allowed queries are asked, as long as the answers are as promised; the result meets `post`. -/
def Safe (allowed : Q → Prop) (promised : ∀ q, A q → Prop) (post : α → Prop) : Program Q A α → Prop
  | done a => post a
  | ask q k => allowed q ∧ ∀ r, promised q r → (k r).Safe allowed promised post

variable {allowed : Q → Prop} {promised : ∀ q, A q → Prop} {post : α → Prop} {post' : β → Prop}

/-- **The rule of composition.** -/
theorem Safe.bind {p : Program Q A α} {f : α → Program Q A β} (hp : p.Safe allowed promised post)
    (hf : ∀ a, post a → (f a).Safe allowed promised post') : (p.bind f).Safe allowed promised post' := by
  induction p with
  | done a => exact hf a hp
  | ask q k ih => exact ⟨hp.1, fun r hr => ih r (hp.2 r hr)⟩

end Program

/-! ## Two handlers -/

variable {Q : Type} {A : Q → Type} {α σ τ ε : Type}

/-- The handler `h` refines `g`, whose surroundings `ε` have choices: with related states there are choices
under which an allowed query is answered alike, as promised. `Kept t e e'` says that `e'` keeps the choices
of `e` that have been used before `t`. -/
structure HandlerRefines (allowed : Q → Prop) (promised : ∀ q, A q → Prop) (h : ∀ q, σ → A q × σ)
    (g : ε → ∀ q, τ → A q × τ) (R : σ → τ → Prop) (Kept : τ → ε → ε → Prop) : Prop where
  refl : ∀ t e, Kept t e e
  trans : ∀ {t e e' e''}, Kept t e e' → Kept t e' e'' → Kept t e e''
  /-- Choices that are kept until after a query are kept before it, and answer it alike. -/
  used : ∀ {q t e e'}, allowed q → Kept (g e q t).2 e e' → Kept t e e' ∧ g e' q t = g e q t
  choose : ∀ {q s t e}, allowed q → R s t → ∃ e', Kept t e e' ∧ promised q (h q s).1 ∧
    (g e' q t).1 = (h q s).1 ∧ R (h q s).2 (g e' q t).2

/-- **A safe program runs alike under both handlers**, for choices that keep the ones made before. -/
theorem HandlerRefines.run {allowed : Q → Prop} {promised : ∀ q, A q → Prop} {h : ∀ q, σ → A q × σ}
    {g : ε → ∀ q, τ → A q × τ} {R : σ → τ → Prop} {Kept : τ → ε → ε → Prop}
    (hr : HandlerRefines allowed promised h g R Kept) {post : α → Prop} {p : Program Q A α}
    (hp : p.Safe allowed promised post) {s : σ} {t : τ} (hst : R s t) (e : ε) :
    ∃ e', Kept t e e' ∧ (p.run (g e') t).1 = (p.run h s).1 ∧ R (p.run h s).2 (p.run (g e') t).2 ∧
      post (p.run h s).1 := by
  induction p generalizing s t e with
  | done a => exact ⟨e, hr.refl t e, rfl, hst, hp⟩
  | ask q k ih =>
    obtain ⟨hq, hk⟩ := hp
    obtain ⟨e₁, hkept₁, hpromised, hanswer, hstep⟩ := hr.choose (e := e) hq hst
    obtain ⟨e₂, hkept₂, hresult, hrel, hpost⟩ := ih (h q s).1 (hk _ hpromised) hstep e₁
    obtain ⟨hbefore, hsame⟩ := hr.used hq hkept₂
    refine ⟨e₂, hr.trans hkept₁ hbefore, ?_⟩
    simp only [Program.run]
    rw [hsame, hanswer]
    exact ⟨hresult, hrel, hpost⟩

end RustyTune
