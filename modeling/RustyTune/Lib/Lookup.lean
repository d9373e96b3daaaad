import Mathlib.Data.Finset.Card
import Mathlib.Data.Finset.Filter
import Mathlib.Logic.Relation
import Mathlib.Tactic.Common

/-!
# Computations that look things up

A question is answered by a computation that may ask other questions. With a bound on the depth the
recursion ends, in a failure of its own where the bound is reached.

* `Look`: a computation that asks one question after the other; `LooksUp`: a function of the answers
  that is one.
* `Asks`: the question that such a function fails with.
* `answers`: the answers to a depth.
* **`answers_bounded_iff`**: when only finitely many questions ask any others, some depth suffices for
  all questions exactly when none comes to ask for itself; **`answers_ne_deep`** gives the depth.
-/

namespace RustyTune

/-- An answer to every question, or a failure. -/
abbrev Source (Q : Type) (A : Q → Type) (ε : Type) : Type := (q : Q) → Except ε (A q)

/-- A computation that asks one question after the other. -/
inductive Look (Q : Type) (A : Q → Type) (ε R : Type)
  | ret (r : R)
  /-- A failure of its own. -/
  | stop (e : ε)
  | ask (q : Q) (k : A q → Look Q A ε R)

variable {Q : Type} {A : Q → Type} {ε R R' : Type}

namespace Look

def run : Look Q A ε R → Source Q A ε → Except ε R
  | ret r, _ => .ok r
  | stop e, _ => .error e
  | ask q k, src =>
    match src q with
    | .ok a => (k a).run src
    | .error e => .error e

theorem run_ask_ok {src : Source Q A ε} {q : Q} {a : A q} (h : src q = .ok a)
    (k : A q → Look Q A ε R) : (ask q k).run src = (k a).run src := by simp only [run, h]

theorem run_ask_error {src : Source Q A ε} {q : Q} {e : ε} (h : src q = .error e)
    (k : A q → Look Q A ε R) : (ask q k).run src = .error e := by simp only [run, h]

/-- Its own failures satisfy `P`. -/
def Stops (P : ε → Prop) : Look Q A ε R → Prop
  | ret _ => True
  | stop e => P e
  | ask _ k => ∀ a, (k a).Stops P

def bind (f : R → Look Q A ε R') : Look Q A ε R → Look Q A ε R'
  | ret r => f r
  | stop e => stop e
  | ask q k => ask q fun a => (k a).bind f

theorem run_bind (src : Source Q A ε) (f : R → Look Q A ε R') (p : Look Q A ε R) :
    (p.bind f).run src = p.run src >>= fun r => (f r).run src := by
  induction p with
  | ret r => rfl
  | stop e => rfl
  | ask q k ih =>
    simp only [bind, run]
    cases src q with
    | ok a => exact ih a
    | error e => rfl

theorem Stops.bind {P : ε → Prop} {f : R → Look Q A ε R'} {p : Look Q A ε R} (hp : p.Stops P)
    (hf : ∀ r, (f r).Stops P) : (p.bind f).Stops P := by
  induction p with
  | ret r => exact hf r
  | stop e => exact hp
  | ask q k ih => exact fun a => ih a (hp a)

end Look

/-- A function of the answers that asks for them one after the other; what it fails with itself
satisfies `P`. -/
def LooksUp (P : ε → Prop) (f : Source Q A ε → Except ε R) : Prop :=
  ∃ p : Look Q A ε R, p.Stops P ∧ ∀ src, f src = p.run src

namespace LooksUp

variable {P : ε → Prop}

theorem ok (r : R) : LooksUp P fun _ : Source Q A ε => (.ok r : Except ε R) :=
  ⟨.ret r, trivial, fun _ => rfl⟩

theorem error {e : ε} (h : P e) : LooksUp P fun _ : Source Q A ε => (.error e : Except ε R) :=
  ⟨.stop e, h, fun _ => rfl⟩

theorem ask (q : Q) : LooksUp P fun src : Source Q A ε => src q := by
  refine ⟨.ask q .ret, fun _ => trivial, fun src => ?_⟩
  simp only [Look.run]
  cases src q <;> rfl

theorem bind {f : Source Q A ε → Except ε R} {g : R → Source Q A ε → Except ε R'}
    (hf : LooksUp P f) (hg : ∀ r, LooksUp P (g r)) :
    LooksUp P fun src => f src >>= fun r => g r src := by
  obtain ⟨p, hp, hrun⟩ := hf
  choose k hk hkrun using hg
  refine ⟨p.bind k, hp.bind hk, fun src => ?_⟩
  rw [Look.run_bind, ← hrun]
  exact congrArg _ (funext fun r => hkrun r src)

theorem of_eq {f g : Source Q A ε → Except ε R} (hf : LooksUp P f) (h : ∀ src, g src = f src) :
    LooksUp P g := by
  obtain ⟨p, hp, hrun⟩ := hf
  exact ⟨p, hp, fun src => (h src).trans (hrun src)⟩

theorem mono {P' : ε → Prop} {f : Source Q A ε → Except ε R} (hf : LooksUp P f)
    (h : ∀ e, P e → P' e) : LooksUp P' f := by
  obtain ⟨p, hp, hrun⟩ := hf
  refine ⟨p, ?_, hrun⟩
  clear hrun
  induction p with
  | ret r => trivial
  | stop e => exact h e hp
  | ask q k ih => exact fun a => ih a (hp a)

end LooksUp

/-! ## What is asked -/

section Asks

variable [DecidableEq Q]

/-- The function asks the question: it fails as the question does, however that is. -/
def Asks (f : Source Q A ε → Except ε R) (src : Source Q A ε) (q : Q) : Prop :=
  ∀ e, f (Function.update src q (.error e)) = .error e

variable {P : ε → Prop} {f : Source Q A ε → Except ε R} {src src' : Source Q A ε} {q : Q}

theorem Asks.eq_error {e : ε} (h : Asks f src q) (hq : src q = .error e) : f src = .error e := by
  rw [← h e, ← hq, Function.update_eq_self]

namespace Look

theorem asks_self (k : A q → Look Q A ε R) : Asks (ask q k).run src q := fun _ =>
  run_ask_error (Function.update_self ..) k

theorem asks_ask {q' : Q} {k : A q' → Look Q A ε R} {a : A q'} (ha : src q' = .ok a) (hne : q' ≠ q) :
    Asks (ask q' k).run src q ↔ Asks (k a).run src q := by
  refine forall_congr' fun e => ?_
  rw [run_ask_ok ((Function.update_of_ne hne _ _).trans ha)]

/-- A computation that fails with a failure not its own has asked for it. -/
theorem exists_asks {p : Look Q A ε R} {e : ε} (hp : p.Stops P) (h : p.run src = .error e)
    (he : ¬ P e) : ∃ q, src q = .error e ∧ Asks p.run src q := by
  induction p with
  | ret r => exact nomatch h
  | stop e' => exact absurd (Except.error.inj h ▸ hp) he
  | ask q k ih =>
    cases ha : src q with
    | error e' =>
      rw [run_ask_error ha] at h
      exact ⟨q, by rw [ha, Except.error.inj h], asks_self k⟩
    | ok a =>
      rw [run_ask_ok ha] at h
      obtain ⟨q', hq', hasks⟩ := ih a (hp a) h
      have hne : q ≠ q' := by
        rintro rfl
        exact nomatch ha.symm.trans hq'
      exact ⟨q', hq', (asks_ask ha hne).mpr hasks⟩

end Look

theorem LooksUp.exists_asks {e : ε} (hf : LooksUp P f) (h : f src = .error e) (he : ¬ P e) :
    ∃ q, src q = .error e ∧ Asks f src q := by
  obtain ⟨p, hp, hrun⟩ := hf
  obtain rfl : f = p.run := funext hrun
  exact p.exists_asks hp h he

omit [DecidableEq Q] in
theorem LooksUp.eq_error {e : ε} (hf : LooksUp P f) (h : f src = .error e) :
    P e ∨ ∃ q, src q = .error e := by
  classical
  by_cases he : P e
  · exact Or.inl he
  · obtain ⟨q, hq, -⟩ := hf.exists_asks h he
    exact Or.inr ⟨q, hq⟩

/-! ### More answers -/

/-- Where the first source does not fail with `deep`, the second says the same. -/
def Refines (deep : ε) (src src' : Source Q A ε) : Prop := ∀ q, src q ≠ .error deep → src' q = src q

variable {deep : ε}

omit [DecidableEq Q] in
theorem LooksUp.eq_of_refines (hf : LooksUp P f) (h : Refines deep src src')
    (hne : f src ≠ .error deep) : f src' = f src := by
  obtain ⟨p, -, hrun⟩ := hf
  obtain rfl : f = p.run := funext hrun
  clear hrun
  induction p with
  | ret r => rfl
  | stop e => rfl
  | ask q k ih =>
    have hq : src q ≠ .error deep := fun hq => hne (Look.run_ask_error hq k)
    cases ha : src q with
    | error e => rw [Look.run_ask_error ha, Look.run_ask_error ((h q hq).trans ha)]
    | ok a =>
      rw [Look.run_ask_ok ha, Look.run_ask_ok ((h q hq).trans ha)]
      exact ih a (by rwa [Look.run_ask_ok ha] at hne)

variable [Nontrivial ε]

theorem Look.not_asks_of_error {q' : Q} {k : A q' → Look Q A ε R} {e : ε} (he : src q' = .error e)
    (hne : q' ≠ q) : ¬ Asks (ask q' k).run src q := by
  intro h
  obtain ⟨e', he'⟩ := exists_ne e
  have := (run_ask_error ((Function.update_of_ne hne _ _).trans he) k).symm.trans (h e')
  exact he' (Except.error.inj this).symm

theorem Look.not_asks_stop (e : ε) : ¬ Asks (stop e : Look Q A ε R).run src q := by
  intro h
  obtain ⟨e', he'⟩ := exists_ne e
  exact he' (Except.error.inj (h e')).symm

theorem not_asks_of_const (h : ∀ src src', f src = f src') : ¬ Asks f src q := by
  intro hq
  obtain ⟨e, e', hne⟩ := exists_pair_ne ε
  exact hne (Except.error.inj ((hq e).symm.trans ((h _ _).trans (hq e'))))

/-- With more answers the same questions are asked, and maybe more. -/
theorem LooksUp.asks_of_refines (hf : LooksUp P f) (h : Refines deep src src') (hq : Asks f src q) :
    Asks f src' q := by
  obtain ⟨p, -, hrun⟩ := hf
  obtain rfl : f = p.run := funext hrun
  clear hrun
  induction p with
  | ret r =>
    obtain ⟨e, -⟩ := exists_pair_ne ε
    exact nomatch hq e
  | stop e => exact absurd hq (Look.not_asks_stop e)
  | ask q' k ih =>
    by_cases hne : q' = q
    · subst hne
      exact Look.asks_self k
    · cases ha : src q' with
      | error e => exact absurd hq (Look.not_asks_of_error ha hne)
      | ok a =>
        have ha' : src' q' = .ok a := (h q' (by rw [ha]; exact nofun)).trans ha
        exact (Look.asks_ask ha' hne).mpr (ih a ((Look.asks_ask ha hne).mp hq))

theorem LooksUp.asks_of_ne_deep (hf : LooksUp P f) (h : Refines deep src src')
    (hne : f src ≠ .error deep) (hq : Asks f src' q) : Asks f src q := by
  obtain ⟨p, -, hrun⟩ := hf
  obtain rfl : f = p.run := funext hrun
  clear hrun
  induction p with
  | ret r =>
    obtain ⟨e, -⟩ := exists_pair_ne ε
    exact nomatch hq e
  | stop e => exact absurd hq (Look.not_asks_stop e)
  | ask q' k ih =>
    by_cases heq : q' = q
    · subst heq
      exact Look.asks_self k
    · have hq' : src q' ≠ .error deep := fun hq' => hne (Look.run_ask_error hq' k)
      cases ha : src q' with
      | error e => exact absurd hq (Look.not_asks_of_error ((h q' hq').trans ha) heq)
      | ok a =>
        have ha' : src' q' = .ok a := (h q' hq').trans ha
        exact (Look.asks_ask ha heq).mpr (ih a (by rwa [Look.run_ask_ok ha] at hne)
          ((Look.asks_ask ha' heq).mp hq))

end Asks

/-! ## Answers to a depth -/

section Answers

variable (body : (q : Q) → Source Q A ε → Except ε (A q)) (deep : ε)

/-- The answers that take no more than so many questions within questions. -/
def answers : ℕ → Source Q A ε
  | 0 => fun _ => .error deep
  | depth + 1 => fun q => body q (answers depth)

variable [DecidableEq Q]

/-- Answering the first question asks the second, at some depth. -/
def AsksFor (x y : Q) : Prop := ∃ depth, Asks (body x) (answers body deep depth) y

variable {body deep}

section

variable (hbody : ∀ q, LooksUp (· ≠ deep) (body q))
include hbody

omit [DecidableEq Q] in
theorem answers_refines_succ (depth : ℕ) :
    Refines deep (answers body deep depth) (answers body deep (depth + 1)) := by
  induction depth with
  | zero => exact fun q hq => absurd rfl hq
  | succ depth ih => exact fun q hq => (hbody q).eq_of_refines ih hq

omit [DecidableEq Q] in
theorem answers_refines {d d' : ℕ} (h : d ≤ d') :
    Refines deep (answers body deep d) (answers body deep d') := by
  induction h with
  | refl => exact fun _ _ => rfl
  | @step d' _ ih =>
    intro q hq
    have hd' := ih q hq
    exact (answers_refines_succ hbody d' q (hd' ▸ hq)).trans hd'

variable [Nontrivial ε]

theorem answers_ne_of_asksFor {x y : Q} (h : AsksFor body deep x y) {d : ℕ}
    (hx : answers body deep (d + 1) x ≠ .error deep) : answers body deep d y ≠ .error deep := by
  obtain ⟨d0, h0⟩ := h
  have hmax := (hbody x).asks_of_refines (answers_refines hbody (le_max_right d d0)) h0
  have hd := (hbody x).asks_of_ne_deep (answers_refines hbody (le_max_left d d0)) hx hmax
  exact fun hy => hx (hd.eq_error hy)

theorem exists_lt_of_transGen {x y : Q} (h : Relation.TransGen (AsksFor body deep) x y) {d : ℕ}
    (hx : answers body deep d x ≠ .error deep) : ∃ d' < d, answers body deep d' y ≠ .error deep := by
  induction h with
  | single h =>
    cases d with
    | zero => exact absurd rfl hx
    | succ d => exact ⟨d, d.lt_succ_self, answers_ne_of_asksFor hbody h hx⟩
  | tail _ h ih =>
    obtain ⟨d', hlt, hd'⟩ := ih
    cases d' with
    | zero => exact absurd rfl hd'
    | succ d' =>
      exact ⟨d', Nat.lt_of_succ_lt hlt, answers_ne_of_asksFor hbody h hd'⟩

/-- A question that comes to ask for itself is answered at no depth. -/
theorem answers_eq_deep_of_cycle {x : Q} (h : Relation.TransGen (AsksFor body deep) x x) (d : ℕ) :
    answers body deep d x = .error deep := by
  induction d using Nat.strong_induction_on with
  | _ d ih =>
    by_contra hd
    obtain ⟨d', hlt, hd'⟩ := exists_lt_of_transGen hbody h hd
    exact hd' (ih d' hlt)

end

section

variable (hbody : ∀ q, LooksUp (· ≠ deep) (body q)) {S : Finset Q}
  (hS : ∀ x y, AsksFor body deep x y → x ∈ S)
  (hacyclic : ∀ x, ¬ Relation.TransGen (AsksFor body deep) x x)
include hbody hS hacyclic

open scoped Classical in
/-- **The depth that suffices**: two more than there are questions that ask others. -/
theorem answers_ne_deep {d : ℕ} (hd : S.card + 2 ≤ d) (q : Q) :
    answers body deep d q ≠ .error deep := by
  let reach (x : Q) : Finset Q := S.filter (Relation.TransGen (AsksFor body deep) x)
  have hask {n : ℕ} {x : Q} (h : answers body deep (n + 1) x = .error deep) :
      ∃ y, answers body deep n y = .error deep ∧ AsksFor body deep x y := by
    obtain ⟨y, hy, hasks⟩ := (hbody x).exists_asks h (by simp)
    exact ⟨y, hy, n, hasks⟩
  -- the questions still to come grow fewer with every step
  have hdepth : ∀ n x, (reach x).card + 2 ≤ n → answers body deep n x ≠ .error deep := by
    intro n
    induction n with
    | zero => exact fun x hx => absurd hx (by omega)
    | succ n ih =>
      intro x hx h
      obtain ⟨y, hy, hxy⟩ := hask h
      by_cases hyS : y ∈ S
      · refine ih y ?_ hy
        have hlt : (reach y).card < (reach x).card := by
          refine Finset.card_lt_card ((Finset.ssubset_iff_of_subset ?_).mpr ⟨y, ?_, ?_⟩)
          · intro z hz
            obtain ⟨hzS, hyz⟩ := Finset.mem_filter.mp hz
            exact Finset.mem_filter.mpr ⟨hzS, .head hxy hyz⟩
          · exact Finset.mem_filter.mpr ⟨hyS, .single hxy⟩
          · exact fun hy => hacyclic y (Finset.mem_filter.mp hy).2
        omega
      · cases n with
        | zero => omega
        | succ n =>
          obtain ⟨z, -, hyz⟩ := hask hy
          exact hyS (hS y z hyz)
  exact hdepth d q (le_trans (Nat.add_le_add_right (Finset.card_filter_le S _) 2) hd)

end

/-- A depth at which those that ask others are answered suffices for all questions. -/
theorem answers_ne_deep_of_tried [Nontrivial ε] (hbody : ∀ q, LooksUp (· ≠ deep) (body q))
    {S : Finset Q} (hS : ∀ q ∉ S, ∀ src src', body q src = body q src') {d : ℕ} (hpos : 0 < d)
    (h : ∀ q ∈ S, answers body deep d q ≠ .error deep) {d' : ℕ} (hd : d ≤ d') (q : Q) :
    answers body deep d' q ≠ .error deep := by
  by_cases hq : q ∈ S
  · rw [answers_refines hbody hd q (h q hq)]
    exact h q hq
  · intro hdeep
    obtain ⟨d', rfl⟩ := Nat.exists_eq_succ_of_ne_zero (Nat.ne_of_gt (Nat.lt_of_lt_of_le hpos hd))
    obtain ⟨y, -, hasks⟩ := (hbody q).exists_asks hdeep (by simp)
    exact not_asks_of_const (hS q hq) hasks

/-- **Some depth suffices for all questions exactly when none comes to ask for itself.** -/
theorem answers_bounded_iff [Nontrivial ε] (hbody : ∀ q, LooksUp (· ≠ deep) (body q)) (S : Finset Q)
    (hS : ∀ x y, AsksFor body deep x y → x ∈ S) :
    (∃ bound, ∀ d ≥ bound, ∀ q, answers body deep d q ≠ .error deep) ↔
      ∀ q, ¬ Relation.TransGen (AsksFor body deep) q q := by
  constructor
  · rintro ⟨bound, h⟩ q hcycle
    exact h bound le_rfl q (answers_eq_deep_of_cycle hbody hcycle bound)
  · exact fun hacyclic => ⟨S.card + 2, fun d hd q => answers_ne_deep hbody hS hacyclic hd q⟩

end Answers

end RustyTune
