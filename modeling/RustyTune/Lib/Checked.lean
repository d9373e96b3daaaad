import Mathlib.Algebra.Order.Ring.Nat
import Mathlib.Data.List.Forall2
import Mathlib.Tactic.Common

/-!
# Computations that can abort

Integer arithmetic traps on overflow in a debug build and wraps in a release build; indexing out of
bounds aborts in both, and so does a recursion deeper than the stack.

* `Machine`: the build and the stack the program runs with; `Exec`: a result or the reason of an
  abort.
* `Machine.checked`: an operation that overflows unless its condition holds, on which the machine's
  arithmetic (`addU8`, `subU8`, `addU32`, `mulU32`, `shlU64`, `shlI64`, `shrI64`, `usize`) rests.
* **`checked_release`**, **`checked_debug`**: a release build always returns the wrapped result; a
  debug build that returns, returns the same.
* `Exec.bind_eq_ok`, `Exec.attempt_bind_eq_ok`: a sequence returns when its parts do.
* `Exec.Yields`: what holds of whatever value an attempt ends in; `Exec.Returns`, `Exec.Ends`: and it
  does not abort; `Exec.AbortsOnly`: it does so for no other reason than some.
-/

namespace RustyTune

inductive Build
  /-- Overflow is detected. -/
  | debug
  /-- Overflow wraps. -/
  | release
  deriving DecidableEq, Repr

/-- Why a computation does not return. -/
inductive Abort
  | overflow
  /-- Overflow in the arithmetic of an expression the program evaluates. -/
  | expression
  /-- Overflow in the arithmetic of an index. -/
  | index
  | indexOutOfBounds
  | stackOverflow
  deriving DecidableEq, Repr

/-- What a program runs on. -/
structure Machine where
  build : Build
  /-- How many nested look-ups the stack holds. -/
  stack : ℕ
  deriving DecidableEq, Repr

/-- A computation that returns or aborts. -/
abbrev Exec (α : Type) : Type := Except Abort α

/-- A sequence of steps that can fail succeeds when both parts do. -/
theorem except_bind_eq_ok {ε α β : Type} {x : Except ε α} {f : α → Except ε β} {b : β} :
    (x >>= f) = .ok b ↔ ∃ a, x = .ok a ∧ f a = .ok b := by
  cases x <;> simp [bind, Except.bind]

theorem except_ok_bind {ε α β : Type} (a : α) (f : α → Except ε β) :
    ((.ok a : Except ε α) >>= f) = f a := rfl

/-- A step for each element succeeds when all of them do. -/
theorem except_mapM_eq_ok {ε α β : Type} {f : α → Except ε β} {xs : List α} {ys : List β} :
    xs.mapM f = .ok ys ↔ List.Forall₂ (fun x y => f x = .ok y) xs ys := by
  induction xs generalizing ys with
  | nil =>
    rw [List.mapM_nil, List.forall₂_nil_left_iff]
    exact ⟨fun h => (Except.ok.inj h).symm, fun h => congrArg Except.ok h.symm⟩
  | cons x xs ih =>
    simp only [List.mapM_cons, except_bind_eq_ok, ih, List.forall₂_cons_left_iff]
    constructor
    · rintro ⟨y, hy, ys', hys, h⟩
      exact ⟨y, ys', hy, hys, (Except.ok.inj h).symm⟩
    · rintro ⟨y, ys', hy, hys, rfl⟩
      exact ⟨y, hy, ys', hys, rfl⟩

/-- A step for each element that has one error for those it refuses. -/
theorem except_mapM_ite {ε α β : Type} (P : α → Prop) [DecidablePred P] (g : α → β) (e : ε)
    (l : List α) : l.mapM (fun a => if P a then Except.ok (g a) else .error e) =
      if ∀ a ∈ l, P a then .ok (l.map g) else .error e := by
  induction l with
  | nil => rfl
  | cons a l ih =>
    rw [List.mapM_cons, ih]
    by_cases ha : P a
    · by_cases hl : ∀ a ∈ l, P a
      · rw [if_pos ha, if_pos hl, if_pos (List.forall_mem_cons.mpr ⟨ha, hl⟩)]
        rfl
      · rw [if_pos ha, if_neg hl, if_neg fun h => hl (List.forall_mem_cons.mp h).2]
        rfl
    · rw [if_neg ha, if_neg fun h => ha (List.forall_mem_cons.mp h).1]
      rfl

theorem foldlM_hom {m : Type → Type} [Monad m] [LawfulMonad m] {α σ τ : Type} {f : σ → α → m σ}
    {f' : τ → α → m τ} {g : σ → τ} (h : ∀ s a, g <$> f s a = f' (g s) a) (l : List α) (s : σ) :
    g <$> l.foldlM f s = l.foldlM f' (g s) := by
  induction l generalizing s with
  | nil => exact map_pure g s
  | cons a l ih =>
    rw [List.foldlM_cons, List.foldlM_cons, ← h, map_bind, bind_map_left]
    exact bind_congr fun s => ih s

namespace Exec

variable {α β : Type}

theorem bind_eq_ok {x : Exec α} {f : α → Exec β} {b : β} :
    (x >>= f) = .ok b ↔ ∃ a, x = .ok a ∧ f a = .ok b := except_bind_eq_ok

@[simp] theorem ok_bind (a : α) (f : α → Exec β) : ((.ok a : Exec α) >>= f) = f a := rfl

@[simp] theorem error_bind (e : Abort) (f : α → Exec β) :
    ((.error e : Exec α) >>= f) = .error e := rfl

@[simp] theorem pure_eq_ok {a b : α} : (pure a : Exec α) = .ok b ↔ a = b := Except.ok.injEq a b ▸ Iff.rfl

theorem attempt_bind_eq_ok {ε : Type} {x : ExceptT ε Exec α} {f : α → ExceptT ε Exec β} {b : β} :
    (x >>= f).run = .ok (.ok b) ↔ ∃ a, x.run = .ok (.ok a) ∧ (f a).run = .ok (.ok b) := by
  rw [ExceptT.run_bind, bind_eq_ok]
  constructor
  · rintro ⟨a | a, hx, h⟩
    · cases h
    · exact ⟨a, hx, h⟩
  · rintro ⟨a, hx, h⟩
    exact ⟨_, hx, h⟩

theorem attempt_bind_eq_error {ε : Type} {x : ExceptT ε Exec α} {f : α → ExceptT ε Exec β} {e : ε} :
    (x >>= f).run = .ok (.error e) ↔
      x.run = .ok (.error e) ∨ ∃ a, x.run = .ok (.ok a) ∧ (f a).run = .ok (.error e) := by
  rw [ExceptT.run_bind, bind_eq_ok]
  constructor
  · rintro ⟨a | a, hx, h⟩
    · cases h
      exact Or.inl hx
    · exact Or.inr ⟨a, hx, h⟩
  · rintro (hx | ⟨a, hx, h⟩)
    · exact ⟨_, hx, rfl⟩
    · exact ⟨_, hx, h⟩

/-- Whatever value the attempt ends in satisfies `P`. -/
def Yields {ε : Type} (x : ExceptT ε Exec α) (P : α → Prop) : Prop :=
  ∀ a, x.run = .ok (.ok a) → P a

section Yields

variable {ε : Type} {P : β → Prop}

theorem yields_bind {x : ExceptT ε Exec α} {f : α → ExceptT ε Exec β} (h : ∀ a, Yields (f a) P) :
    Yields (x >>= f) P := fun b hb => by
  obtain ⟨a, -, ha⟩ := attempt_bind_eq_ok.mp hb
  exact h a b ha

theorem Yields.bind {P' : α → Prop} {x : ExceptT ε Exec α} {f : α → ExceptT ε Exec β}
    (hx : Yields x P') (hf : ∀ a, P' a → Yields (f a) P) : Yields (x >>= f) P := fun b hb => by
  obtain ⟨a, ha, hb⟩ := attempt_bind_eq_ok.mp hb
  exact hf a (hx a ha) b hb

theorem yields_pure {b : β} (h : P b) : Yields (pure b : ExceptT ε Exec β) P := fun b' hb => by
  rw [← Except.ok.inj (Except.ok.inj hb)]
  exact h

theorem yields_throw (e : ε) : Yields (throw e : ExceptT ε Exec β) P :=
  fun _ hb => nomatch Except.ok.inj hb

theorem yields_throw_bind (e : ε) {f : α → ExceptT ε Exec β} :
    Yields ((throw e : ExceptT ε Exec α) >>= f) P := fun _ hb => by
  obtain ⟨a, ha, -⟩ := attempt_bind_eq_ok.mp hb
  exact nomatch Except.ok.inj ha

end Yields

/-- The computation returns, and its value satisfies `P`. -/
def Returns (x : Exec α) (P : α → Prop) : Prop := ∃ a, x = .ok a ∧ P a

section Returns

variable {P : α → Prop} {Q : β → Prop}

theorem returns_pure {a : α} (h : P a) : Returns (pure a : Exec α) P := ⟨a, rfl, h⟩

theorem Returns.bind {x : Exec α} {f : α → Exec β} (hx : Returns x P)
    (hf : ∀ a, P a → Returns (f a) Q) : Returns (x >>= f) Q := by
  obtain ⟨a, rfl, ha⟩ := hx
  exact hf a ha

end Returns

/-- The attempt returns, and whatever value it ends in satisfies `P`. -/
def Ends {ε : Type} (x : ExceptT ε Exec α) (P : α → Prop) : Prop :=
  ∃ r, x.run = .ok r ∧ ∀ a, r = .ok a → P a

section Ends

variable {ε : Type} {P : α → Prop} {Q : β → Prop}

theorem ends_pure {a : α} (h : P a) : Ends (pure a : ExceptT ε Exec α) P :=
  ⟨.ok a, rfl, fun _ hb => Except.ok.inj hb ▸ h⟩

theorem ends_throw (e : ε) : Ends (throw e : ExceptT ε Exec α) P :=
  ⟨.error e, rfl, fun _ hb => nomatch hb⟩

theorem ends_mk {r : Except ε α} (h : ∀ a, r = .ok a → P a) :
    Ends (ExceptT.mk (.ok r) : ExceptT ε Exec α) P := ⟨r, rfl, h⟩

theorem Returns.lift {x : Exec α} (hx : Returns x P) : Ends (liftM x : ExceptT ε Exec α) P := by
  obtain ⟨a, rfl, ha⟩ := hx
  exact ends_pure ha

theorem Ends.run {x : ExceptT ε Exec α} (hx : Ends x P) :
    Returns x.run fun r => ∀ a, r = .ok a → P a := hx

theorem Ends.bind {x : ExceptT ε Exec α} {f : α → ExceptT ε Exec β} (hx : Ends x P)
    (hf : ∀ a, P a → Ends (f a) Q) : Ends (x >>= f) Q := by
  obtain ⟨r, hr, hP⟩ := hx
  cases r with
  | error e => exact ⟨.error e, by rw [ExceptT.run_bind, hr]; rfl, fun _ hb => nomatch hb⟩
  | ok a =>
    obtain ⟨r', hr', hQ⟩ := hf a (hP a rfl)
    refine ⟨r', ?_, hQ⟩
    rw [ExceptT.run_bind, hr]
    exact hr'

theorem Ends.mono {P' : α → Prop} {x : ExceptT ε Exec α} (hx : Ends x P) (h : ∀ a, P a → P' a) :
    Ends x P' := by
  obtain ⟨r, hr, hP⟩ := hx
  exact ⟨r, hr, fun a ha => h a (hP a ha)⟩

/-- A loop that keeps an invariant ends when its body does. -/
theorem ends_foldlM {f : β → α → ExceptT ε Exec β} (hf : ∀ b a, Q b → Ends (f b a) Q) (l : List α)
    {b : β} (hb : Q b) : Ends (l.foldlM f b) Q := by
  induction l generalizing b with
  | nil => exact ends_pure hb
  | cons a l ih =>
    rw [List.foldlM_cons]
    exact (hf b a hb).bind fun b' hb' => ih hb'

theorem ends_mapM {f : α → ExceptT ε Exec β} (hf : ∀ a, Ends (f a) fun _ => True) (l : List α) :
    Ends (l.mapM f) fun _ => True := by
  induction l with
  | nil => exact ends_pure trivial
  | cons a l ih =>
    rw [List.mapM_cons]
    exact (hf a).bind fun _ _ => ih.bind fun _ _ => ends_pure trivial

end Ends

/-- The computation aborts for reasons in `P` only. -/
def AbortsOnly (P : Abort → Prop) (x : Exec α) : Prop := ∀ e, x = .error e → P e

section AbortsOnly

variable {ε : Type} {P : Abort → Prop}

theorem abortsOnly_ok (a : α) : AbortsOnly P (.ok a : Exec α) := fun _ h => nomatch h

theorem abortsOnly_error {e : Abort} (h : P e) : AbortsOnly P (.error e : Exec α) := fun _ h' =>
  Except.error.inj h' ▸ h

theorem AbortsOnly.bind {x : Exec α} {f : α → Exec β} (hx : AbortsOnly P x)
    (hf : ∀ a, x = .ok a → AbortsOnly P (f a)) : AbortsOnly P (x >>= f) := by
  cases x with
  | ok a => exact hf a rfl
  | error e => exact abortsOnly_error (hx e rfl)

/-- A sequence aborts for reasons in `P` only when its parts do. -/
theorem abortsOnly_bind {x : Exec α} {f : α → Exec β} :
    AbortsOnly P (x >>= f) ↔ AbortsOnly P x ∧ ∀ a, x = .ok a → AbortsOnly P (f a) := by
  refine ⟨fun h => ⟨fun e he => h e (by rw [he]; rfl), ?_⟩, fun h => h.1.bind h.2⟩
  rintro a rfl
  exact h

theorem AbortsOnly.attempt_bind {x : ExceptT ε Exec α} {f : α → ExceptT ε Exec β}
    (hx : AbortsOnly P x.run) (hf : ∀ a, x.run = .ok (.ok a) → AbortsOnly P (f a).run) :
    AbortsOnly P (x >>= f).run := by
  rw [ExceptT.run_bind]
  refine hx.bind fun r hr => ?_
  cases r with
  | ok a => exact hf a hr
  | error e => exact abortsOnly_ok _

theorem AbortsOnly.after {x : ExceptT ε Exec α} {f : α → ExceptT ε Exec β}
    (h : AbortsOnly P (x >>= f).run) {a : α} (hx : x.run = .ok (.ok a)) :
    AbortsOnly P (f a).run := by
  rw [ExceptT.run_bind, hx] at h
  exact h

theorem AbortsOnly.lift {x : Exec α} (hx : AbortsOnly P x) :
    AbortsOnly P (liftM x : ExceptT ε Exec α).run := by
  cases x with
  | ok a => exact abortsOnly_ok _
  | error e => exact abortsOnly_error (hx e rfl)

/-- A loop whose body keeps an invariant and aborts for such reasons only. -/
theorem abortsOnly_foldlM {Q : β → Prop} {f : β → α → Exec β}
    (hf : ∀ b a, Q b → AbortsOnly P (f b a)) (hQ : ∀ b a b', Q b → f b a = .ok b' → Q b') (l : List α)
    {b : β} (hb : Q b) : AbortsOnly P (l.foldlM f b) := by
  induction l generalizing b with
  | nil => exact abortsOnly_ok b
  | cons a l ih =>
    rw [List.foldlM_cons]
    exact (hf b a hb).bind fun b' hb' => ih (hQ b a b' hb hb')

theorem abortsOnly_mapM {f : α → Exec β} {l : List α} (hf : ∀ a ∈ l, AbortsOnly P (f a)) :
    AbortsOnly P (l.mapM f) := by
  induction l with
  | nil => exact abortsOnly_ok _
  | cons a l ih =>
    obtain ⟨ha, hl⟩ := List.forall_mem_cons.mp hf
    rw [List.mapM_cons]
    exact ha.bind fun _ _ => (ih hl).bind fun _ _ => abortsOnly_ok _

end AbortsOnly

end Exec

namespace Machine

variable {α : Type} (m : Machine)

/-- An operation with the given result when it wraps, which overflows unless `ok`. -/
def checked (ok : Bool) (wrapped : α) : Exec α :=
  if m.build = .debug ∧ ok = false then .error .overflow else .ok wrapped

theorem checked_release (h : m.build = .release) (ok : Bool) (wrapped : α) :
    m.checked ok wrapped = .ok wrapped := by
  simp [checked, h]

theorem checked_debug {ok : Bool} {wrapped a : α} (h : m.checked ok wrapped = .ok a) :
    a = wrapped := by
  unfold checked at h
  split_ifs at h
  exact (Except.ok.inj h).symm

/-- Within range no build overflows. -/
@[simp] theorem checked_true (wrapped : α) : m.checked true wrapped = .ok wrapped := by
  simp [checked]

/-! ## Arithmetic -/

def addU8 (a b : UInt8) : Exec UInt8 := m.checked (a.toNat + b.toNat < 2 ^ 8) (a + b)

def subU8 (a b : UInt8) : Exec UInt8 := m.checked (b.toNat ≤ a.toNat) (a - b)

def addU32 (a b : UInt32) : Exec UInt32 := m.checked (a.toNat + b.toNat < 2 ^ 32) (a + b)

def mulU32 (a b : UInt32) : Exec UInt32 := m.checked (a.toNat * b.toNat < 2 ^ 32) (a * b)

/-- `<<` on `u64`: the amount must be below the width, and is reduced to it otherwise. -/
def shlU64 (a : BitVec 64) (n : ℕ) : Exec (BitVec 64) := m.checked (n < 64) (a <<< (n % 64))

def shrU64 (a : BitVec 64) (n : ℕ) : Exec (BitVec 64) := m.checked (n < 64) (a >>> (n % 64))

/-- `<<` on `i64`; the sign bit may be shifted into. -/
def shlI64 (a : BitVec 64) (n : ℕ) : Exec (BitVec 64) := m.shlU64 a n

/-- `>>` on `i64` keeps the sign. -/
def shrI64 (a : BitVec 64) (n : ℕ) : Exec (BitVec 64) := m.checked (n < 64) (a.sshiftRight (n % 64))

/-- `a - 1` on `u64`. -/
def predU64 (a : BitVec 64) : Exec (BitVec 64) := m.checked (a ≠ 0) (a - 1)

/-- `a - 1` on `i64`. -/
def predI64 (a : BitVec 64) : Exec (BitVec 64) := m.checked (a ≠ BitVec.intMin 64) (a - 1)

/-- The result of an operation on `usize`. -/
def usize (n : ℕ) : Exec ℕ := (m.checked (n < 2 ^ 64) (n % 2 ^ 64)).mapError fun _ => .index

theorem usize_of_lt {n : ℕ} (h : n < 2 ^ 64) : m.usize n = .ok n := by
  rw [usize, decide_eq_true h, checked_true, Nat.mod_eq_of_lt h]
  rfl

theorem usize_release (h : m.build = .release) (n : ℕ) : m.usize n = .ok (n % 2 ^ 64) := by
  rw [usize, m.checked_release h]
  rfl

theorem usize_debug (h : m.build = .debug) {n : ℕ} (hn : 2 ^ 64 ≤ n) :
    m.usize n = .error .index := by
  rw [usize, checked, decide_eq_false (Nat.not_lt.mpr hn), if_pos ⟨h, rfl⟩]
  rfl

end Machine

end RustyTune
