import Mathlib.Algebra.Order.Ring.Nat
import Mathlib.Data.Finset.Basic
import Mathlib.Logic.Equiv.Basic
import RustyTune.Lib.Run
import RustyTune.Lib.Since
import RustyTune.Lib.Text

/-!
# Pairing

A device is approved by a code, the master PIN or one of a pairing window, and gets a token that stays
valid until it is revoked. Codes and tokens are kept as their hashes.

* `AuthState`: the approved hashes, the pairing window, and the hash of the PIN.
* `AuthState.openPairing`, `approve`, `revoke`, `valid`: the calls; `AuthState.call`: one of them, with
  what it has done as an `AuthEvent`.
* `Live`, `Issued`: what the history says of a code and of a token.
* **`pairing_machine`**: the calls answer by the history alone.
-/

namespace RustyTune.Server

/-- A code and how long it is valid. -/
structure PairingCode where
  hash : String
  expires : ℕ
  deriving DecidableEq, Repr

structure AuthState where
  approved : Finset String
  pairing : Option PairingCode
  masterPinHash : Option String

/-- 300 s, the time being in nanoseconds. -/
def pairingWindow : ℕ := 300 * 10 ^ 9

namespace AuthState

variable (hash : String → String)

/-- The hashes in the store, when it can be read. -/
def readStore (store : Option (List Char)) : List String :=
  (store.map fun s => (Text.lines s).map String.ofList).getD []

/-- The state at the start, with the contents of the store. -/
def new (store : Option (List Char)) (masterPin : Option String) : AuthState where
  approved := (readStore store).toFinset
  pairing := none
  masterPinHash := masterPin.map hash

/-- A new code replaces the one before. -/
def openPairing (s : AuthState) (now : ℕ) (code : String) : AuthState :=
  { s with pairing := some ⟨hash code, now + pairingWindow⟩ }

/-- The code of the window, not expired. -/
def oneTimeValid (s : AuthState) (now : ℕ) (code : String) : Bool :=
  s.pairing.any fun p => decide (now < p.expires) && p.hash == hash code

def masterValid (s : AuthState) (code : String) : Bool := s.masterPinHash == some (hash code)

theorem oneTimeValid_iff {hash : String → String} {s : AuthState} {now : ℕ} {code : String} :
    s.oneTimeValid hash now code = true ↔
      ∃ w, s.pairing = some w ∧ now < w.expires ∧ w.hash = hash code := by
  rw [oneTimeValid]
  cases s.pairing with
  | none => simp
  | some w => simp

theorem oneTimeValid_openPairing {s : AuthState} {now t : ℕ} {c code : String} :
    (s.openPairing hash now c).oneTimeValid hash t code = true ↔
      hash c = hash code ∧ t < now + pairingWindow := by
  rw [oneTimeValid, openPairing, Option.any_some, Bool.and_eq_true, decide_eq_true_iff,
    beq_iff_eq, and_comm]

/-- `token` is the one that is generated if the code is right. -/
def approve (s : AuthState) (now : ℕ) (code token : String) : Except String String × AuthState :=
  if !s.oneTimeValid hash now code && !s.masterValid hash code then
    (.error "pairing code is invalid or expired", s)
  else
    let s := if s.oneTimeValid hash now code then { s with pairing := none } else s
    (.ok token, { s with approved := insert (hash token) s.approved })

def valid (s : AuthState) (token : String) : Bool := decide (hash token ∈ s.approved)

def revoke (s : AuthState) (token : String) : AuthState :=
  { s with approved := s.approved.erase (hash token) }

theorem valid_iff {hash : String → String} {s : AuthState} {token : String} :
    s.valid hash token = true ↔ hash token ∈ s.approved := decide_eq_true_iff

end AuthState

inductive AuthCall
  | openPairing (code : String)
  | approve (code token : String)
  | revoke (token : String)
  | valid (token : String)
  deriving DecidableEq, Repr

/-- What a call has done. -/
inductive AuthEvent
  | opened (at_ : ℕ) (code : String)
  | approved (code token : String)
  | refused (code : String)
  | revoked (token : String)
  | answered (token : String) (valid : Bool)
  deriving DecidableEq, Repr

def AuthState.call (hash : String → String) (s : AuthState) (now : ℕ) :
    AuthCall → AuthEvent × AuthState
  | .openPairing code => (.opened now code, s.openPairing hash now code)
  | .approve code token =>
    match s.approve hash now code token with
    | (.ok token, s) => (.approved code token, s)
    | (.error _, s) => (.refused code, s)
  | .revoke token => (.revoked token, s.revoke hash token)
  | .valid token => (.answered token (s.valid hash token), s)

abbrev Paired := AuthState × List AuthEvent

def Paired.call (hash : String → String) (p : Paired) (c : ℕ × AuthCall) : Paired :=
  let (event, s) := p.1.call hash c.1 c.2
  (s, p.2 ++ [event])

/-! ## What the history says -/

/-- The code was opened last, it is not expired, and no device was approved by it since. -/
def Live (now : ℕ) (code : String) : List AuthEvent → Prop :=
  Since (fun e => ∃ at_, e = .opened at_ code ∧ now < at_ + pairingWindow)
    (fun e => (∃ at_ c, e = .opened at_ c) ∨ ∃ token, e = .approved code token)

/-- An approval has returned the token, or the store had it at the start, and it was not revoked
since. -/
def Issued (atStart : Prop) (token : String) (h : List AuthEvent) : Prop :=
  Since (fun e => ∃ code, e = .approved code token) (· = .revoked token) h ∨
    (atStart ∧ Never (· = .revoked token) h)

def AuthEvent.opens (code : String) : AuthEvent → Bool
  | .opened _ c => c == code
  | _ => false

def AuthEvent.approves (code : String) : AuthEvent → Bool
  | .approved c _ => c == code
  | _ => false

/-! ## The calls by the history -/

section

variable {hash : String → String} {pin : Option String} {atStart : String → Prop}
  {s : AuthState} {h : List AuthEvent} {now : ℕ} {code token : String}

theorem countP_concat_of_neg {ε : Type} {p : ε → Bool} {h : List ε} {e : ε} (he : p e = false) :
    (h ++ [e]).countP p = h.countP p := by
  rw [List.countP_append, List.countP_singleton, he, if_neg Bool.false_ne_true, Nat.add_zero]

theorem live_opened {at_ : ℕ} {c : String} :
    Live now code (h ++ [.opened at_ c]) ↔ c = code ∧ now < at_ + pairingWindow := by
  rw [Live, since_concat]
  simp

theorem live_approved {c : String} :
    Live now code (h ++ [.approved c token]) ↔ Live now code h ∧ c ≠ code := by
  rw [Live, since_concat]
  simp

theorem live_revoked : Live now code (h ++ [.revoked token]) ↔ Live now code h := by
  rw [Live, since_concat]
  simp

theorem issued_approved {start : Prop} {t : String} :
    Issued start t (h ++ [.approved code token]) ↔ token = t ∨ Issued start t h := by
  rw [Issued, Issued, since_concat, never_concat]
  simp [or_assoc]

theorem issued_revoked {start : Prop} {t : String} :
    Issued start t (h ++ [.revoked token]) ↔ Issued start t h ∧ token ≠ t := by
  rw [Issued, Issued, since_concat, never_concat]
  simp [or_and_right, and_assoc]

theorem issued_opened {at_ : ℕ} {start : Prop} {t : String} :
    Issued start t (h ++ [.opened at_ code]) ↔ Issued start t h := by
  rw [Issued, Issued, since_concat, never_concat]
  simp

/-- An event that opens, approves and revokes nothing. -/
def AuthEvent.Idle : AuthEvent → Prop
  | .refused _ | .answered _ _ => True
  | _ => False

theorem live_idle {e : AuthEvent} (he : e.Idle) : Live now code (h ++ [e]) ↔ Live now code h := by
  rw [Live, since_concat]
  cases e <;> simp_all [AuthEvent.Idle]

theorem issued_idle {e : AuthEvent} (he : e.Idle) {start : Prop} {t : String} :
    Issued start t (h ++ [e]) ↔ Issued start t h := by
  rw [Issued, Issued, since_concat, never_concat]
  cases e <;> simp_all [AuthEvent.Idle]

/-- What holds of a state and its history. A code that is the PIN is no one-time code. -/
structure Agrees (hash : String → String) (pin : Option String) (atStart : String → Prop)
    (s : AuthState) (h : List AuthEvent) : Prop where
  master : s.masterPinHash = pin.map hash
  live : ∀ code, pin ≠ some code → ∀ now, s.oneTimeValid hash now code = true ↔ Live now code h
  count : ∀ code, pin ≠ some code →
    h.countP (·.approves code) + (if s.pairing.any (·.hash == hash code) then 1 else 0) ≤
      h.countP (·.opens code)
  issued : ∀ token, s.valid hash token = true ↔ Issued (atStart token) token h

theorem agrees_new (store : Option (List Char)) :
    Agrees hash pin (fun t => hash t ∈ AuthState.readStore store)
      (AuthState.new hash store pin) [] where
  master := rfl
  live _ _ _ := iff_of_false (by simp [AuthState.oneTimeValid, AuthState.new]) not_since_nil
  count _ _ := by simp [AuthState.new]
  issued _ := by simp [Issued, not_since_nil, never_nil, AuthState.valid_iff, AuthState.new]

theorem Agrees.idle (ha : Agrees hash pin atStart s h) {e : AuthEvent} (he : e.Idle) :
    Agrees hash pin atStart s (h ++ [e]) where
  master := ha.master
  live code hc now := by rw [live_idle he, ha.live code hc now]
  count code hc := by
    have := ha.count code hc
    cases e <;> simp_all [AuthEvent.Idle, AuthEvent.approves, AuthEvent.opens]
  issued t := by rw [issued_idle he, ha.issued t]

variable (hinj : Function.Injective hash)

include hinj

theorem masterValid_iff (hs : s.masterPinHash = pin.map hash) (code : String) :
    s.masterValid hash code = true ↔ pin = some code := by
  rw [AuthState.masterValid, hs, beq_iff_eq]
  cases pin with
  | none => simp
  | some c => simp [hinj.eq_iff]

theorem Agrees.openPairing (ha : Agrees hash pin atStart s h) (c : String) :
    Agrees hash pin atStart (s.openPairing hash now c) (h ++ [.opened now c]) where
  master := ha.master
  live code _ t := by
    rw [live_opened, AuthState.oneTimeValid_openPairing, hinj.eq_iff]
  count code hc := by
    have hold := ha.count code hc
    have hopen : (s.openPairing hash now c).pairing.any (·.hash == hash code) = true ↔
        AuthEvent.opens code (.opened now c) = true := by
      rw [AuthEvent.opens, beq_iff_eq, ← hinj.eq_iff]
      exact beq_iff_eq
    have happ : (AuthEvent.opened now c).approves code = false := rfl
    simp only [hopen, List.countP_append, List.countP_singleton, happ, Bool.false_eq_true, if_false]
    omega
  issued t := by
    rw [issued_opened, ← ha.issued t]
    rfl

/-- An approval by the code of the window ends the window, one by the PIN leaves it, and a refusal
changes nothing. -/
theorem approve_cases (hs : s.masterPinHash = pin.map hash) (now : ℕ) (code token : String) :
    (s.oneTimeValid hash now code = true ∧ s.approve hash now code token =
        (.ok token, { s with pairing := none, approved := insert (hash token) s.approved })) ∨
    (s.oneTimeValid hash now code = false ∧ pin = some code ∧ s.approve hash now code token =
        (.ok token, { s with approved := insert (hash token) s.approved })) ∨
    (s.oneTimeValid hash now code = false ∧ pin ≠ some code ∧ s.approve hash now code token =
        (.error "pairing code is invalid or expired", s)) := by
  rw [Ne, ← masterValid_iff hinj hs, AuthState.approve]
  by_cases h1 : s.oneTimeValid hash now code = true
  · simp [h1]
  · by_cases h2 : s.masterValid hash code = true
    · simp [h1, h2]
    · simp [h1, h2]

theorem approve_eq_ok (hs : s.masterPinHash = pin.map hash) :
    (s.approve hash now code token).1 = .ok token ↔
      s.oneTimeValid hash now code = true ∨ pin = some code := by
  obtain ⟨h1, he⟩ | ⟨h1, h2, he⟩ | ⟨h1, h2, he⟩ := approve_cases hinj hs now code token
  · simp [he, h1]
  · simp [he, h2]
  · simp [he, h1, h2]

theorem mem_insert_hash {a : Finset String} {t : String} :
    hash t ∈ insert (hash token) a ↔ token = t ∨ hash t ∈ a := by
  rw [Finset.mem_insert, hinj.eq_iff, eq_comm]

theorem mem_erase_hash {a : Finset String} {t : String} :
    hash t ∈ a.erase (hash token) ↔ hash t ∈ a ∧ token ≠ t := by
  rw [Finset.mem_erase, hinj.ne_iff, and_comm, ne_comm]

/-- The window held the code, the code is used up with it. -/
theorem Agrees.approved_once (ha : Agrees hash pin atStart s h)
    (hone : s.oneTimeValid hash now code = true) (token : String) :
    Agrees hash pin atStart
      { s with pairing := none, approved := insert (hash token) s.approved }
      (h ++ [.approved code token]) where
  master := ha.master
  live c hc t := by
    obtain ⟨w, hw, -, hcode⟩ := AuthState.oneTimeValid_iff.mp hone
    refine iff_of_false (by simp [AuthState.oneTimeValid]) fun hl => ?_
    obtain ⟨hl, hne⟩ := live_approved.mp hl
    obtain ⟨w', hw', -, hcode'⟩ := AuthState.oneTimeValid_iff.mp ((ha.live c hc t).mpr hl)
    obtain rfl := Option.some.inj (hw.symm.trans hw')
    exact hne (hinj (hcode.symm.trans hcode'))
  count c hc := by
    obtain ⟨w, hw, -, hcode⟩ := AuthState.oneTimeValid_iff.mp hone
    have hold := ha.count c hc
    have happ : (AuthEvent.approved code token).opens c = false := rfl
    have hsame : (AuthEvent.approved code token).approves c = true ↔
        s.pairing.any (·.hash == hash c) = true := by
      rw [AuthEvent.approves, hw, Option.any_some, beq_iff_eq, beq_iff_eq, hcode, hinj.eq_iff]
    simp only [List.countP_append, List.countP_singleton, hsame, happ, Option.any_none,
      Bool.false_eq_true, if_false]
    omega
  issued t := by
    rw [issued_approved, ← ha.issued t, AuthState.valid_iff, AuthState.valid_iff,
      mem_insert_hash hinj]

theorem Agrees.approved_master (ha : Agrees hash pin atStart s h) (hpin : pin = some code)
    (token : String) :
    Agrees hash pin atStart { s with approved := insert (hash token) s.approved }
      (h ++ [.approved code token]) where
  master := ha.master
  live c hc t := by
    have hne : code ≠ c := fun he => hc (he ▸ hpin)
    rw [live_approved, and_iff_left hne]
    exact ha.live c hc t
  count c hc := by
    have hopens : (AuthEvent.approved code token).opens c = false := rfl
    have happroves : (AuthEvent.approved code token).approves c = false :=
      beq_eq_false_iff_ne.mpr fun he => hc (he ▸ hpin)
    rw [countP_concat_of_neg hopens, countP_concat_of_neg happroves]
    exact ha.count c hc
  issued t := by
    rw [issued_approved, ← ha.issued t, AuthState.valid_iff, AuthState.valid_iff,
      mem_insert_hash hinj]

theorem Agrees.revoke (ha : Agrees hash pin atStart s h) (token : String) :
    Agrees hash pin atStart (s.revoke hash token) (h ++ [.revoked token]) where
  master := ha.master
  live c hc t := by
    rw [live_revoked]
    exact ha.live c hc t
  count c hc := by
    have hopens : (AuthEvent.revoked token).opens c = false := rfl
    have happroves : (AuthEvent.revoked token).approves c = false := rfl
    rw [countP_concat_of_neg hopens, countP_concat_of_neg happroves]
    exact ha.count c hc
  issued t := by
    rw [issued_revoked, ← ha.issued t, AuthState.valid_iff, AuthState.valid_iff,
      AuthState.revoke, mem_erase_hash hinj]

/-- **One call.** -/
theorem Agrees.call (ha : Agrees hash pin atStart s h) (now : ℕ) (c : AuthCall) :
    Agrees hash pin atStart (s.call hash now c).2 (h ++ [(s.call hash now c).1]) := by
  cases c with
  | openPairing code => exact ha.openPairing hinj code
  | revoke token => exact ha.revoke hinj token
  | valid token => exact ha.idle trivial
  | approve code token =>
    rw [AuthState.call]
    obtain ⟨hone, he⟩ | ⟨-, hpin, he⟩ | ⟨-, -, he⟩ := approve_cases hinj ha.master now code token
    · rw [he]
      exact ha.approved_once hinj hone token
    · rw [he]
      exact ha.approved_master hinj hpin token
    · rw [he]
      exact ha.idle trivial

/-- **A run.** -/
theorem agrees_run (store : Option (List Char)) (calls : List (ℕ × AuthCall)) :
    Agrees hash pin (fun t => hash t ∈ AuthState.readStore store)
      (calls.foldl (Paired.call hash) (AuthState.new hash store pin, [])).1
      (calls.foldl (Paired.call hash) (AuthState.new hash store pin, [])).2 :=
  foldl_invariant (fun _ c ha => Agrees.call hinj ha c.1 c.2) calls (agrees_new store)

end

/-- **Pairing.** After any calls at any times, an approval succeeds exactly for the PIN and for the code
that the history says is live; a one-time code has given no more tokens than it was opened times,
so one if it is fresh; and a token is valid exactly when the history says it is issued. -/
theorem pairing_machine {hash : String → String} (hinj : Function.Injective hash)
    (pin : Option String) (store : Option (List Char)) (calls : List (ℕ × AuthCall)) :
    let (s, h) := calls.foldl (Paired.call hash) (AuthState.new hash store pin, [])
    (∀ now code token, (s.approve hash now code token).1 = .ok token ↔
      pin = some code ∨ Live now code h) ∧
    (∀ code, pin ≠ some code → h.countP (·.approves code) ≤ h.countP (·.opens code)) ∧
    (∀ token, s.valid hash token = true ↔ Issued (hash token ∈ AuthState.readStore store) token h) := by
  have ha : Agrees hash pin _ _ _ := agrees_run hinj store calls
  refine ⟨fun now code token => ?_, fun code hc => ?_, ha.issued⟩
  · by_cases hpin : pin = some code
    · rw [approve_eq_ok hinj ha.master]
      exact iff_of_true (.inr hpin) (.inl hpin)
    · rw [approve_eq_ok hinj ha.master, ha.live code hpin now, or_comm]
  · exact (Nat.le_add_right _ _).trans (ha.count code hc)

/-- The hash on a code and a token. -/
def sampleHash : Equiv.Perm String :=
  (Equiv.swap "123456" "8d969eef6ecad3c29a3a629280e686cf0c3f5d5a86aff3ca12020c923adc6c92").trans
    (Equiv.swap "00070e151c232a31383f464d545b626970777e858c939aa1a8afb6bdc4cbd2d9"
      "ce850146a9c6665e5a75850a46f97ccd6d2186a09cd7cc64a886ed8295c01edc")

theorem pairing_machine_device :
    let token := "00070e151c232a31383f464d545b626970777e858c939aa1a8afb6bdc4cbd2d9"
    let s := [(3, AuthCall.openPairing "123456"), (5, .approve "123456" token)].foldl
      (Paired.call sampleHash) (AuthState.new sampleHash none none, [])
    s.1.valid sampleHash token = true ∧ (s.1.approve sampleHash 7 "123456" "").1 ≠ .ok "" := by
  intro token s
  have hh : s.2 = [.opened 3 "123456"] ++ [.approved "123456" token] := by decide +kernel
  have h := pairing_machine sampleHash.injective none none
    [(3, .openPairing "123456"), (5, .approve "123456" token)]
  constructor
  · refine (h.2.2 token).mpr ?_
    show Issued _ token s.2
    rw [hh, issued_approved]
    exact .inl rfl
  · refine (h.1 7 "123456" "").not.mpr ?_
    show ¬ (none = some "123456" ∨ Live 7 "123456" s.2)
    rw [hh, live_approved]
    simp

end RustyTune.Server
