import RustyTune.Server.Auth

/-!
# The store of approved devices

An approval or a revocation changes the set, takes a snapshot of it, and writes the snapshot to the
store; between these steps other calls go on, but for another approval, which the lock on the window
keeps out.

* `Devices`: the state, the file and the calls that have not finished; `Devices.step`.
* `Devices.InOrder`: no snapshot is written over a newer one.
* `Kept`: what holds along a run whose writes are in order.
* **`store_current`**: once the calls of such a run have finished, the file lists the approved set.
  **`store_stale`**: when a write comes late it may not.
-/

namespace RustyTune.Server

/-- How far a call is: it has changed the set, or has also taken the snapshot with this number. -/
inductive CallStage
  | changed
  | taken (number : ℕ) (data : List String)
  deriving DecidableEq, Repr

/-- A call that has not finished. -/
structure Persisting where
  approves : Bool
  stage : CallStage
  deriving DecidableEq, Repr

/-- The server's part in pairing, with its store. The snapshots are numbered; `written` is the number of
the newest that was written. -/
structure Devices where
  auth : AuthState
  store : Option (List Char)
  calls : List Persisting
  snapshots : ℕ
  written : ℕ

inductive DeviceStep
  | openPairing (now : ℕ) (code : String)
  | approve (now : ℕ) (code token : String)
  | revoke (token : String)
  | snapshot (i : ℕ) (data : List String)
  | write (i : ℕ)
  | restart (masterPin : Option String)

namespace Devices

variable (hash : String → String)

/-- A server with no store yet. -/
def start (masterPin : Option String) : Devices where
  auth := AuthState.new hash none masterPin
  store := none
  calls := []
  snapshots := 0
  written := 0

/-- The lock on the window is held. -/
def approving (s : Devices) : Bool := s.calls.any (·.approves)

def storeText (data : List String) : List Char := Text.joinLines (data.map String.toList)

/-- One step. A call waits for a lock by not taking its step. -/
def step (s : Devices) : DeviceStep → Devices
  | .openPairing now code =>
    if s.approving then s else { s with auth := s.auth.openPairing hash now code }
  | .approve now code token =>
    if s.approving then s
    else
      match s.auth.approve hash now code token with
      | (.ok _, auth) => { s with auth, calls := s.calls ++ [⟨true, .changed⟩] }
      | (.error _, auth) => { s with auth }
  | .revoke token =>
    { s with auth := s.auth.revoke hash token, calls := s.calls ++ [⟨false, .changed⟩] }
  | .snapshot i data =>
    match s.calls[i]? with
    | some ⟨approves, .changed⟩ =>
      -- the order of a set is any
      if data.Nodup ∧ data.toFinset = s.auth.approved then
        { s with
          calls := s.calls.set i ⟨approves, .taken (s.snapshots + 1) data⟩
          snapshots := s.snapshots + 1 }
      else s
    | _ => s
  | .write i =>
    match s.calls[i]? with
    | some ⟨_, .taken number data⟩ =>
      { s with
        store := some (storeText data)
        calls := s.calls.eraseIdx i
        written := max s.written number }
    | _ => s
  | .restart masterPin =>
    { s with
      auth := AuthState.new hash s.store masterPin
      calls := []
      written := s.snapshots }

def listed (s : Devices) : Finset String := (AuthState.readStore s.store).toFinset

/-- A write is of no older snapshot than one that was written, or of the same devices. -/
def InOrder (s : Devices) : DeviceStep → Prop
  | .write i =>
    match s.calls[i]? with
    | some ⟨_, .taken number data⟩ => s.written ≤ number ∨ data.toFinset = s.listed
    | _ => True
  | _ => True

instance : ∀ (s : Devices) (d : DeviceStep), Decidable (s.InOrder d)
  | s, .write i =>
    match h : s.calls[i]? with
    | some ⟨_, .taken _ _⟩ => decidable_of_iff (_ ∨ _) (by rw [InOrder, h])
    | some ⟨_, .changed⟩ => isTrue (by rw [InOrder, h]; trivial)
    | none => isTrue (by rw [InOrder, h]; trivial)
  | _, .openPairing _ _ | _, .approve _ _ _ | _, .revoke _ | _, .snapshot _ _ | _, .restart _ =>
    isTrue trivial

end Devices

variable {hash : String → String} {s : Devices} {e : String}

/-- What is a line of the store. -/
def Entry (e : String) : Prop := Text.OneLine e.toList

theorem readStore_storeText {data : List String} (h : ∀ e ∈ data, Entry e) :
    AuthState.readStore (some (Devices.storeText data)) = data := by
  have hlines : ∀ l ∈ data.map String.toList, Text.OneLine l := by
    intro l hl
    obtain ⟨e, he, rfl⟩ := List.mem_map.mp hl
    exact h e he
  rw [AuthState.readStore, Devices.storeText, Option.map_some, Option.getD_some,
    Text.lines_joinLines hlines, List.map_map]
  exact List.map_id'' (fun e => String.ofList_toList) data

/-- What holds along a run whose writes are in order. While no call is between its change and its
snapshot, the newest snapshot is the approved set. -/
structure Kept (s : Devices) : Prop where
  approved : ∀ e ∈ s.auth.approved, Entry e
  listed : ∀ e ∈ s.listed, Entry e
  taken : ∀ c ∈ s.calls, ∀ number data, c.stage = .taken number data →
    number ≤ s.snapshots ∧ ∀ e ∈ data, Entry e
  written : s.written ≤ s.snapshots
  newest : s.written = s.snapshots ∨
    ∃ c ∈ s.calls, ∃ data, c.stage = .taken s.snapshots data
  inFile : (∀ c ∈ s.calls, c.stage ≠ .changed) → s.written = s.snapshots →
    s.listed = s.auth.approved
  inCall : (∀ c ∈ s.calls, c.stage ≠ .changed) → ∀ c ∈ s.calls, ∀ data,
    c.stage = .taken s.snapshots data → data.toFinset = s.auth.approved

theorem kept_start (masterPin : Option String) : Kept (Devices.start hash masterPin) where
  approved e he := by simp [Devices.start, AuthState.new, AuthState.readStore] at he
  listed e he := by simp [Devices.listed, Devices.start, AuthState.readStore] at he
  taken c hc := absurd hc List.not_mem_nil
  written := le_rfl
  newest := .inl rfl
  inFile _ _ := rfl
  inCall _ c hc := absurd hc List.not_mem_nil

theorem Kept.window (hk : Kept s) {auth : AuthState} (ha : auth.approved = s.auth.approved) :
    Kept { s with auth } where
  approved := ha ▸ hk.approved
  listed := hk.listed
  taken := hk.taken
  written := hk.written
  newest := hk.newest
  inFile h hw := (hk.inFile h hw).trans ha.symm
  inCall h c hc data hd := (hk.inCall h c hc data hd).trans ha.symm

theorem Kept.change (hk : Kept s) {auth : AuthState} (ha : ∀ e ∈ auth.approved, Entry e)
    (approves : Bool) : Kept { s with auth, calls := s.calls ++ [⟨approves, .changed⟩] } where
  approved := ha
  listed := hk.listed
  taken c hc number data hd := by
    rcases List.mem_append.mp hc with hc | hc
    · exact hk.taken c hc number data hd
    · rw [List.mem_singleton.mp hc] at hd
      exact nomatch hd
  written := hk.written
  newest := hk.newest.imp_right fun ⟨c, hc, h⟩ => ⟨c, List.mem_append_left _ hc, h⟩
  inFile h := absurd rfl (h ⟨approves, .changed⟩ (by simp))
  inCall h := absurd rfl (h ⟨approves, .changed⟩ (by simp))

theorem Kept.snapshot (hk : Kept s) {i : ℕ} {approves : Bool}
    (hi : s.calls[i]? = some ⟨approves, .changed⟩) {data : List String}
    (hdata : data.toFinset = s.auth.approved) :
    Kept { s with
      calls := s.calls.set i ⟨approves, .taken (s.snapshots + 1) data⟩
      snapshots := s.snapshots + 1 } := by
  have hmem : ∀ c ∈ s.calls.set i ⟨approves, .taken (s.snapshots + 1) data⟩,
      c ∈ s.calls ∨ c = ⟨approves, .taken (s.snapshots + 1) data⟩ :=
    fun c hc => List.mem_or_eq_of_mem_set hc
  constructor
  case approved => exact hk.approved
  case listed => exact hk.listed
  case taken =>
    intro c hc number data' hd
    rcases hmem c hc with hc | rfl
    · obtain ⟨hn, he⟩ := hk.taken c hc number data' hd
      exact ⟨Nat.le_succ_of_le hn, he⟩
    · obtain ⟨rfl, rfl⟩ := CallStage.taken.inj hd
      exact ⟨le_rfl, fun e he => hk.approved e (hdata ▸ List.mem_toFinset.mpr he)⟩
  case written => exact Nat.le_succ_of_le hk.written
  case newest =>
    have hlt : i < s.calls.length := (List.getElem?_eq_some_iff.mp hi).1
    exact .inr ⟨⟨approves, .taken (s.snapshots + 1) data⟩, List.mem_set hlt _, data, rfl⟩
  case inFile =>
    intro _ hw
    have := hk.written
    have hw : s.written = s.snapshots + 1 := hw
    omega
  case inCall =>
    intro _ c hc data' hd
    rcases hmem c hc with hc | rfl
    · have : s.snapshots + 1 ≤ s.snapshots := (hk.taken c hc _ data' hd).1
      omega
    · obtain ⟨-, rfl⟩ := CallStage.taken.inj hd
      exact hdata

theorem mem_eraseIdx_or {α : Type} {l : List α} {i : ℕ} {a x : α} (hi : l[i]? = some a)
    (hx : x ∈ l) : x = a ∨ x ∈ l.eraseIdx i := by
  obtain ⟨j, hj⟩ := List.mem_iff_getElem?.mp hx
  by_cases hji : j = i
  · subst hji
    exact .inl (Option.some.inj (hj.symm.trans hi))
  · exact .inr (List.mem_eraseIdx_iff_getElem?.mpr ⟨j, hji, hj⟩)

theorem Kept.write (hk : Kept s) {i : ℕ} {approves : Bool} {number : ℕ} {data : List String}
    (hi : s.calls[i]? = some ⟨approves, .taken number data⟩)
    (hok : s.written ≤ number ∨ data.toFinset = s.listed) :
    Kept { s with
      store := some (Devices.storeText data)
      calls := s.calls.eraseIdx i
      written := max s.written number } := by
  have hcall : ⟨approves, .taken number data⟩ ∈ s.calls := List.mem_of_getElem? hi
  obtain ⟨hnumber, hdata⟩ := hk.taken _ hcall number data rfl
  have hwritten := hk.written
  have hlisted : Devices.listed { s with
      store := some (Devices.storeText data)
      calls := s.calls.eraseIdx i
      written := max s.written number } = data.toFinset := by
    rw [Devices.listed, readStore_storeText hdata]
  have hmem : ∀ c ∈ s.calls.eraseIdx i, c ∈ s.calls := fun c hc => List.mem_of_mem_eraseIdx hc
  have hchanged : (∀ c ∈ s.calls.eraseIdx i, c.stage ≠ .changed) →
      ∀ c ∈ s.calls, c.stage ≠ .changed := by
    intro h c hc
    rcases mem_eraseIdx_or hi hc with rfl | hc
    · exact nofun
    · exact h c hc
  constructor
  case approved => exact hk.approved
  case listed =>
    rw [hlisted]
    exact fun e he => hdata e (List.mem_toFinset.mp he)
  case taken => exact fun c hc => hk.taken c (hmem c hc)
  case written => exact max_le hwritten hnumber
  case newest =>
    by_cases hn : max s.written number = s.snapshots
    · exact .inl hn
    · rcases hk.newest with hw | ⟨c, hc, data', hd⟩
      · exact absurd (by omega) hn
      · refine .inr ⟨c, (mem_eraseIdx_or hi hc).resolve_left ?_, data', hd⟩
        rintro rfl
        have : number = s.snapshots := (CallStage.taken.inj hd).1
        exact hn (by omega)
  case inFile =>
    intro h hw
    have hw : max s.written number = s.snapshots := hw
    rw [hlisted]
    by_cases hn : number = s.snapshots
    · exact hk.inCall (hchanged h) _ hcall data (hn ▸ rfl)
    · -- an older snapshot was written, which lists the same devices
      rcases hok with hok | hok
      · exact absurd (by omega) hn
      · exact hok.trans (hk.inFile (hchanged h) (by omega))
  case inCall => exact fun h c hc => hk.inCall (hchanged h) c (hmem c hc)

theorem Kept.restart (hk : Kept s) (masterPin : Option String) :
    Kept (s.step hash (.restart masterPin)) where
  approved := hk.listed
  listed := hk.listed
  taken _ hc := absurd hc List.not_mem_nil
  written := le_rfl
  newest := .inl rfl
  inFile _ _ := rfl
  inCall _ _ hc := absurd hc List.not_mem_nil

theorem approve_approved (s : AuthState) (now : ℕ) (code token : String) :
    (s.approve hash now code token).2.approved = match (s.approve hash now code token).1 with
      | .ok token => insert (hash token) s.approved
      | .error _ => s.approved := by
  rw [AuthState.approve]
  split_ifs <;> rfl

/-- **One step.** -/
theorem Kept.step (hhash : ∀ value, Entry (hash value)) (hk : Kept s) (d : DeviceStep)
    (hok : s.InOrder d) : Kept (s.step hash d) := by
  cases d with
  | openPairing now code =>
    rw [Devices.step]
    split_ifs
    · exact hk
    · exact hk.window rfl
  | approve now code token =>
    rw [Devices.step]
    split_ifs
    · exact hk
    · have happ : (s.auth.approve hash now code token).2.approved = _ :=
        approve_approved s.auth now code token
      split
      next _ auth heq =>
        rw [heq] at happ
        refine hk.change (fun e he => ?_) true
        rw [happ] at he
        rcases Finset.mem_insert.mp he with rfl | he
        · exact hhash _
        · exact hk.approved e he
      next _ auth heq =>
        rw [heq] at happ
        exact hk.window happ
  | revoke token =>
    exact hk.change (fun e he => hk.approved e (Finset.mem_of_mem_erase he)) false
  | snapshot i data =>
    rw [Devices.step]
    split
    · split_ifs with h
      · exact hk.snapshot ‹_› h.2
      · exact hk
    · exact hk
  | write i =>
    rw [Devices.step]
    rw [Devices.InOrder] at hok
    split
    next approves number data hi =>
      rw [hi] at hok
      exact hk.write hi hok
    · exact hk
  | restart masterPin => exact hk.restart masterPin

theorem Kept.listed_eq (hk : Kept s) (hdone : s.calls = []) : s.listed = s.auth.approved := by
  have hnone : ∀ c ∈ s.calls, c.stage ≠ .changed := by simp [hdone]
  refine hk.inFile hnone (hk.newest.resolve_right ?_)
  simp [hdone]

/-- **The store is current.** A run whose writes are in order has, whenever its calls have finished, the
approved set in the store, and a restart changes the validity of no token. -/
theorem store_current {hash : String → String} (hhash : ∀ value, Entry (hash value))
    (masterPin : Option String) (steps : List DeviceStep)
    (hr : Along (Devices.step hash) Devices.InOrder (Devices.start hash masterPin) steps)
    (hdone : (steps.foldl (Devices.step hash) (Devices.start hash masterPin)).calls = []) :
    let s := steps.foldl (Devices.step hash) (Devices.start hash masterPin)
    s.listed = s.auth.approved ∧
      ∀ token, (s.step hash (.restart masterPin)).auth.valid hash token = s.auth.valid hash token := by
  intro s
  have hk : Kept s := hr.invariant (fun _ d hk hok => hk.step hhash d hok) (kept_start masterPin)
  have hl : s.listed = s.auth.approved := hk.listed_eq hdone
  refine ⟨hl, fun token => ?_⟩
  rw [Bool.eq_iff_iff, AuthState.valid_iff, AuthState.valid_iff, ← hl]
  rfl

/-! ## A write that comes late -/

/-- The hash on a PIN and two tokens. -/
def pinHash (value : String) : String :=
  if value = "246810" then "7c2523c985881fb2c2b4cfbe917eb12c4c4b61e898ad4e7160cfca487ca3c4f3"
  else if value = "00070e151c232a31383f464d545b626970777e858c939aa1a8afb6bdc4cbd2d9" then
    "ce850146a9c6665e5a75850a46f97ccd6d2186a09cd7cc64a886ed8295c01edc"
  else "ea21a3e55a2eb4bd7af869b22ac38b8f26dfdd74137a81eb93969a2543a4b487"

theorem entry_pinHash (value : String) : Entry (pinHash value) := by
  rw [pinHash]
  split_ifs
  all_goals
    constructor
    · decide
    · exact List.all_iff_forall_prop.mp (by decide +kernel)

/-- The first device is approved; while the second is being approved, the first is revoked, and the
approval writes last. -/
def lateWrite : List DeviceStep :=
  let first := "00070e151c232a31383f464d545b626970777e858c939aa1a8afb6bdc4cbd2d9"
  let second := "fffaf5f0ebe6e1dcd7d2cdc8c3beb9b4afaaa5a09b96918c87827d78736e6964"
  [.approve 0 "246810" first, .snapshot 0 [pinHash first], .write 0,
    .approve 1 "246810" second, .snapshot 0 [pinHash first, pinHash second],
    .revoke first, .snapshot 1 [pinHash second], .write 1, .write 0]

theorem store_current_inOrder :
    let s := (lateWrite.take 7 ++ [DeviceStep.write 0, .write 0]).foldl (Devices.step pinHash)
      (Devices.start pinHash (some "246810"))
    s.calls = [] ∧ s.listed = s.auth.approved :=
  ⟨by decide +kernel, (store_current entry_pinHash (some "246810")
    (lateWrite.take 7 ++ [DeviceStep.write 0, .write 0]) (by decide +kernel) (by decide +kernel)).1⟩

/-- **A stale store.** The revoked device is valid again after a restart. -/
theorem store_stale : ¬ ∀ (hash : String → String), (∀ value, Entry (hash value)) →
    ∀ (masterPin : Option String) (steps : List DeviceStep),
      let s := steps.foldl (Devices.step hash) (Devices.start hash masterPin)
      s.calls = [] → s.listed = s.auth.approved ∧
        ∀ token, (s.step hash (.restart masterPin)).auth.valid hash token = s.auth.valid hash token := by
  intro h
  have hlate := (h pinHash entry_pinHash (some "246810") lateWrite (by decide +kernel)).2
    "00070e151c232a31383f464d545b626970777e858c939aa1a8afb6bdc4cbd2d9"
  revert hlate
  decide +kernel

end RustyTune.Server
