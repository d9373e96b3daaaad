import RustyTune.Server.Comms

/-!
# What a request leaves alone

* `Asked w w'`: `w'` is `w` after requests that only read. `readPage_asked`, `pageCrc_asked`.
* `Fits`: the ECU's pages have the sizes of the page command set. **`readPage_ram`**: a page that is
  read is the ECU's RAM, where offsets reach it; with every request answered it is read.
* **`verifyPage_cases`**: a verification changes nothing, or puts what it reads into the shadow.
-/

namespace RustyTune.Server

open TuneModel EcuProto World

variable {F κ : Type} {env : Env κ} {pages : PageCommands} {w w' w'' : World F} {i : ℕ}

/-! ## Requests that only read -/

/-- Only reading requests lie between the two worlds. -/
structure Asked (w w' : World F) : Prop where
  tune : w'.tune = w.tune
  ecu : w'.ecu = w.ecu
  locks : w'.locks = w.locks
  writes : w'.issued .write = w.issued .write

namespace Asked

theorem refl (w : World F) : Asked w w := ⟨rfl, rfl, rfl, rfl⟩

theorem trans (h : Asked w w') (h' : Asked w' w'') : Asked w w'' :=
  ⟨h'.tune.trans h.tune, h'.ecu.trans h.ecu, h'.locks.trans h.locks, h'.writes.trans h.writes⟩

theorem setError (h : Asked w w') (text : String) : Asked w (w'.setError text) :=
  ⟨h.tune, h.ecu, h.locks, h.writes⟩

theorem ram (h : Asked w w') (i : ℕ) : w'.ram i = w.ram i := by simp only [World.ram, h.ecu]

theorem shadow (h : Asked w w') (i : ℕ) : w'.shadow i = w.shadow i := by
  simp only [World.shadow, h.tune]

end Asked

theorem request_id {α : Type} (env : Env κ) (w : World F) (k : Request) (answer : World F → α) :
    (w.request env k id answer).2 = w.ask k := by
  unfold request
  split <;> rfl

theorem ask_asked (w : World F) {k : Request} (hk : k ≠ .write) : Asked w (w.ask k) :=
  ⟨rfl, rfl, rfl, Function.update_of_ne hk.symm _ _⟩

theorem request_id_asked {α : Type} (env : Env κ) (w : World F) {k : Request} (hk : k ≠ .write)
    (answer : World F → α) : Asked w (w.request env k id answer).2 := by
  rw [request_id]
  exact ask_asked w hk

theorem request_id_ok {α : Type} {w : World F} {k : Request} {answer : World F → α} {a : α}
    (h : (w.request env k id answer).1 = .ok a) : a = answer w := by
  unfold request at h
  split at h
  · exact (Except.ok.inj h).symm
  all_goals exact nomatch h

theorem pageCrc_asked (env : Env κ) (w : World F) (i : ℕ) : Asked w (w.pageCrc env i).2 :=
  request_id_asked env w (by decide) _

theorem readPage_asked (env : Env κ) (pages : PageCommands) (i : ℕ) (w : World F) :
    Asked w (w.readPage env pages i).2 := by
  unfold World.readPage EcuProto.readPage
  split
  · exact Asked.refl w
  · exact readFrom_preserves (P := Asked w) _
      (fun s _ _ hs => hs.trans (request_id_asked env s (by decide) _)) _ _ _ _ (Asked.refl w)

/-! ## Reading a page -/

/-- The ECU's pages have the sizes of the command set. -/
def Fits (pages : PageCommands) (w : World F) : Prop :=
  w.ecu.map (fun e => e.ram.length) = pages.sizes

theorem Fits.size (h : Fits pages w) {size : ℕ} (hs : pages.sizes[i]? = some size) :
    (w.ram i).length = size := by
  rw [← h, List.getElem?_map] at hs
  obtain ⟨e, he, rfl⟩ := Option.map_eq_some_iff.mp hs
  simp [World.ram, he]

def Env.AllAnswered (env : Env κ) : Prop := ∀ k n, env.fate k n = .answered

theorem Env.AllAnswered.request {α : Type} (h : env.AllAnswered) (w : World F) (k : Request)
    (exec : World F → World F) (answer : World F → α) :
    w.request env k exec answer = (.ok (answer w), exec (w.ask k)) := by
  rw [World.request, h]

/-- **A page that is read is the ECU's RAM.** -/
theorem readPage_ram (hfits : Fits pages w) (haddr : pages.Addressable) {bytes : List UInt8}
    (h : (w.readPage env pages i).1 = .ok bytes) : bytes = w.ram i := by
  unfold World.readPage EcuProto.readPage at h
  split at h
  · exact nomatch h
  · rename_i size hs
    have hlen := hfits.size hs
    rw [← hlen] at h
    refine readFrom_bytes (P := Asked w) (w.ram i)
      (by rw [hlen]; exact haddr size (List.mem_of_getElem? hs)) pages.blockingFactor_pos
      (fun s off count hP => ⟨hP.trans (request_id_asked env s (by decide) _), fun data hd => ?_⟩)
      _ 0 w (Asked.refl w) (Nat.zero_le _) (by omega) bytes h
    rw [request_id_ok hd, hP.ram]

theorem readPage_total (hall : env.AllAnswered) (hfits : Fits pages w) (haddr : pages.Addressable)
    (hi : i < w.ecu.length) : (w.readPage env pages i).1 = .ok (w.ram i) := by
  have hlt : i < pages.sizes.length := by rw [← hfits, List.length_map]; exact hi
  unfold World.readPage EcuProto.readPage
  rw [List.getElem?_eq_getElem hlt]
  have hlen := hfits.size (List.getElem?_eq_getElem hlt)
  simp only [← hlen]
  refine readFrom_total (P := Asked w) (w.ram i)
    (by rw [hlen]; exact haddr _ (List.getElem_mem hlt)) pages.blockingFactor_pos
    (fun s off count hP => ⟨hP.trans (request_id_asked env s (by decide) _), ?_⟩)
    _ 0 w (Asked.refl w) (Nat.zero_le _) (by omega)
  simp only [hall.request, hP.ram]

/-! ## Verification -/

variable [DecidableEq κ]

/-- What a verification does: nothing, or it puts what it reads into the shadow because the CRCs
differ. -/
theorem verifyPage_cases (env : Env κ) (pages : PageCommands) (i : ℕ) (w : World F) :
    (Asked (w.lock env) (verifyPage env pages i w) ∧
      (env.AllAnswered → Fits pages w → pages.Addressable → i < w.ecu.length →
        env.crc (w.ram i) = env.crc ((w.lock env).shadow i))) ∨
    ∃ w₂ bytes text, Asked (w.lock env) w₂ ∧ env.crc (w.ram i) ≠ env.crc ((w.lock env).shadow i) ∧
      (Fits pages w → pages.Addressable → bytes = w.ram i) ∧
      verifyPage env pages i w =
        ((w₂.lock env).modifyTune (·.resyncEcu i bytes)).setError text := by
  have hram : ∀ j, (w.lock env).ram j = w.ram j := fun _ => rfl
  have hask := pageCrc_asked env (w.lock env) i
  unfold verifyPage
  dsimp only
  match hcrc : (w.lock env).pageCrc env i with
  | (.error e, w₁) =>
    rw [hcrc] at hask
    refine Or.inl ⟨hask, fun hall => ?_⟩
    rw [pageCrc, hall.request] at hcrc
    exact nomatch hcrc
  | (.ok crc, w₁) =>
    rw [hcrc] at hask
    obtain rfl : crc = env.crc (w.ram i) := request_id_ok (congrArg Prod.fst hcrc)
    dsimp only
    split_ifs with heq
    · exact Or.inl ⟨hask, fun _ _ _ _ => heq⟩
    · have hask' := hask.trans (readPage_asked env pages i w₁)
      match hread : w₁.readPage env pages i with
      | (.error e, w₂) =>
        rw [hread] at hask'
        refine Or.inl ⟨hask'.setError _, fun hall hfits haddr hi => ?_⟩
        have := readPage_total (w := w₁) hall (by unfold Fits at hfits ⊢; rw [hask.ecu]; exact hfits)
          haddr (by rw [hask.ecu]; exact hi)
        rw [hread] at this
        exact nomatch this
      | (.ok bytes, w₂) =>
        rw [hread] at hask'
        refine Or.inr ⟨w₂, bytes, _, hask', heq, fun hfits haddr => ?_, rfl⟩
        have := readPage_ram (w := w₁) (by unfold Fits at hfits ⊢; rw [hask.ecu]; exact hfits) haddr
          (congrArg Prod.fst hread)
        rw [this, hask.ram, hram]

end RustyTune.Server
