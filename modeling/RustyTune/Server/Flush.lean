import RustyTune.Server.Requests

/-!
# What a flush does

With no client at work, a flush is determined by the tune it starts from and the fates of its
writes: it plans all writes at once, the ECU carries out a prefix of the plan, and the shadow follows
a prefix of that.

* `plan`: the writes of a flush, page by page. `acked`, `carriedOut`: how many of them are answered
  before the first failure, and how many the ECU executes.
* `markAll`, `writeAll`: what the writes do to the tune and to the ECU.
* `Verified.flushed`: a page that is written and verified, and what a flush of the others leads to.
* **`flushPages_quiet`**: the ECU after the flush is `writeAll` of the executed writes, and the tune
  is `markAll` of the answered ones, up to shadows read anew.
-/

namespace RustyTune.Server

open TuneModel EcuProto World

variable {F κ : Type} {env : Env κ} {pages : PageCommands} {w : World F}

/-! ## Locks without edits -/

/-- No edit falls on the lock acquisitions from number `a` up to before `b`. -/
def Env.QuietOn (env : Env κ) (a b : ℕ) : Prop := ∀ n, a ≤ n → n < b → env.edits n = []

theorem Env.QuietOn.mono {a b a' b' : ℕ} (h : env.QuietOn a b) (ha : a ≤ a') (hb : b' ≤ b) :
    env.QuietOn a' b' := fun n h1 h2 => h n (by omega) (by omega)

theorem lock_of_quiet (h : env.edits w.locks = []) :
    w.lock env = { w with locks := w.locks + 1 } := by
  simp [World.lock, h]

/-! ## Plans -/

/-- One `M` write. -/
structure PageWrite where
  page : ℕ
  offset : ℕ
  values : List UInt8
  deriving DecidableEq, Repr

def onto (i : ℕ) (ws : List (ℕ × List UInt8)) : List PageWrite := ws.map fun x => ⟨i, x.1, x.2⟩

/-- The writes of page `j`. -/
def onPage (j : ℕ) (ws : List PageWrite) : List (ℕ × List UInt8) :=
  (ws.filter (·.page = j)).map fun x => (x.offset, x.values)

@[simp] theorem length_onto (i : ℕ) (ws : List (ℕ × List UInt8)) :
    (onto i ws).length = ws.length := by
  simp [onto]

theorem take_onto (i k : ℕ) (ws : List (ℕ × List UInt8)) :
    (onto i ws).take k = onto i (ws.take k) := by
  simp [onto, List.map_take]

@[simp] theorem onPage_append (j : ℕ) (ws ws' : List PageWrite) :
    onPage j (ws ++ ws') = onPage j ws ++ onPage j ws' := by
  simp [onPage]

@[simp] theorem onPage_onto_self (i : ℕ) (ws : List (ℕ × List UInt8)) : onPage i (onto i ws) = ws := by
  simp only [onPage, onto, List.filter_map, List.map_map]
  rw [List.filter_eq_self.mpr (by simp)]
  exact List.map_id _

theorem onPage_onto_of_ne {i j : ℕ} (h : i ≠ j) (ws : List (ℕ × List UInt8)) :
    onPage j (onto i ws) = [] := by
  have : (onto i ws).filter (·.page = j) = [] := by
    simp only [onto, List.filter_map, List.map_eq_nil_iff, List.filter_eq_nil_iff]
    simp [h]
  rw [onPage, this, List.map_nil]

theorem onPage_mono {ws ws' : List PageWrite} (h : ws <+: ws') (j : ℕ) :
    onPage j ws <+: onPage j ws' := by
  obtain ⟨vs, rfl⟩ := h
  exact ⟨onPage j vs, (onPage_append j ws vs).symm⟩

/-- The writes that bring the given pages of a tune up to date. -/
def plan (pages : PageCommands) (t : Tune F) (is : List ℕ) : List PageWrite :=
  is.flatMap fun i => onto i (chunkWrites pages (t.dirtySpans i SPAN_MERGE_GAP))

@[simp] theorem plan_cons (t : Tune F) (i : ℕ) (is : List ℕ) :
    plan pages t (i :: is) =
      onto i (chunkWrites pages (t.dirtySpans i SPAN_MERGE_GAP)) ++ plan pages t is := rfl

theorem onPage_plan_of_not_mem (t : Tune F) {is : List ℕ} {j : ℕ} (h : j ∉ is) :
    onPage j (plan pages t is) = [] := by
  induction is with
  | nil => rfl
  | cons i is ih =>
    rw [List.mem_cons, not_or] at h
    rw [plan_cons, onPage_append, onPage_onto_of_ne (fun e => h.1 e.symm), ih h.2, List.nil_append]

theorem onPage_plan (t : Tune F) {is : List ℕ} (hnd : is.Nodup) {j : ℕ} (h : j ∈ is) :
    onPage j (plan pages t is) = chunkWrites pages (t.dirtySpans j SPAN_MERGE_GAP) := by
  induction is with
  | nil => cases h
  | cons i is ih =>
    rw [List.nodup_cons] at hnd
    rw [plan_cons, onPage_append]
    rcases List.mem_cons.mp h with rfl | h
    · rw [onPage_onto_self, onPage_plan_of_not_mem t hnd.1, List.append_nil]
    · have hne : i ≠ j := fun e => hnd.1 (e ▸ h)
      rw [onPage_onto_of_ne hne, ih hnd.2 h, List.nil_append]

theorem plan_congr {t t' : Tune F} {is : List ℕ} (h : ∀ i ∈ is, t'.page i = t.page i) :
    plan pages t' is = plan pages t is :=
  List.flatMap_congr fun i hi => by simp only [Tune.dirtySpans, h i hi]

/-! ## What the writes do -/

/-- The shadow after `len` bytes at `offset` were written. -/
def sent (offset len : ℕ) (p : PageState) : PageState :=
  if offset + len ≤ p.data.length then
    { p with ecu := overwrite p.ecu offset (slice p.data offset len) }
  else p

/-- The ECU's page after a write. -/
def written (offset : ℕ) (values : List UInt8) (e : EcuPage) : EcuPage :=
  e.write (wireOffset offset) values

@[simp] theorem length_ram_written (offset : ℕ) (values : List UInt8) (e : EcuPage) :
    (written offset values e).ram.length = e.ram.length := by
  unfold written EcuPage.write
  split_ifs with h
  · exact length_overwrite h
  · rfl

/-- The writes, marked as sent one after the other. -/
def markAll (ws : List PageWrite) (t : Tune F) : Tune F :=
  ws.foldl (fun t x => t.modifyPage x.page (sent x.offset x.values.length)) t

/-- The writes, executed one after the other. -/
def writeAll (ws : List PageWrite) (ecu : List EcuPage) : List EcuPage :=
  ws.foldl (fun ecu x => ecu.modify x.page (written x.offset x.values)) ecu

theorem markAll_append (ws ws' : List PageWrite) (t : Tune F) :
    markAll (ws ++ ws') t = markAll ws' (markAll ws t) := List.foldl_append

theorem writeAll_append (ws ws' : List PageWrite) (ecu : List EcuPage) :
    writeAll (ws ++ ws') ecu = writeAll ws' (writeAll ws ecu) := List.foldl_append

theorem page_markAll (ws : List PageWrite) (t : Tune F) (j : ℕ) :
    (markAll ws t).page j =
      (t.page j).map fun p => (onPage j ws).foldl (fun p x => sent x.1 x.2.length p) p := by
  induction ws generalizing t with
  | nil => simp [markAll, onPage]
  | cons x ws ih =>
    rw [markAll, List.foldl_cons, ← markAll, ih, Tune.page_modifyPage]
    by_cases hx : x.page = j
    · simp [onPage, hx, Function.comp_def]
    · simp [onPage, hx]

theorem getElem?_writeAll (ws : List PageWrite) (ecu : List EcuPage) (j : ℕ) :
    (writeAll ws ecu)[j]? =
      ecu[j]?.map fun e => (onPage j ws).foldl (fun e x => written x.1 x.2 e) e := by
  induction ws generalizing ecu with
  | nil => simp [writeAll, onPage]
  | cons x ws ih =>
    rw [writeAll, List.foldl_cons, ← writeAll, ih, List.getElem?_modify]
    by_cases hx : x.page = j
    · simp [onPage, hx, Function.comp_def]
    · simp [onPage, hx]

theorem loaded_markAll (ws : List PageWrite) (t : Tune F) : (markAll ws t).loaded = t.loaded := by
  induction ws generalizing t with
  | nil => rfl
  | cons x ws ih => rw [markAll, List.foldl_cons, ← markAll, ih, Tune.loaded_modifyPage]

theorem pageCount_markAll (ws : List PageWrite) (t : Tune F) :
    (markAll ws t).pageCount = t.pageCount := by
  induction ws generalizing t with
  | nil => rfl
  | cons x ws ih =>
    rw [markAll, List.foldl_cons, ← markAll, ih]
    simp [Tune.pageCount]

theorem map_length_writeAll (ws : List PageWrite) (ecu : List EcuPage) :
    (writeAll ws ecu).map (fun e => e.ram.length) = ecu.map fun e => e.ram.length := by
  refine List.ext_getElem? fun j => ?_
  rw [List.getElem?_map, List.getElem?_map, getElem?_writeAll, Option.map_map]
  congr 1
  funext e
  exact List.foldlRecOn (onPage j ws) (motive := fun e' : EcuPage => e'.ram.length = e.ram.length) _ rfl
    fun e' he' x _ => by rw [length_ram_written, he']

/-! ## How far the writes get -/

/-- Of `len` writes from number `n` on, those answered before the first failure. -/
def acked (env : Env κ) : ℕ → ℕ → ℕ
  | _, 0 => 0
  | n, len + 1 => if env.fate .write n = .answered then acked env (n + 1) len + 1 else 0

/-- Of `len` writes from number `n` on, those the ECU executes: the answered ones, and the first
failure if only its answer was lost. -/
def carriedOut (env : Env κ) (n len : ℕ) : ℕ :=
  let a := acked env n len
  if a < len ∧ (env.fate .write (n + a)).executed then a + 1 else a

theorem acked_le (env : Env κ) (n len : ℕ) : acked env n len ≤ len := by
  induction len generalizing n with
  | zero => exact Nat.le_refl 0
  | succ len ih =>
    rw [acked]
    split_ifs
    · exact Nat.succ_le_succ (ih (n + 1))
    · exact Nat.zero_le _

theorem acked_le_carriedOut (env : Env κ) (n len : ℕ) : acked env n len ≤ carriedOut env n len := by
  unfold carriedOut
  dsimp only
  split_ifs <;> omega

theorem acked_add (env : Env κ) (n l₁ l₂ : ℕ) : acked env n (l₁ + l₂) =
    if acked env n l₁ = l₁ then l₁ + acked env (n + l₁) l₂ else acked env n l₁ := by
  induction l₁ generalizing n with
  | zero => simp [acked]
  | succ l₁ ih =>
    rw [show l₁ + 1 + l₂ = (l₁ + l₂) + 1 by omega, acked, acked]
    by_cases hn : env.fate .write n = .answered
    · rw [if_pos hn, if_pos hn, ih, show n + 1 + l₁ = n + (l₁ + 1) by omega]
      by_cases h : acked env (n + 1) l₁ = l₁
      · rw [if_pos h, if_pos (by omega)]
        omega
      · rw [if_neg h, if_neg (by omega)]
    · rw [if_neg hn, if_neg hn, if_neg (by omega)]

theorem acked_of_answered (h : ∀ n, env.fate .write n = .answered) (n len : ℕ) :
    acked env n len = len := by
  induction len generalizing n with
  | zero => rfl
  | succ len ih => rw [acked, if_pos (h n), ih]

theorem carriedOut_of_acked {n len : ℕ} (h : acked env n len = len) : carriedOut env n len = len := by
  simp [carriedOut, h]

theorem carriedOut_add_of_acked {n l₁ : ℕ} (l₂ : ℕ) (h : acked env n l₁ = l₁) :
    carriedOut env n (l₁ + l₂) = l₁ + carriedOut env (n + l₁) l₂ := by
  simp only [carriedOut, acked_add, h, if_true, Nat.add_assoc]
  by_cases hc : acked env (n + l₁) l₂ < l₂ ∧
      (env.fate .write (n + (l₁ + acked env (n + l₁) l₂))).executed
  · rw [if_pos ⟨by omega, hc.2⟩, if_pos hc]
  · rw [if_neg hc, if_neg fun hc' => hc ⟨by omega, hc'.2⟩]

theorem carriedOut_add_of_failed {n l₁ : ℕ} (l₂ : ℕ) (h : acked env n l₁ ≠ l₁) :
    carriedOut env n (l₁ + l₂) = carriedOut env n l₁ := by
  have hle := acked_le env n l₁
  simp only [carriedOut, acked_add, h, if_false]
  by_cases hc : acked env n l₁ < l₁ ∧ (env.fate .write (n + acked env n l₁)).executed
  · rw [if_pos hc, if_pos ⟨by omega, hc.2⟩]
  · rw [if_neg hc, if_neg fun hc' => hc ⟨by omega, hc'.2⟩]

theorem carriedOut_le (env : Env κ) (n len : ℕ) : carriedOut env n len ≤ len := by
  have := acked_le env n len
  unfold carriedOut
  dsimp only
  split_ifs <;> omega

/-! ## Sending -/

/-- The world after an answered write and its mark. -/
def sentOne (env : Env κ) (i : ℕ) (x : ℕ × List UInt8) (w : World F) : World F :=
  (((w.ask .write).modifyEcu i (written x.1 x.2)).lock env).modifyTune (·.markSent i x.1 x.2.length)

theorem sendChunks_answered (hf : env.fate .write (w.issued .write) = .answered) (i : ℕ)
    (x : ℕ × List UInt8) (ws : List (ℕ × List UInt8)) :
    sendChunks env i (x :: ws) w = sendChunks env i ws (sentOne env i x w) := by
  simp only [sendChunks, writeChunk, request, hf]
  rfl

theorem sendChunks_failed {executed : Bool} {e : ProtoError}
    (hf : env.fate .write (w.issued .write) = .failed executed e) (i : ℕ) (x : ℕ × List UInt8)
    (ws : List (ℕ × List UInt8)) : ∃ text, sendChunks env i (x :: ws) w =
      (false, (if executed then (w.ask .write).modifyEcu i (written x.1 x.2)
        else w.ask .write).setError text) := by
  simp only [sendChunks, writeChunk, request, hf]
  cases executed <;> exact ⟨_, rfl⟩

theorem sentOne_locks (env : Env κ) (i : ℕ) (x : ℕ × List UInt8) (w : World F) :
    (sentOne env i x w).locks = w.locks + 1 := rfl

theorem sentOne_issued (env : Env κ) (i : ℕ) (x : ℕ × List UInt8) (w : World F) :
    (sentOne env i x w).issued .write = w.issued .write + 1 := by
  show Function.update w.issued .write (w.issued .write + 1) .write = _
  rw [Function.update_self]

theorem sentOne_ecu (env : Env κ) (i : ℕ) (x : ℕ × List UInt8) (w : World F) :
    (sentOne env i x w).ecu = w.ecu.modify i (written x.1 x.2) := rfl

theorem sentOne_tune (i : ℕ) (x : ℕ × List UInt8) (h : env.edits w.locks = []) :
    (sentOne env i x w).tune = w.tune.modifyPage i (sent x.1 x.2.length) := by
  show (((env.edits w.locks).foldl Edit.apply w.tune).markSent i x.1 x.2.length) = _
  rw [h]
  rfl

theorem sendChunks_locks (env : Env κ) (i : ℕ) : ∀ (ws : List (ℕ × List UInt8)) (w : World F),
    w.locks ≤ (sendChunks env i ws w).2.locks
  | [], w => Nat.le_refl _
  | x :: ws, w => by
    cases hf : env.fate .write (w.issued .write) with
    | answered =>
      rw [sendChunks_answered hf]
      have := sendChunks_locks env i ws (sentOne env i x w)
      rw [sentOne_locks] at this
      omega
    | failed executed e =>
      obtain ⟨text, h⟩ := sendChunks_failed hf i x ws
      rw [h]
      cases executed <;> exact Nat.le_refl _

/-- **Sending the writes of one page**, with no client at work. -/
theorem sendChunks_quiet (i : ℕ) : ∀ (ws : List (ℕ × List UInt8)) (w : World F),
    env.QuietOn w.locks (sendChunks env i ws w).2.locks →
      (sendChunks env i ws w).1 = decide (acked env (w.issued .write) ws.length = ws.length) ∧
      (sendChunks env i ws w).2.tune =
        markAll (onto i (ws.take (acked env (w.issued .write) ws.length))) w.tune ∧
      (sendChunks env i ws w).2.ecu =
        writeAll (onto i (ws.take (carriedOut env (w.issued .write) ws.length))) w.ecu ∧
      ((sendChunks env i ws w).1 = true →
        (sendChunks env i ws w).2.issued .write = w.issued .write + ws.length)
  | [], w, _ => by simp [sendChunks, acked, carriedOut, markAll, writeAll, onto]
  | x :: ws, w, hq => by
    cases hf : env.fate .write (w.issued .write) with
    | answered =>
      -- the write is done on both sides
      have hissued := sentOne_issued env i x w
      have hlocks := sentOne_locks env i x w
      rw [sendChunks_answered hf] at hq ⊢
      have hmono := sendChunks_locks env i ws (sentOne env i x w)
      have htune := sentOne_tune i x (hq w.locks (Nat.le_refl _) (by omega))
      obtain ⟨h1, h2, h3, h4⟩ :=
        sendChunks_quiet i ws (sentOne env i x w) (hq.mono (by omega) (Nat.le_refl _))
      rw [hissued] at h1 h2 h3 h4
      have hack : acked env (w.issued .write) (ws.length + 1) =
          acked env (w.issued .write + 1) ws.length + 1 := by rw [acked, if_pos hf]
      have hone : acked env (w.issued .write) 1 = 1 := by rw [acked, if_pos hf, acked]
      have hcar : carriedOut env (w.issued .write) (ws.length + 1) =
          carriedOut env (w.issued .write + 1) ws.length + 1 := by
        rw [Nat.add_comm, carriedOut_add_of_acked _ hone, Nat.add_comm]
      rw [List.length_cons, hack, hcar]
      refine ⟨?_, ?_, ?_, fun hok => ?_⟩
      · rw [h1]; simp
      · rw [h2, htune]; rfl
      · rw [h3, sentOne_ecu]; rfl
      · rw [h4 hok]; omega
    | failed executed e =>
      have hack : acked env (w.issued .write) (ws.length + 1) = 0 := by
        rw [acked, if_neg (by rw [hf]; exact Fate.noConfusion)]
      have hcar : carriedOut env (w.issued .write) (ws.length + 1) = if executed then 1 else 0 := by
        simp only [carriedOut, hack, Nat.add_zero, hf, Fate.executed]
        cases executed <;> simp
      obtain ⟨text, h⟩ := sendChunks_failed hf i x ws
      rw [List.length_cons, hack, hcar, h]
      cases executed <;> exact ⟨rfl, rfl, rfl, fun h => nomatch h⟩

/-! ## The whole plan -/

/-- The writes of the plan that are answered. -/
def answeredWrites (env : Env κ) (pages : PageCommands) (is : List ℕ) (w : World F) :
    List PageWrite :=
  (plan pages w.tune is).take (acked env (w.issued .write) (plan pages w.tune is).length)

/-- The writes of the plan that the ECU executes. -/
def executedWrites (env : Env κ) (pages : PageCommands) (is : List ℕ) (w : World F) :
    List PageWrite :=
  (plan pages w.tune is).take (carriedOut env (w.issued .write) (plan pages w.tune is).length)

theorem answeredWrites_le (env : Env κ) (pages : PageCommands) (is : List ℕ) (w : World F) :
    answeredWrites env pages is w <+: executedWrites env pages is w :=
  List.take_prefix_take_left (acked_le_carriedOut _ _ _)

section Cons

variable {i : ℕ} {is : List ℕ}

/-- The writes of the first page. -/
def firstWrites (pages : PageCommands) (i : ℕ) (w : World F) : List (ℕ × List UInt8) :=
  chunkWrites pages (w.tune.dirtySpans i SPAN_MERGE_GAP)

theorem answeredWrites_of_failed
    (h : acked env (w.issued .write) (firstWrites pages i w).length ≠ (firstWrites pages i w).length) :
    answeredWrites env pages (i :: is) w =
      onto i ((firstWrites pages i w).take
        (acked env (w.issued .write) (firstWrites pages i w).length)) := by
  rw [answeredWrites, plan_cons, ← firstWrites, List.length_append, length_onto, acked_add,
    if_neg h, List.take_append_of_le_length (by rw [length_onto]; exact acked_le _ _ _), take_onto]

theorem executedWrites_of_failed
    (h : acked env (w.issued .write) (firstWrites pages i w).length ≠ (firstWrites pages i w).length) :
    executedWrites env pages (i :: is) w =
      onto i ((firstWrites pages i w).take
        (carriedOut env (w.issued .write) (firstWrites pages i w).length)) := by
  rw [executedWrites, plan_cons, ← firstWrites, List.length_append, length_onto,
    carriedOut_add_of_failed _ h,
    List.take_append_of_le_length (by rw [length_onto]; exact carriedOut_le _ _ _), take_onto]

theorem answeredWrites_of_acked {w' : World F} (hplan : plan pages w'.tune is = plan pages w.tune is)
    (hn : w'.issued .write = w.issued .write + (firstWrites pages i w).length)
    (h : acked env (w.issued .write) (firstWrites pages i w).length = (firstWrites pages i w).length) :
    answeredWrites env pages (i :: is) w =
      onto i (firstWrites pages i w) ++ answeredWrites env pages is w' := by
  rw [answeredWrites, answeredWrites, plan_cons, ← firstWrites, List.length_append, length_onto,
    acked_add, if_pos h, hplan, hn, List.take_append, length_onto, Nat.add_sub_cancel_left,
    List.take_of_length_le (by rw [length_onto]; omega)]

theorem executedWrites_of_acked {w' : World F} (hplan : plan pages w'.tune is = plan pages w.tune is)
    (hn : w'.issued .write = w.issued .write + (firstWrites pages i w).length)
    (h : acked env (w.issued .write) (firstWrites pages i w).length = (firstWrites pages i w).length) :
    executedWrites env pages (i :: is) w =
      onto i (firstWrites pages i w) ++ executedWrites env pages is w' := by
  rw [executedWrites, executedWrites, plan_cons, ← firstWrites, List.length_append, length_onto,
    carriedOut_add_of_acked _ h, hplan, hn, List.take_append, length_onto, Nat.add_sub_cancel_left,
    List.take_of_length_le (by rw [length_onto]; omega)]

end Cons

/-! ## What a flush leads to -/

/-- The shadow of page `j` is read anew, since its writes are all answered and the CRCs differ; `t`
is the tune with the answered writes marked. -/
def Reread (env : Env κ) (pages : PageCommands) (t : Tune F) (w' : World F) (j : ℕ) : Prop :=
  ∃ p bytes, t.page j = some p ∧ w'.tune.page j = some { p with ecu := bytes } ∧
    env.crc (w'.ram j) ≠ env.crc p.ecu ∧ (Fits pages w' → pages.Addressable → bytes = w'.ram j)

/-- What a flush of the pages `is` leads to from `w`, with no client at work. -/
structure Flushed (env : Env κ) (pages : PageCommands) (is : List ℕ) (w w' : World F) : Prop where
  ecu : w'.ecu = writeAll (executedWrites env pages is w) w.ecu
  loaded : w'.tune.loaded = w.tune.loaded
  pageCount : w'.tune.pageCount = w.tune.pageCount
  page : ∀ j, w'.tune.page j = (markAll (answeredWrites env pages is w) w.tune).page j ∨
    j ∈ is ∧ onPage j (answeredWrites env pages is w) = onPage j (plan pages w.tune is) ∧
      Reread env pages (markAll (answeredWrites env pages is w) w.tune) w' j

theorem onPage_answeredWrites {i : ℕ} {is : List ℕ} (hi : i ∉ is) (w : World F) :
    onPage i (answeredWrites env pages is w) = [] := by
  have hpre := onPage_mono (List.take_prefix
    (acked env (w.issued .write) (plan pages w.tune is).length) (plan pages w.tune is)) i
  rw [onPage_plan_of_not_mem _ hi] at hpre
  exact List.prefix_nil.mp hpre

theorem onPage_executedWrites {i : ℕ} {is : List ℕ} (hi : i ∉ is) (w : World F) :
    onPage i (executedWrites env pages is w) = [] := by
  have hpre := onPage_mono (List.take_prefix
    (carriedOut env (w.issued .write) (plan pages w.tune is).length) (plan pages w.tune is)) i
  rw [onPage_plan_of_not_mem _ hi] at hpre
  exact List.prefix_nil.mp hpre

/-- From `w` on, page `i` was written, each write answered (`w₁`), and then verified (`w₂`). -/
structure Verified (env : Env κ) (pages : PageCommands) (i : ℕ) (w w₁ w₂ : World F) : Prop where
  answered : acked env (w.issued .write) (firstWrites pages i w).length = (firstWrites pages i w).length
  marked : w₁.tune = markAll (onto i (firstWrites pages i w)) w.tune
  executed : w₁.ecu = writeAll (onto i (firstWrites pages i w)) w.ecu
  writes : w₂.issued .write = w.issued .write + (firstWrites pages i w).length
  ecu : w₂.ecu = w₁.ecu
  tune : w₂.tune = w₁.tune ∨ ∃ bytes, env.crc (w₁.ram i) ≠ env.crc (w₁.shadow i) ∧
    (Fits pages w₁ → pages.Addressable → bytes = w₁.ram i) ∧ w₂.tune = w₁.tune.resyncEcu i bytes

namespace Verified

variable {i : ℕ} {is : List ℕ} {w₁ w₂ r : World F}

theorem page_of_ne (h : Verified env pages i w w₁ w₂) {j : ℕ} (hj : i ≠ j) :
    w₂.tune.page j = (markAll (onto i (firstWrites pages i w)) w.tune).page j := by
  rcases h.tune with htune | ⟨bytes, -, -, htune⟩ <;> rw [htune, h.marked]
  rw [Tune.resyncEcu, Tune.page_modifyPage, if_neg hj]

theorem loaded (h : Verified env pages i w w₁ w₂) : w₂.tune.loaded = w.tune.loaded := by
  rcases h.tune with htune | ⟨bytes, -, -, htune⟩ <;> rw [htune, h.marked]
  · exact loaded_markAll _ _
  · rw [Tune.resyncEcu, Tune.loaded_modifyPage]
    exact loaded_markAll _ _

theorem pageCount (h : Verified env pages i w w₁ w₂) : w₂.tune.pageCount = w.tune.pageCount := by
  rcases h.tune with htune | ⟨bytes, -, -, htune⟩ <;> rw [htune, h.marked]
  · exact pageCount_markAll _ _
  · rw [← pageCount_markAll (onto i (firstWrites pages i w)) w.tune]
    simp [Tune.resyncEcu, Tune.pageCount]

theorem plan_eq (h : Verified env pages i w w₁ w₂) (hi : i ∉ is) :
    plan pages w₂.tune is = plan pages w.tune is := by
  refine plan_congr fun j hj => ?_
  have hne : i ≠ j := fun e => hi (e ▸ hj)
  rw [h.page_of_ne hne, page_markAll, onPage_onto_of_ne hne]
  simp

theorem answered_cons (h : Verified env pages i w w₁ w₂) (hi : i ∉ is) :
    answeredWrites env pages (i :: is) w =
      onto i (firstWrites pages i w) ++ answeredWrites env pages is w₂ :=
  answeredWrites_of_acked (h.plan_eq hi) h.writes h.answered

theorem flushed_ecu (h : Verified env pages i w w₁ w₂) (hi : i ∉ is) (hr : Flushed env pages is w₂ r) :
    r.ecu = writeAll (executedWrites env pages (i :: is) w) w.ecu := by
  rw [hr.ecu, h.ecu, h.executed, ← writeAll_append, executedWrites_of_acked (h.plan_eq hi) h.writes h.answered]

theorem markAll_cons (h : Verified env pages i w w₁ w₂) (hi : i ∉ is) (t : Tune F) :
    markAll (answeredWrites env pages (i :: is) w) t =
      markAll (answeredWrites env pages is w₂) (markAll (onto i (firstWrites pages i w)) t) := by
  rw [h.answered_cons hi, markAll_append]

/-- The page itself: verified now and left alone afterwards. -/
theorem flushed_self (h : Verified env pages i w w₁ w₂) (hi : i ∉ is) (hr : Flushed env pages is w₂ r) :
    r.tune.page i = (markAll (answeredWrites env pages (i :: is) w) w.tune).page i ∨
      onPage i (answeredWrites env pages (i :: is) w) = onPage i (plan pages w.tune (i :: is)) ∧
        Reread env pages (markAll (answeredWrites env pages (i :: is) w) w.tune) r i := by
  have hown : onPage i (answeredWrites env pages is w₂) = [] := onPage_answeredWrites hi w₂
  have hecu : r.ecu = writeAll (executedWrites env pages is w₂) w₁.ecu := by rw [hr.ecu, h.ecu]
  have hram : r.ram i = w₁.ram i := by
    rw [World.ram, World.ram, hecu, getElem?_writeAll, onPage_executedWrites hi]
    simp
  have hfits : Fits pages r → Fits pages w₁ := by
    intro hf
    unfold Fits at hf ⊢
    rw [← hf, hecu, map_length_writeAll]
  have hlater : r.tune.page i = w₂.tune.page i := by
    rcases hr.page i with hpage | ⟨hmem, -⟩
    · rw [hpage, page_markAll, hown]; simp
    · exact absurd hmem hi
  have hnow : (markAll (answeredWrites env pages (i :: is) w) w.tune).page i = w₁.tune.page i := by
    rw [h.markAll_cons hi, page_markAll, hown, h.marked]; simp
  rw [hlater, hnow]
  rcases h.tune with htune | ⟨bytes, hcrc, hbytes, htune⟩
  · exact Or.inl (by rw [htune])
  · have hp : w₂.tune.page i = (w₁.tune.page i).map fun p => { p with ecu := bytes } := by
      rw [htune, Tune.resyncEcu, Tune.page_modifyPage, if_pos rfl]
    cases hpage : w₁.tune.page i with
    | none => rw [hpage] at hp; exact Or.inl hp
    | some p =>
      rw [hpage] at hp
      refine Or.inr ⟨?_, p, bytes, by rw [hnow, hpage], by rw [hlater, hp]; rfl, ?_,
        fun hf ha => by rw [hram]; exact hbytes (hfits hf) ha⟩
      · rw [h.answered_cons hi, plan_cons, onPage_append, onPage_append, hown,
          onPage_plan_of_not_mem _ hi]
        rfl
      · rw [hram]
        simpa [World.shadow, hpage] using hcrc

/-- The other pages are as the rest of the flush leaves them. -/
theorem flushed_of_ne (h : Verified env pages i w w₁ w₂) (hi : i ∉ is) (hr : Flushed env pages is w₂ r)
    {j : ℕ} (hj : i ≠ j) :
    r.tune.page j = (markAll (answeredWrites env pages (i :: is) w) w.tune).page j ∨
      j ∈ is ∧ onPage j (answeredWrites env pages (i :: is) w) = onPage j (plan pages w.tune (i :: is)) ∧
        Reread env pages (markAll (answeredWrites env pages (i :: is) w) w.tune) r j := by
  have hmark : (markAll (answeredWrites env pages (i :: is) w) w.tune).page j =
      (markAll (answeredWrites env pages is w₂) w₂.tune).page j := by
    rw [h.markAll_cons hi, page_markAll, page_markAll _ w₂.tune, h.page_of_ne hj]
  have honto : ∀ ws', onPage j (onto i (firstWrites pages i w) ++ ws') = onPage j ws' := fun ws' => by
    rw [onPage_append, onPage_onto_of_ne hj, List.nil_append]
  rcases hr.page j with hpage | ⟨hmem, hall, p, bytes, hp, hrest⟩
  · exact Or.inl (by rw [hpage, hmark])
  · refine Or.inr ⟨hmem, ?_, p, bytes, by rw [hmark, hp], hrest⟩
    rw [h.answered_cons hi, plan_cons, honto, hall, h.plan_eq hi]
    exact (honto _).symm

/-- **A page that is written and verified, and then the others.** -/
theorem flushed (h : Verified env pages i w w₁ w₂) (hi : i ∉ is) (hr : Flushed env pages is w₂ r) :
    Flushed env pages (i :: is) w r := by
  refine ⟨h.flushed_ecu hi hr, hr.loaded.trans h.loaded, hr.pageCount.trans h.pageCount, fun j => ?_⟩
  by_cases hj : i = j
  · subst hj
    exact (h.flushed_self hi hr).imp id fun hread => ⟨List.mem_cons_self, hread⟩
  · exact (h.flushed_of_ne hi hr hj).imp id fun hread => ⟨List.mem_cons_of_mem _ hread.1, hread.2⟩

end Verified

/-! ## Verifying and flushing -/

variable [DecidableEq κ]

theorem verifyPage_locks (env : Env κ) (pages : PageCommands) (i : ℕ) (w : World F) :
    w.locks ≤ (verifyPage env pages i w).locks := by
  have hl : (w.lock env).locks = w.locks + 1 := rfl
  rcases verifyPage_cases env pages i w with ⟨h, -⟩ | ⟨w₂, bytes, text, h, -, -, heq⟩
  · rw [h.locks]; omega
  · have hl₂ : (((w₂.lock env).modifyTune (·.resyncEcu i bytes)).setError text).locks =
        w₂.locks + 1 := rfl
    rw [heq, hl₂, h.locks]
    omega

theorem flushPages_locks (env : Env κ) (pages : PageCommands) : ∀ (is : List ℕ) (w : World F),
    w.locks ≤ (flushPages env pages is w).locks
  | [], w => Nat.le_refl _
  | i :: is, w => by
    have hl : (w.lock env).locks = w.locks + 1 := rfl
    have hs := sendChunks_locks env i
      (chunkWrites pages ((w.lock env).tune.dirtySpans i SPAN_MERGE_GAP)) (w.lock env)
    rw [flushPages]
    match hsend : sendChunks env i
      (chunkWrites pages ((w.lock env).tune.dirtySpans i SPAN_MERGE_GAP)) (w.lock env) with
    | (false, w') =>
      rw [hsend] at hs
      exact Nat.le_trans (by omega) hs
    | (true, w') =>
      rw [hsend] at hs
      have hv := verifyPage_locks env pages i w'
      have hf := flushPages_locks env pages is (verifyPage env pages i w')
      dsimp only at hs ⊢
      omega

theorem flushPages_of_failed {i : ℕ} {is : List ℕ}
    (h : (sendChunks env i (firstWrites pages i (w.lock env)) (w.lock env)).1 = false) :
    flushPages env pages (i :: is) w =
      (sendChunks env i (firstWrites pages i (w.lock env)) (w.lock env)).2 := by
  unfold firstWrites at h ⊢
  rw [flushPages]
  match hs : sendChunks env i
    (chunkWrites pages ((w.lock env).tune.dirtySpans i SPAN_MERGE_GAP)) (w.lock env) with
  | (false, w') => rfl
  | (true, w') => rw [hs] at h; exact nomatch h

theorem flushPages_of_sent {i : ℕ} {is : List ℕ}
    (h : (sendChunks env i (firstWrites pages i (w.lock env)) (w.lock env)).1 = true) :
    flushPages env pages (i :: is) w = flushPages env pages is (verifyPage env pages i
      (sendChunks env i (firstWrites pages i (w.lock env)) (w.lock env)).2) := by
  unfold firstWrites at h ⊢
  rw [flushPages]
  match hs : sendChunks env i
    (chunkWrites pages ((w.lock env).tune.dirtySpans i SPAN_MERGE_GAP)) (w.lock env) with
  | (false, w') => rw [hs] at h; exact nomatch h
  | (true, w') => rfl

theorem verifyPage_quiet {i : ℕ} (hq : env.QuietOn w.locks (verifyPage env pages i w).locks) :
    (verifyPage env pages i w).ecu = w.ecu ∧
    (verifyPage env pages i w).issued .write = w.issued .write ∧
    ((verifyPage env pages i w).tune = w.tune ∨
      ∃ bytes, env.crc (w.ram i) ≠ env.crc (w.shadow i) ∧
        (Fits pages w → pages.Addressable → bytes = w.ram i) ∧
        (verifyPage env pages i w).tune = w.tune.resyncEcu i bytes) := by
  have hl : (w.lock env).locks = w.locks + 1 := rfl
  rcases verifyPage_cases env pages i w with ⟨h, -⟩ | ⟨w₂, bytes, text, h, hcrc, hbytes, heq⟩
  · rw [h.locks, hl] at hq
    rw [lock_of_quiet (hq w.locks (Nat.le_refl _) (Nat.lt_succ_self _))] at h
    exact ⟨h.ecu, h.writes, Or.inl h.tune⟩
  · have hl₂ : (((w₂.lock env).modifyTune (·.resyncEcu i bytes)).setError text).locks =
        w₂.locks + 1 := rfl
    rw [heq, hl₂, h.locks, hl] at hq
    rw [lock_of_quiet (hq w.locks (Nat.le_refl _) (by omega))] at h hcrc
    have h₂ : env.edits w₂.locks = [] := hq w₂.locks (by rw [h.locks]; exact Nat.le_succ _)
      (by rw [h.locks]; exact Nat.lt_succ_self _)
    rw [heq, lock_of_quiet h₂]
    exact ⟨h.ecu, h.writes, Or.inr ⟨bytes, hcrc, hbytes,
      congrArg (fun t : Tune F => t.resyncEcu i bytes) h.tune⟩⟩

/-- **A flush with no client at work carries out its plan as far as the fates of its writes
allow.** -/
theorem flushPages_quiet : ∀ (is : List ℕ) (w : World F), is.Nodup →
    env.QuietOn w.locks (flushPages env pages is w).locks →
      Flushed env pages is w (flushPages env pages is w)
  | [], w, _, _ => ⟨by simp [flushPages, executedWrites, plan, writeAll], rfl, rfl,
      fun j => Or.inl (by simp [flushPages, answeredWrites, plan, markAll])⟩
  | i :: is, w, hnd, hq => by
    obtain ⟨hi, hnd⟩ := List.nodup_cons.mp hnd
    have hlocks := flushPages_locks env pages (i :: is) w
    have hsendl := sendChunks_locks env i (firstWrites pages i (w.lock env)) (w.lock env)
    have hl : (w.lock env).locks = w.locks + 1 := rfl
    have hmono : (sendChunks env i (firstWrites pages i (w.lock env)) (w.lock env)).2.locks ≤
        (flushPages env pages (i :: is) w).locks := by
      cases hs : (sendChunks env i (firstWrites pages i (w.lock env)) (w.lock env)).1 with
      | false => rw [flushPages_of_failed hs]
      | true =>
        rw [flushPages_of_sent hs]
        exact Nat.le_trans (verifyPage_locks env pages i _) (flushPages_locks env pages is _)
    have hlock := lock_of_quiet (hq w.locks (Nat.le_refl _) (by omega))
    have htune : (w.lock env).tune = w.tune := by rw [hlock]
    have hfirst : firstWrites pages i (w.lock env) = firstWrites pages i w := by rw [hlock]; rfl
    rw [hfirst] at hmono hsendl
    obtain ⟨h1, h2, h3, h4⟩ := sendChunks_quiet i (firstWrites pages i w) (w.lock env) (hq.mono (by omega) hmono)
    rw [show (w.lock env).issued .write = w.issued .write from rfl] at h1 h2 h3 h4
    rw [htune] at h2
    rw [show (w.lock env).ecu = w.ecu from rfl] at h3
    set ws := firstWrites pages i w with hws
    by_cases hack : acked env (w.issued .write) ws.length = ws.length
    · -- the page is done; on to the next ones
      have hsent : (sendChunks env i ws (w.lock env)).1 = true := by rw [h1]; simpa using hack
      rw [flushPages_of_sent (by rw [hfirst]; exact hsent), hfirst] at hq ⊢
      rw [hack, List.take_length] at h2
      rw [carriedOut_of_acked hack, List.take_length] at h3
      set w₁ := (sendChunks env i ws (w.lock env)).2
      have hv := verifyPage_locks env pages i w₁
      obtain ⟨v1, v2, v3⟩ := verifyPage_quiet (hq.mono (by omega) (flushPages_locks env pages is _))
      have hverified : Verified env pages i w w₁ (verifyPage env pages i w₁) :=
        ⟨hack, h2, h3, by rw [v2, h4 hsent], v1, v3⟩
      exact hverified.flushed hi (flushPages_quiet is _ hnd (hq.mono (by omega) (Nat.le_refl _)))
    · -- a write of this page fails and the flush ends
      have hfail : (sendChunks env i ws (w.lock env)).1 = false := by rw [h1]; simpa using hack
      rw [flushPages_of_failed (by rw [hfirst]; exact hfail), hfirst]
      refine ⟨?_, ?_, ?_, fun j => Or.inl ?_⟩
      · rw [h3, executedWrites_of_failed hack]
      · rw [h2, loaded_markAll]
      · rw [h2, pageCount_markAll]
      · rw [h2, answeredWrites_of_failed hack]

end RustyTune.Server
