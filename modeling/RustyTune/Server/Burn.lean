import RustyTune.Server.Track

/-!
# Burning

`doBurn` flushes and then burns what the shadows say is not burned. A write that fails ends the
flush, and `doBurn` does not hear of it.

* `Complete`: local data, RAM and EEPROM agree on every page.
* `Reaches`: what the ECU executes of the planned writes brings its RAM to the local data, and a page
  whose EEPROM is not there yet is seen to be pending.
* **`doBurn_complete_iff`**: where `doBurn` succeeds with no client at work, the burn is complete if
  and only if the plan reaches. **`complete_of_answered`**: with shadows that are true and all writes
  answered it is.
* **`swallowed_not_complete`**: a write that never reaches the ECU is reported as success.
-/

namespace RustyTune.Server

open TuneModel EcuProto World

variable {F κ : Type} {env : Env κ} {pages : PageCommands} {w w' : World F}

/-- Local data, RAM and EEPROM agree on every page. -/
def Complete (w : World F) : Prop :=
  ∀ j p e, w.tune.page j = some p → w.ecu[j]? = some e → p.data = e.ram ∧ e.ram = e.eeprom

/-! ## The burn loop -/

theorem burn_ok {i : ℕ} (h : (w.burn env i).1 = .ok ()) : (w.burn env i).2 =
    (w.ask .burn).modifyEcu i fun p => { p with eeprom := p.ram } := by
  unfold World.burn request at h ⊢
  split at h <;> first | rfl | exact nomatch h

/-- The pages of a successful burn, with no client at work. -/
theorem burnPages_ok (hq : env.Quiet) : ∀ (is acc burned : List ℕ) (w w' : World F),
    burnPages env is acc w = (.ok burned, w') → ∀ j,
      w'.tune.page j = (w.tune.page j).map (fun p =>
        if j ∈ is then { p with burned := p.ecu } else p) ∧
      w'.ecu[j]? = w.ecu[j]?.map fun e => if j ∈ is then { e with eeprom := e.ram } else e
  | [], acc, burned, w, w', h => fun j => by
    obtain rfl : w = w' := (Prod.mk.inj h).2
    simp
  | i :: is, acc, burned, w, w', h => fun j => by
    rw [burnPages] at h
    match hb : w.burn env i with
    | (.error e, w₁) => rw [hb] at h; simp at h
    | (.ok (), w₁) =>
      rw [hb] at h
      have hw₁ := burn_ok (congrArg Prod.fst hb)
      rw [hb] at hw₁
      dsimp only at h hw₁
      set w₂ := (w₁.lock env).modifyTune (·.markBurned i) with hw₂
      obtain ⟨h1, h2⟩ := burnPages_ok hq is (acc ++ [i]) burned w₂ w' h j
      have ht : w₂.tune = w.tune.markBurned i := by
        show (w₁.lock env).tune.markBurned i = _
        rw [hq.lock_tune, hw₁]
        rfl
      have he : w₂.ecu = w.ecu.modify i fun p => { p with eeprom := p.ram } := by
        show w₁.ecu = _
        rw [hw₁]
        rfl
      rw [ht, Tune.markBurned, Tune.page_modifyPage] at h1
      rw [he, List.getElem?_modify] at h2
      by_cases hj : i = j
      · subst hj
        rw [if_pos rfl] at h1
        rw [h1, h2]
        constructor
        · cases w.tune.page i with
          | none => rfl
          | some p => by_cases hi : i ∈ is <;> simp [hi]
        · cases w.ecu[i]? with
          | none => rfl
          | some e => by_cases hi : i ∈ is <;> simp [hi]
      · have hji : ¬ j = i := fun e => hj e.symm
        rw [if_neg hj] at h1
        rw [h1, h2]
        simp only [hj, if_false, List.mem_cons, hji, false_or, true_and]
        cases w.ecu[j]? <;> simp

/-! ## The burn -/

variable [DecidableEq κ]

/-- The executed writes bring RAM to the local data, and the answered ones leave every page whose
EEPROM is not the local data with a shadow that differs from the burned copy. -/
structure Reaches (env : Env κ) (pages : PageCommands) (w : World F) : Prop where
  ram : ∀ (j : ℕ) (p : PageState) (e : EcuPage), w.tune.page j = some p → w.ecu[j]? = some e →
    ((onPage j (executedWrites env pages (dirtyPages w) w)).foldl
      (fun e x => written x.1 x.2 e) e).ram = p.data
  pending : ∀ (j : ℕ) (p : PageState) (e : EcuPage), w.tune.page j = some p → w.ecu[j]? = some e →
    e.eeprom ≠ p.data → ∃ i : ℕ,
      (if Covers (onPage j (answeredWrites env pages (dirtyPages w) w)) i then p.data[i]?
        else p.ecu[i]?) ≠ p.burned[i]?

omit [DecidableEq κ] in
theorem Sized.lock (hq : env.Quiet) (hs : Sized w) : Sized (w.lock env) := by
  rw [lock_of_quiet (hq _)]
  exact ⟨hs.count, hs.size⟩

/-- What a successful burn does: the flush, and then every page whose shadow differs from the burned
copy goes to EEPROM. -/
theorem doBurn_ok (hq : env.Quiet) {burned : List ℕ}
    (h : (doBurn env (some pages) w).1 = .ok burned) :
    ∃ w₁, Flushed env pages (dirtyPages w) w w₁ ∧ ∀ j,
      (doBurn env (some pages) w).2.tune.page j = (w₁.tune.page j).map (fun p =>
        if w₁.tune.pageBurnPending j then { p with burned := p.ecu } else p) ∧
      (doBurn env (some pages) w).2.ecu[j]? = w₁.ecu[j]?.map fun e =>
        if w₁.tune.pageBurnPending j then { e with eeprom := e.ram } else e := by
  unfold doBurn at h ⊢
  dsimp only at h ⊢
  have hlock : w.lock env = { w with locks := w.locks + 1 } := lock_of_quiet (hq _)
  cases hl : (w.lock env).tune.loaded with
  | false => simp [hl] at h
  | true =>
    simp only [hl, Bool.not_true, Bool.false_eq_true, if_false] at h ⊢
    set w₁ := flushDirty env pages (w.lock env) with hw₁
    have hl' : ((w.lock env).lock env).tune.loaded = true := by rw [hq.lock_tune, hl]
    have hfl := flushDirty_flushed pages hl' (hq.on _ _)
    rw [lock_of_quiet (hq _), hlock] at hfl
    refine ⟨w₁, by rw [hw₁, hlock]; exact hfl.of_locks.of_locks, fun j => ?_⟩
    set pending := (List.range (w₁.lock env).tune.pageCount).filter (w₁.lock env).tune.pageBurnPending
      with hpending
    obtain ⟨h1, h2⟩ := burnPages_ok hq pending [] burned (w₁.lock env) _
      (Prod.ext h rfl : burnPages env pending [] (w₁.lock env) =
        (Except.ok burned, (burnPages env pending [] (w₁.lock env)).2)) j
    have htune : (w₁.lock env).tune = w₁.tune := hq.lock_tune w₁
    have hmem : j ∈ pending ↔ w₁.tune.pageBurnPending j = true := by
      rw [hpending, htune, List.mem_filter, List.mem_range]
      refine ⟨fun h => h.2, fun h => ⟨?_, h⟩⟩
      by_contra hge
      have hnone : w₁.tune.page j = none := List.getElem?_eq_none (Nat.le_of_not_lt hge)
      simp [Tune.pageBurnPending, hnone] at h
    rw [htune] at h1
    simp only [hmem] at h1 h2
    exact ⟨h1, h2⟩

/-- **A successful burn is complete if and only if its plan reaches.** -/
theorem doBurn_complete_iff (hq : env.Quiet) (hs : Sized w) {burned : List ℕ}
    (h : (doBurn env (some pages) w).1 = .ok burned) :
    Complete (doBurn env (some pages) w).2 ↔ Reaches env pages w := by
  obtain ⟨w₁, hfl, hfinal⟩ := doBurn_ok hq h
  have hpending : ∀ j p, w₁.tune.page j = some p →
      (w₁.tune.pageBurnPending j = true ↔ p.ecu ≠ p.burned) := fun j p hp => by
    simp [Tune.pageBurnPending, hp]
  constructor
  · intro hc
    refine ⟨fun j p e hp he => ?_, fun j p e hp he hne => ?_⟩
    all_goals
      obtain ⟨p₁, e₁, hp₁, he₁, hpf⟩ := hfl.bytes hs (dirtyPages_nodup w) hp he
      obtain ⟨h1, h2⟩ := hfinal j
      rw [hp₁, Option.map_some] at h1
      rw [he₁, Option.map_some] at h2
      obtain ⟨hram, heeprom⟩ := hc j _ _ h1 h2
      have hdata : p.data = e₁.ram := by
        rw [← hpf.data]
        split_ifs at hram <;> exact hram
    · rw [hdata, hpf.ram]
    · by_contra hno
      push Not at hno
      rcases hpf.ecu with ⟨-, hecu⟩ | ⟨-, -, hcrc, -⟩
      · -- the shadow equals the burned copy: the page is not burned
        have hburned : p₁.ecu = p₁.burned := by
          rw [hpf.burned]
          exact List.ext_getElem? fun i => (hecu i).trans (hno i)
        have hnot : ¬ w₁.tune.pageBurnPending j = true := fun hb => (hpending j p₁ hp₁).mp hb hburned
        rw [if_neg hnot, hpf.eeprom, ← hdata] at heeprom
        exact hne heeprom.symm
      · exact hcrc (by rw [hdata])
  · intro hr j p' e' hp' he'
    obtain ⟨h1, h2⟩ := hfinal j
    rw [hp'] at h1
    rw [he'] at h2
    obtain ⟨p₁, hp₁, rfl⟩ := Option.map_eq_some_iff.mp h1.symm
    obtain ⟨e₁, he₁, rfl⟩ := Option.map_eq_some_iff.mp h2.symm
    obtain ⟨p, e, hp, he⟩ := hfl.exists_before hp₁ he₁
    obtain ⟨q, r, hq', hr', hpf⟩ := hfl.bytes hs (dirtyPages_nodup w) hp he
    obtain rfl := Option.some.inj (hq'.symm.trans hp₁)
    obtain rfl := Option.some.inj (hr'.symm.trans he₁)
    have hdata : p.data = r.ram := by rw [hpf.ram]; exact (hr.ram j p e hp he).symm
    split_ifs with hb
    · exact ⟨hpf.data.trans hdata, rfl⟩
    · refine ⟨hpf.data.trans hdata, ?_⟩
      by_contra hne
      obtain ⟨i, hi⟩ := hr.pending j p e hp he (by
        rw [← hpf.eeprom, hdata]
        exact fun heq => hne heq.symm)
      rcases hpf.ecu with ⟨-, hecu⟩ | ⟨-, -, hcrc, -⟩
      · have hburned : q.ecu = q.burned := by
          by_contra hne'
          exact hb ((hpending j q hq').mpr hne')
        rw [← hecu i, ← hpf.burned, hburned] at hi
        exact hi rfl
      · exact hcrc (by rw [hdata])

/-! ## Two readings of the condition -/

omit [DecidableEq κ] in
/-- On pages that 16-bit offsets reach, the executed writes bring RAM to the local data exactly when
they cover every byte where the two differ. -/
theorem ram_reached_iff (hs : Sized w) (hf : Fits pages w) (ha : pages.Addressable) {j : ℕ}
    {p : PageState} {e : EcuPage} (hp : w.tune.page j = some p) (he : w.ecu[j]? = some e) :
    ((onPage j (executedWrites env pages (dirtyPages w) w)).foldl
      (fun e x => written x.1 x.2 e) e).ram = p.data ↔
    ∀ i : ℕ, e.ram[i]? ≠ p.data[i]? →
      Covers (onPage j (executedWrites env pages (dirtyPages w) w)) i := by
  obtain ⟨h1, h2⟩ := hs.size j p e hp he
  have hpieces := (onPage_plan_pieces pages hs (dirtyPages_nodup w) hp).mono
    (onPage_mono (List.take_prefix (carriedOut env (w.issued .write)
      (plan pages w.tune (dirtyPages w)).length) _) j)
  have hlen := hf.length_le ha he
  rw [executedWrites, foldl_written hpieces h1.symm (by omega)]
  obtain ⟨-, hbytes⟩ := foldl_pieces hpieces e.ram h1.symm
  constructor
  · intro heq i hne
    by_contra hc
    have := hbytes i
    rw [if_neg hc] at this
    exact hne (this.symm.trans (congrArg (·[i]?) heq))
  · intro hcov
    refine List.ext_getElem? fun i => ?_
    rw [hbytes]
    split_ifs with hc
    · rfl
    · by_contra hne
      exact hc (hcov i hne)

/-- The shadows are true: what the tune takes the ECU to have, it has. -/
structure ShadowsTrue (w : World F) : Prop where
  sized : Sized w
  page : ∀ j p e, w.tune.page j = some p → w.ecu[j]? = some e → p.ecu = e.ram ∧ p.burned = e.eeprom

/-- **With true shadows and every write answered, a successful burn is complete.** -/
theorem complete_of_answered (hq : env.Quiet) (hs : ShadowsTrue w) (hf : Fits pages w)
    (ha : pages.Addressable) (hans : ∀ n, env.fate .write n = .answered) {burned : List ℕ}
    (h : (doBurn env (some pages) w).1 = .ok burned) : Complete (doBurn env (some pages) w).2 := by
  have hall : answeredWrites env pages (dirtyPages w) w = plan pages w.tune (dirtyPages w) := by
    rw [answeredWrites, acked_of_answered hans, List.take_length]
  have hexec : executedWrites env pages (dirtyPages w) w = plan pages w.tune (dirtyPages w) := by
    rw [executedWrites, carriedOut_of_acked (acked_of_answered hans _ _), List.take_length]
  have hcov : ∀ {j p}, w.tune.page j = some p → ∀ i : ℕ, p.data[i]? ≠ p.ecu[i]? →
      Covers (onPage j (plan pages w.tune (dirtyPages w))) i := fun hp i hne =>
    onPage_plan_cover hs.sized (dirtyPages_nodup w)
      ((mem_dirtyPages hp).mpr fun heq => hne (by rw [heq])) hp hne
  refine (doBurn_complete_iff hq hs.sized h).mpr ⟨fun j p e hp he => ?_, fun j p e hp he hne => ?_⟩
  · refine (ram_reached_iff hs.sized hf ha hp he).mpr fun i hi => ?_
    rw [hexec]
    exact hcov hp i fun heq => hi (by rw [heq, (hs.page j p e hp he).1])
  · rw [← (hs.page j p e hp he).2] at hne
    obtain ⟨i, hi⟩ : ∃ i : ℕ, p.burned[i]? ≠ p.data[i]? := by
      by_contra hno
      push Not at hno
      exact hne (List.ext_getElem? hno)
    refine ⟨i, ?_⟩
    rw [hall]
    split_ifs with hc
    · exact fun heq => hi heq.symm
    · have : p.data[i]? = p.ecu[i]? := by
        by_contra hd
        exact hc (hcov hp i hd)
      rw [← this]
      exact fun heq => hi heq.symm

/-! ## One pending byte -/

/-- The page of one byte with a 1 still to be sent. -/
def onePending : World ℕ where
  tune := ⟨bareDef ℕ [1], [⟨[1], [0], [0]⟩], ∅, true⟩
  ecu := [⟨[0], [0]⟩]
  lastError := none
  issued := fun _ => 0
  locks := 0

theorem onePending_sized : Sized onePending := by
  refine ⟨rfl, fun j p e hp he => ?_⟩
  cases j with
  | zero =>
    obtain rfl : (⟨[1], [0], [0]⟩ : PageState) = p := Option.some.inj hp
    obtain rfl : (⟨[0], [0]⟩ : EcuPage) = e := Option.some.inj he
    exact ⟨rfl, rfl⟩
  | succ j => exact nomatch (show (none : Option PageState) = some p from hp)

def allAnswered : Env UInt32 where
  fate := fun _ _ => .answered
  edits := fun _ => []
  crc := crc32

theorem onePending_complete_iff : (doBurn allAnswered (some oneBytePages) onePending).1 = .ok [0] ∧
    (Complete (doBurn allAnswered (some oneBytePages) onePending).2 ↔
      Reaches allAnswered oneBytePages onePending) := by
  have h : (doBurn allAnswered (some oneBytePages) onePending).1 = .ok [0] := by decide +kernel
  exact ⟨h, doBurn_complete_iff (fun _ => rfl) onePending_sized h⟩

/-- The first write never reaches the ECU. -/
def unreached : Env UInt32 where
  fate
    | .write, 0 => .failed false .timeout
    | _, _ => .answered
  edits := fun _ => []
  crc := crc32

/-- **A write that fails is not heard of**: the burn succeeds with the edit neither sent nor
burned. -/
theorem swallowed_not_complete : ¬ ∀ (env : Env UInt32) (pages : PageCommands) (w : World ℕ)
    (burned : List ℕ), env.Quiet → Sized w → w.tune.loaded = true →
    (doBurn env (some pages) w).1 = .ok burned → Complete (doBurn env (some pages) w).2 := by
  intro h
  have hc := h unreached oneBytePages onePending [] (fun _ => rfl) onePending_sized rfl
    (by decide +kernel)
  have := hc 0 ⟨[1], [0], [0]⟩ ⟨[0], [0]⟩ (by decide +kernel) (by decide +kernel)
  simp at this

end RustyTune.Server
