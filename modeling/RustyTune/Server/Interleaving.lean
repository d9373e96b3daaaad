import RustyTune.Server.Burn

/-!
# Edits during a flush

While the comms thread is between two locks, clients edit the local data. A mark then puts other
bytes into the shadow than were sent; the verification that ends each page finds out.

* `Edited`: what edits leave alone. `TrueOutside bad`: the shadows are true on all pages but the bad
  ones, whose shadow may be anything.
* `sendChunks_trueOutside`, **`verifyPage_true`**: sending a page spoils its shadow at most, and
  verifying it sets it right.
* **`calls_true`**: on pages that 16-bit offsets reach, after every flush the shadows are true and,
  if no edit fell into it, no page is dirty; after every burn that succeeds the burned copies are
  true. **`longPage_not_true`**: beyond 16 bits this fails.
-/

namespace RustyTune.Server

open TuneModel EcuProto World

variable {F κ : Type} {env : Env κ} {pages : PageCommands} {w w' : World F} {bad : ℕ → Prop}

/-! ## Edits -/

/-- What edits leave of a tune. -/
structure Edited (t t' : Tune F) : Prop where
  count : t'.pages.length = t.pages.length
  loaded : t'.loaded = t.loaded
  page : ∀ j p', t'.page j = some p' → ∃ p, t.page j = some p ∧ p'.ecu = p.ecu ∧
    p'.burned = p.burned ∧ p'.data.length = p.data.length
  unloaded : t.loaded = false → t' = t

theorem Edited.refl (t : Tune F) : Edited t t :=
  ⟨rfl, rfl, fun _ p' hp' => ⟨p', hp', rfl, rfl, rfl⟩, fun _ => rfl⟩

theorem Edited.trans {t t' t'' : Tune F} (h : Edited t t') (h' : Edited t' t'') : Edited t t'' where
  count := h'.count.trans h.count
  loaded := h'.loaded.trans h.loaded
  page := fun j p'' hp'' => by
    obtain ⟨p', hp', h1, h2, h3⟩ := h'.page j p'' hp''
    obtain ⟨p, hp, h4, h5, h6⟩ := h.page j p' hp'
    exact ⟨p, hp, h1.trans h4, h2.trans h5, h3.trans h6⟩
  unloaded := fun hl => (h'.unloaded (h.loaded.trans hl)).trans (h.unloaded hl)

theorem edited_apply (t : Tune F) (e : Edit) : Edited t (e.apply t) where
  count := pages_length_edit t e
  loaded := by unfold Edit.apply; split_ifs <;> simp
  page := fun j p' hp' => by
    rcases page_edit t e j with heq | ⟨rfl, p, hp, hlen, heq⟩
    · exact ⟨p', heq ▸ hp', rfl, rfl, rfl⟩
    · obtain rfl := Option.some.inj (heq.symm.trans hp')
      exact ⟨p, hp, rfl, rfl, hlen⟩
  unloaded := fun hl => by simp [Edit.apply, hl]

theorem lock_edited (env : Env κ) (w : World F) : Edited w.tune (w.lock env).tune :=
  List.foldlRecOn (env.edits w.locks) (motive := Edited w.tune) Edit.apply (Edited.refl _)
    fun t ht e _ => ht.trans (edited_apply t e)

/-! ## Shadows that are true but for some pages -/

/-- The burned copies are true, and so are the shadows of all pages but the bad ones. -/
structure TrueOutside (bad : ℕ → Prop) (w : World F) : Prop where
  sized : Sized w
  burned : ∀ j p e, w.tune.page j = some p → w.ecu[j]? = some e → p.burned = e.eeprom
  shadow : ∀ j p e, w.tune.page j = some p → w.ecu[j]? = some e → ¬ bad j → p.ecu = e.ram

theorem ShadowsTrue.trueOutside (h : ShadowsTrue w) (bad : ℕ → Prop) : TrueOutside bad w :=
  ⟨h.sized, fun j p e hp he => (h.page j p e hp he).2, fun j p e hp he _ => (h.page j p e hp he).1⟩

theorem TrueOutside.edited (h : TrueOutside bad w) (ht : Edited w.tune w'.tune)
    (he : w'.ecu = w.ecu) : TrueOutside bad w' := by
  refine ⟨⟨?_, fun j p' e hp' he' => ?_⟩, fun j p' e hp' he' => ?_, fun j p' e hp' he' hb => ?_⟩
  · rw [ht.count, he]
    exact h.sized.count
  all_goals
    obtain ⟨p, hp, h1, h2, h3⟩ := ht.page j p' hp'
    rw [he] at he'
  · obtain ⟨h4, h5⟩ := h.sized.size j p e hp he'
    exact ⟨h3.trans h4, by rw [h1]; exact h5⟩
  · exact h2.trans (h.burned j p e hp he')
  · exact h1.trans (h.shadow j p e hp he' hb)

theorem TrueOutside.lock (h : TrueOutside bad w) (env : Env κ) : TrueOutside bad (w.lock env) :=
  h.edited (lock_edited env w) rfl

theorem TrueOutside.asked (h : TrueOutside bad w) (ha : Asked w w') : TrueOutside bad w' :=
  h.edited (ha.tune ▸ Edited.refl _) ha.ecu

/-- A change of page `i` on both sides that keeps sizes and EEPROM may spoil its shadow. -/
theorem TrueOutside.modify {i : ℕ} (h : TrueOutside (· = i) w) {f : PageState → PageState}
    {g : EcuPage → EcuPage} (ht : w'.tune = w.tune.modifyPage i f) (he : w'.ecu = w.ecu.modify i g)
    (hf : ∀ p, p.data.length = p.ecu.length →
      (f p).data.length = p.data.length ∧ (f p).ecu.length = p.ecu.length ∧ (f p).burned = p.burned)
    (hg : ∀ e, (g e).ram.length = e.ram.length ∧ (g e).eeprom = e.eeprom) :
    TrueOutside (· = i) w' := by
  have key : ∀ j p' e', w'.tune.page j = some p' → w'.ecu[j]? = some e' →
      ∃ p e, w.tune.page j = some p ∧ w.ecu[j]? = some e ∧
        (i = j ∧ p' = f p ∧ e' = g e ∨ i ≠ j ∧ p' = p ∧ e' = e) := by
    intro j p' e' hp' he'
    rw [ht, Tune.page_modifyPage] at hp'
    rw [he, List.getElem?_modify] at he'
    obtain ⟨e, he, rfl⟩ := Option.map_eq_some_iff.mp he'
    by_cases hj : i = j
    · rw [if_pos hj] at hp'
      obtain ⟨p, hp, rfl⟩ := Option.map_eq_some_iff.mp hp'
      exact ⟨p, e, hp, he, Or.inl ⟨hj, rfl, if_pos hj⟩⟩
    · rw [if_neg hj] at hp'
      exact ⟨p', e, hp', he, Or.inr ⟨hj, rfl, if_neg hj⟩⟩
  refine ⟨⟨?_, fun j p' e' hp' he' => ?_⟩, fun j p' e' hp' he' => ?_, fun j p' e' hp' he' hb => ?_⟩
  · rw [ht, he, Tune.pages_modifyPage, List.length_modify, List.length_modify]
    exact h.sized.count
  all_goals
    obtain ⟨p, e, hp, he, ⟨hj, rfl, rfl⟩ | ⟨hj, rfl, rfl⟩⟩ := key j p' e' hp' he'
  · obtain ⟨h1, h2⟩ := h.sized.size j p e hp he
    obtain ⟨h3, h4, -⟩ := hf p (h1.trans h2.symm)
    exact ⟨by rw [h3, (hg e).1, h1], by rw [h4, (hg e).1, h2]⟩
  · exact h.sized.size j p' e' hp he
  · obtain ⟨h1, h2⟩ := h.sized.size j p e hp he
    rw [(hf p (h1.trans h2.symm)).2.2, (hg e).2]
    exact h.burned j p e hp he
  · exact h.burned j p' e' hp he
  · exact absurd hj.symm hb
  · exact h.shadow j p' e' hp he hb

/-! ## One page -/

theorem sent_sizes {offset len : ℕ} {p : PageState} (hp : p.data.length = p.ecu.length) :
    (sent offset len p).data.length = p.data.length ∧ (sent offset len p).ecu.length = p.ecu.length ∧
      (sent offset len p).burned = p.burned := by
  unfold sent
  split_ifs with h
  · have hl := slice_length (l := p.data) h
    exact ⟨rfl, length_overwrite (by omega), rfl⟩
  · exact ⟨rfl, rfl, rfl⟩

theorem TrueOutside.sentOne {i : ℕ} (h : TrueOutside (· = i) w) (x : ℕ × List UInt8) :
    TrueOutside (· = i) (sentOne env i x w) := by
  have h₁ : TrueOutside (· = i) ((w.ask .write).modifyEcu i (written x.1 x.2)) :=
    h.modify (f := id) (by simp [Tune.modifyPage, World.modifyEcu, World.ask]) rfl
      (fun p _ => ⟨rfl, rfl, rfl⟩)
      fun e => ⟨length_ram_written _ _ e, (foldl_written_eeprom [x] e).1⟩
  exact (h₁.lock env).modify (g := id) (f := sent x.1 x.2.length) rfl (by simp [World.modifyTune, Server.sentOne])
    (fun p hp => sent_sizes hp) fun e => ⟨rfl, rfl⟩

theorem Fits.sentOne {i : ℕ} (hf : Fits pages w) (x : ℕ × List UInt8) :
    Fits pages (sentOne env i x w) := by
  have := map_length_writeAll [⟨i, x.1, x.2⟩] w.ecu
  unfold Fits at hf ⊢
  rw [← hf, ← this]
  rfl

theorem sentOne_loaded (i : ℕ) (x : ℕ × List UInt8) : (sentOne env i x w).tune.loaded =
    w.tune.loaded := (lock_edited env ((w.ask .write).modifyEcu i (written x.1 x.2))).loaded

/-- Sending the writes of a page spoils its shadow at most. -/
theorem sendChunks_trueOutside (hall : env.AllAnswered) (i : ℕ) :
    ∀ (ws : List (ℕ × List UInt8)) (w : World F), Fits pages w → TrueOutside (· = i) w →
      (sendChunks env i ws w).1 = true ∧ Fits pages (sendChunks env i ws w).2 ∧
        TrueOutside (· = i) (sendChunks env i ws w).2 ∧
        (sendChunks env i ws w).2.tune.loaded = w.tune.loaded
  | [], _, hf, h => ⟨rfl, hf, h, rfl⟩
  | x :: ws, w, hf, h => by
    obtain ⟨h1, h2, h3, h4⟩ :=
      sendChunks_trueOutside hall i ws (sentOne env i x w) (hf.sentOne x) (h.sentOne x)
    rw [sendChunks_answered (hall _ _)]
    exact ⟨h1, h2, h3, h4.trans (sentOne_loaded i x)⟩

theorem ShadowsTrue.of_trueOutside {i : ℕ} (h : TrueOutside (· = i) w)
    (hi : ∀ p e, w.tune.page i = some p → w.ecu[i]? = some e → p.ecu = e.ram) : ShadowsTrue w :=
  ⟨h.sized, fun j p e hp he => ⟨by
    by_cases hj : j = i
    · subst hj; exact hi p e hp he
    · exact h.shadow j p e hp he hj, h.burned j p e hp he⟩⟩

variable [DecidableEq κ]

/-- **A verification sets the shadow of its page right.** -/
theorem verifyPage_true (hall : env.AllAnswered) (hinj : Function.Injective env.crc)
    (ha : pages.Addressable) {i : ℕ} (hi : i < pages.sizes.length) (hf : Fits pages w)
    (h : TrueOutside (· = i) w) :
    Fits pages (verifyPage env pages i w) ∧ ShadowsTrue (verifyPage env pages i w) ∧
      (verifyPage env pages i w).tune.loaded = w.tune.loaded := by
  have hlen : i < w.ecu.length := by rw [← hf, List.length_map] at hi; exact hi
  have hl := lock_edited env w
  rcases verifyPage_cases env pages i w with ⟨hask, hcrc⟩ | ⟨w₂, bytes, text, hask, -, hbytes, heq⟩
  · -- the CRCs agree
    refine ⟨by unfold Fits at hf ⊢; rw [hask.ecu]; exact hf,
      .of_trueOutside ((h.lock env).asked hask) fun p e hp he => ?_, by rw [hask.tune, hl.loaded]⟩
    have heq := hinj (hcrc hall hf ha hlen)
    rw [hask.tune] at hp
    rw [hask.ecu] at he
    rw [World.ram, World.shadow, hp, show w.ecu[i]? = some e from he] at heq
    exact heq.symm
  · -- the shadow is read anew
    have hbytes := hbytes hf ha
    have h₂ := ((h.lock env).asked hask).lock env
    have hl₂ := lock_edited env w₂
    have hecu : (w₂.lock env).ecu = w.ecu := hask.ecu
    set w₃ := w₂.lock env with hw₃
    have hsize : bytes.length = (w.ram i).length := by rw [hbytes]
    have hpage : ∀ p, w₃.tune.page i = some p → p.ecu.length = bytes.length ∧
        p.data.length = bytes.length := fun p hp => by
      obtain ⟨h3, h4⟩ := h₂.sized.size i p w.ecu[i] hp
        (by rw [hecu]; exact List.getElem?_eq_getElem hlen)
      rw [hsize, World.ram, List.getElem?_eq_getElem hlen]
      exact ⟨h4, h3⟩
    rw [heq]
    refine ⟨by unfold Fits at hf ⊢; rw [← hf, ← hecu]; rfl, ⟨⟨?_, ?_⟩, ?_⟩, ?_⟩
    · show (w₃.tune.resyncEcu i bytes).pages.length = w₃.ecu.length
      rw [← h₂.sized.count]
      simp [Tune.resyncEcu]
    · intro j p' e hp' he
      change (w₃.tune.resyncEcu i bytes).page j = some p' at hp'
      rw [Tune.resyncEcu, Tune.page_modifyPage] at hp'
      split_ifs at hp' with hj
      · subst hj
        obtain ⟨p, hp, rfl⟩ := Option.map_eq_some_iff.mp hp'
        obtain ⟨h3, h4⟩ := h₂.sized.size i p e hp he
        exact ⟨h3, (hpage p hp).1.symm.trans h4⟩
      · exact h₂.sized.size j p' e hp' he
    · intro j p' e hp' he
      change (w₃.tune.resyncEcu i bytes).page j = some p' at hp'
      rw [Tune.resyncEcu, Tune.page_modifyPage] at hp'
      split_ifs at hp' with hj
      · subst hj
        obtain ⟨p, hp, rfl⟩ := Option.map_eq_some_iff.mp hp'
        refine ⟨?_, h₂.burned i p e hp he⟩
        rw [hbytes, World.ram, ← hecu, show w₃.ecu[i]? = some e from he]
        rfl
      · exact ⟨h₂.shadow j p' e hp' he fun h => hj h.symm, h₂.burned j p' e hp' he⟩
    · show w₃.tune.loaded = w.tune.loaded
      rw [hl₂.loaded, hask.tune, hl.loaded]

/-! ## Flushes and burns -/

theorem flushPages_true (hall : env.AllAnswered) (hinj : Function.Injective env.crc)
    (ha : pages.Addressable) : ∀ (is : List ℕ) (w : World F), (∀ i ∈ is, i < pages.sizes.length) →
      Fits pages w → ShadowsTrue w → Fits pages (flushPages env pages is w) ∧
        ShadowsTrue (flushPages env pages is w) ∧
        (flushPages env pages is w).tune.loaded = w.tune.loaded
  | [], _, _, hf, h => ⟨hf, h, rfl⟩
  | i :: is, w, his, hf, h => by
    have hf₁ : Fits pages (w.lock env) := hf
    obtain ⟨h1, h2, h3, h4⟩ := sendChunks_trueOutside hall i (firstWrites pages i (w.lock env))
      (w.lock env) hf₁ ((h.trueOutside _).lock env)
    obtain ⟨h5, h6, h7⟩ := verifyPage_true hall hinj ha (his i List.mem_cons_self) h2 h3
    rw [flushPages_of_sent h1]
    obtain ⟨h8, h9, h10⟩ := flushPages_true hall hinj ha is _
      (fun j hj => his j (List.mem_cons_of_mem _ hj)) h5 h6
    exact ⟨h8, h9, by rw [h10, h7, h4, (lock_edited env w).loaded]⟩

omit [DecidableEq κ] in
theorem ShadowsTrue.lock (h : ShadowsTrue w) (env : Env κ) : ShadowsTrue (w.lock env) := by
  have := (h.trueOutside fun _ => False).lock env
  exact ⟨this.sized, fun j p e hp he => ⟨this.shadow j p e hp he id, this.burned j p e hp he⟩⟩

theorem dirtyPages_lt (hf : Fits pages w) (hs : Sized w) : ∀ i ∈ dirtyPages w, i < pages.sizes.length :=
  fun i hi => by
    have := List.mem_range.mp (List.mem_filter.mp hi).1
    rw [← hf, List.length_map, ← hs.count]
    exact this

/-- **After a flush the shadows are true**, whatever edits fall into it. -/
theorem flushDirty_true (hall : env.AllAnswered) (hinj : Function.Injective env.crc)
    (ha : pages.Addressable) (hf : Fits pages w) (h : ShadowsTrue w) :
    Fits pages (flushDirty env pages w) ∧ ShadowsTrue (flushDirty env pages w) ∧
      (flushDirty env pages w).tune.loaded = w.tune.loaded := by
  have hf₁ : Fits pages (w.lock env) := hf
  cases hl : (w.lock env).tune.loaded with
  | false =>
    rw [flushDirty_of_not_loaded hl]
    exact ⟨hf₁, h.lock env, (lock_edited env w).loaded⟩
  | true =>
    have hdef : flushDirty env pages w =
        flushPages env pages (dirtyPages ((w.lock env).lock env)) ((w.lock env).lock env) := by
      simp [flushDirty, hl, dirtyPages]
    have hf₂ : Fits pages ((w.lock env).lock env) := hf
    have h₂ := (h.lock env).lock env
    obtain ⟨h1, h2, h3⟩ := flushPages_true hall hinj ha _ _ (dirtyPages_lt hf₂ h₂.sized) hf₂ h₂
    rw [hdef]
    exact ⟨h1, h2, by rw [h3, (lock_edited env _).loaded, (lock_edited env w).loaded]⟩

/-- A flush into which no edit falls leaves no page dirty. -/
theorem flushDirty_clean (hall : env.AllAnswered) (ha : pages.Addressable) (hf : Fits pages w)
    (h : ShadowsTrue w) (hl : w.tune.loaded = true)
    (hq : env.QuietOn (w.locks + 1) (flushDirty env pages w).locks) (j : ℕ) :
    (flushDirty env pages w).tune.pageDirty j = false := by
  have hfl := flushDirty_flushed pages
    (by rw [(lock_edited env w).loaded, hl]) hq
  have hs := h.lock env
  set u := w.lock env with hu
  have hf₁ : Fits pages u := hf
  have hans : ∀ n, env.fate .write n = .answered := hall .write
  have hall₁ : answeredWrites env pages (dirtyPages u) u = plan pages u.tune (dirtyPages u) := by
    rw [answeredWrites, acked_of_answered hans, List.take_length]
  have hexec : executedWrites env pages (dirtyPages u) u = plan pages u.tune (dirtyPages u) := by
    rw [executedWrites, carriedOut_of_acked (acked_of_answered hans _ _), List.take_length]
  cases hp' : (flushDirty env pages w).tune.page j with
  | none => simp [Tune.pageDirty, hp']
  | some p' =>
    obtain ⟨e', he'⟩ : ∃ e', (flushDirty env pages w).ecu[j]? = some e' := by
      have hc := hfl.count hs.sized.count
      have hj := (List.getElem?_eq_some_iff.mp hp').1
      exact ⟨_, List.getElem?_eq_getElem (by omega)⟩
    obtain ⟨p, e, hp, he⟩ := hfl.exists_before hp' he'
    obtain ⟨q, r, hq', hr', hpf⟩ := hfl.bytes hs.sized (dirtyPages_nodup u) hp he
    obtain rfl := Option.some.inj (hq'.symm.trans hp')
    obtain rfl := Option.some.inj (hr'.symm.trans he')
    have hcov : ∀ i : ℕ, p.data[i]? ≠ p.ecu[i]? →
        Covers (onPage j (plan pages u.tune (dirtyPages u))) i := fun i hne =>
      onPage_plan_cover hs.sized (dirtyPages_nodup u)
        ((mem_dirtyPages hp).mpr fun heq => hne (by rw [heq])) hp hne
    have hbytes : ∀ i : ℕ, (if Covers (onPage j (plan pages u.tune (dirtyPages u))) i then p.data[i]?
        else p.ecu[i]?) = p.data[i]? := fun i => by
      split_ifs with hc
      · rfl
      · by_contra hne
        exact hc (hcov i fun heq => hne heq.symm)
    suffices hdata : q.data = q.ecu by simp [Tune.pageDirty, hq', hdata]
    rw [hpf.data]
    rcases hpf.ecu with ⟨-, hecu⟩ | ⟨-, -, hcrc, -⟩
    · refine List.ext_getElem? fun i => ?_
      rw [hecu, hall₁, hbytes]
    · -- RAM is the local data, so the CRCs cannot differ
      obtain ⟨-, hram⟩ := hpf.ram_bytes hs.sized (dirtyPages_nodup u) hp he (hf₁.length_le ha he)
      refine absurd (congrArg env.crc (List.ext_getElem? fun i => ?_)) hcrc
      rw [hram, hexec, ← (hs.page j p e hp he).1, hbytes]

omit [DecidableEq κ] in
theorem burnPages_true (hall : env.AllAnswered) : ∀ (is acc : List ℕ) (w : World F), Fits pages w →
    ShadowsTrue w → Fits pages (burnPages env is acc w).2 ∧ ShadowsTrue (burnPages env is acc w).2 ∧
      (burnPages env is acc w).2.tune.loaded = w.tune.loaded
  | [], _, _, hf, h => ⟨hf, h, rfl⟩
  | i :: is, acc, w, hf, h => by
    have hstep : burnPages env (i :: is) acc w = burnPages env is (acc ++ [i])
        ((((w.ask .burn).modifyEcu i fun p => { p with eeprom := p.ram }).lock env).modifyTune
          (·.markBurned i)) := by
      simp only [burnPages, World.burn, hall.request]
    set u := (w.ask .burn).modifyEcu i fun p => { p with eeprom := p.ram } with hu
    have hl := lock_edited env u
    have hecu : ∀ j e', u.ecu[j]? = some e' → ∃ e, w.ecu[j]? = some e ∧ e'.ram = e.ram ∧
        e'.eeprom = if i = j then e.ram else e.eeprom := by
      intro j e' he'
      change (w.ecu.modify i fun p => { p with eeprom := p.ram })[j]? = some e' at he'
      rw [List.getElem?_modify] at he'
      obtain ⟨e, he, rfl⟩ := Option.map_eq_some_iff.mp he'
      refine ⟨e, he, ?_, ?_⟩ <;> by_cases hj : i = j <;> simp [hj]
    have hfits : Fits pages ((u.lock env).modifyTune (·.markBurned i)) := by
      unfold Fits at hf ⊢
      rw [← hf]
      refine List.ext_getElem? fun j => ?_
      show ((w.ecu.modify i fun p => { p with eeprom := p.ram }).map fun e => e.ram.length)[j]? = _
      rw [List.getElem?_map, List.getElem?_map, List.getElem?_modify]
      cases w.ecu[j]? with
      | none => rfl
      | some e => by_cases hj : i = j <;> simp [hj]
    have htrue : ShadowsTrue ((u.lock env).modifyTune (·.markBurned i)) := by
      have key : ∀ j p' e', ((u.lock env).tune.markBurned i).page j = some p' →
          u.ecu[j]? = some e' → (p'.data.length = e'.ram.length ∧ p'.ecu.length = e'.ram.length) ∧
            p'.ecu = e'.ram ∧ p'.burned = e'.eeprom := by
        intro j p' e' hp' he'
        obtain ⟨e, he, hram, heeprom⟩ := hecu j e' he'
        rw [Tune.markBurned, Tune.page_modifyPage] at hp'
        split_ifs at hp' heeprom with hj
        · obtain ⟨q, hq, rfl⟩ := Option.map_eq_some_iff.mp hp'
          obtain ⟨p, hp, h1, -, h3⟩ := hl.page j q hq
          obtain ⟨h4, h5⟩ := h.sized.size j p e hp he
          obtain ⟨h6, -⟩ := h.page j p e hp he
          rw [hram, heeprom]
          exact ⟨⟨h3.trans h4, by rw [h1]; exact h5⟩, h1.trans h6, h1.trans h6⟩
        · obtain ⟨p, hp, h1, h2, h3⟩ := hl.page j p' hp'
          obtain ⟨h4, h5⟩ := h.sized.size j p e hp he
          obtain ⟨h6, h7⟩ := h.page j p e hp he
          rw [hram, heeprom]
          exact ⟨⟨h3.trans h4, by rw [h1]; exact h5⟩, h1.trans h6, h2.trans h7⟩
      refine ⟨⟨?_, fun j p e hp he => (key j p e hp he).1⟩, fun j p e hp he => (key j p e hp he).2⟩
      show ((u.lock env).tune.markBurned i).pages.length = (w.ecu.modify i _).length
      rw [Tune.markBurned, Tune.pages_modifyPage, List.length_modify, List.length_modify, hl.count]
      exact h.sized.count
    rw [hstep]
    obtain ⟨h1, h2, h3⟩ := burnPages_true hall is (acc ++ [i]) _ hfits htrue
    exact ⟨h1, h2, h3.trans hl.loaded⟩

/-! ## Runs -/

/-- What the comms thread does with the pages. -/
inductive Call
  | flush
  | burn
  deriving DecidableEq, Repr

def callStep (env : Env κ) (pages : PageCommands) (w : World F) : Call → World F
  | .flush => flushDirty env pages w
  | .burn => (doBurn env (some pages) w).2

/-- Every page's shadow is the ECU's RAM. -/
def RamKnown (w : World F) : Prop :=
  ∀ j p e, w.tune.page j = some p → w.ecu[j]? = some e → p.ecu = e.ram

/-- Every page's burned copy is the ECU's EEPROM. -/
def EepromKnown (w : World F) : Prop :=
  ∀ j p e, w.tune.page j = some p → w.ecu[j]? = some e → p.burned = e.eeprom

/-- After a flush from `w` RAM is known, and no page is dirty if no edit fell into the flush. -/
def FlushRight (env : Env κ) (pages : PageCommands) (w : World F) : Prop :=
  RamKnown (flushDirty env pages w) ∧
    (env.QuietOn (w.locks + 1) (flushDirty env pages w).locks →
      ∀ j, (flushDirty env pages w).tune.pageDirty j = false)

/-- A call does what it should: for a burn, so does its flush, and with success RAM and EEPROM are
known. -/
def CallRight (env : Env κ) (pages : PageCommands) (w : World F) : Call → Prop
  | .flush => FlushRight env pages w
  | .burn => FlushRight env pages (w.lock env) ∧ ∀ burned,
      (doBurn env (some pages) w).1 = .ok burned →
        RamKnown (doBurn env (some pages) w).2 ∧ EepromKnown (doBurn env (some pages) w).2

/-- Nothing is edited in a tune that is not loaded. -/
def IdleUnlessLoaded (w : World F) : Prop :=
  w.tune.loaded = false → ∀ j, w.tune.pageDirty j = false

theorem IdleUnlessLoaded.of_edited (h : IdleUnlessLoaded w) (he : Edited w.tune w'.tune) :
    IdleUnlessLoaded w' := fun hl j => by
  rw [he.loaded] at hl
  rw [he.unloaded hl]
  exact h hl j

theorem flushDirty_right (hall : env.AllAnswered) (hinj : Function.Injective env.crc)
    (ha : pages.Addressable) (hf : Fits pages w) (h : ShadowsTrue w) (hidle : IdleUnlessLoaded w) :
    FlushRight env pages w := by
  refine ⟨fun j p e hp he => ((flushDirty_true hall hinj ha hf h).2.1.page j p e hp he).1, fun hq => ?_⟩
  cases hl : w.tune.loaded with
  | false =>
    rw [flushDirty_of_not_loaded (by rw [(lock_edited env w).loaded, hl]),
      (lock_edited env w).unloaded hl]
    exact hidle hl
  | true => exact flushDirty_clean hall ha hf h hl hq

/-- What holds between the calls. -/
structure Settled (pages : PageCommands) (w : World F) : Prop where
  fits : Fits pages w
  shadows : ShadowsTrue w
  idle : IdleUnlessLoaded w

theorem Settled.flush (hall : env.AllAnswered) (hinj : Function.Injective env.crc)
    (ha : pages.Addressable) (h : Settled pages w) : Settled pages (flushDirty env pages w) := by
  obtain ⟨h1, h2, h3⟩ := flushDirty_true hall hinj ha h.fits h.shadows
  refine ⟨h1, h2, fun hl => ?_⟩
  rw [h3] at hl
  rw [flushDirty_of_not_loaded (by rw [(lock_edited env w).loaded, hl]),
    (lock_edited env w).unloaded hl]
  exact h.idle hl

omit [DecidableEq κ] in
theorem Settled.lock (h : Settled pages w) (env : Env κ) : Settled pages (w.lock env) :=
  ⟨h.fits, h.shadows.lock env, h.idle.of_edited (lock_edited env w)⟩

theorem Settled.burn (hall : env.AllAnswered) (hinj : Function.Injective env.crc)
    (ha : pages.Addressable) (h : Settled pages w) :
    Settled pages (doBurn env (some pages) w).2 := by
  have h₁ := h.lock env
  unfold doBurn
  cases hl : (w.lock env).tune.loaded with
  | false => simpa [hl] using h₁
  | true =>
    simp only [hl, Bool.not_true, Bool.false_eq_true, if_false]
    have h₂ := (h₁.flush hall hinj ha).lock env
    obtain ⟨h3, h4, h5⟩ := burnPages_true hall
      ((List.range ((flushDirty env pages (w.lock env)).lock env).tune.pageCount).filter
        ((flushDirty env pages (w.lock env)).lock env).tune.pageBurnPending) [] _ h₂.fits h₂.shadows
    refine ⟨h3, h4, fun hl' => ?_⟩
    rw [h5, (lock_edited env _).loaded, (flushDirty_true hall hinj ha h₁.fits h₁.shadows).2.2, hl] at hl'
    cases hl'

/-- **Edits during flushes are repaired.** With an ECU that answers every request, CRCs that tell
pages apart, pages within reach of 16-bit offsets, and shadows that are true at the start: however
edits fall between the locks of the comms thread, after every flush the shadows are the ECU's RAM,
after every burn that succeeds the burned copies are its EEPROM, and a flush into which no edit fell
leaves no page dirty. -/
theorem calls_true (hall : env.AllAnswered) (hinj : Function.Injective env.crc)
    (ha : pages.Addressable) (hf : Fits pages w) (hs : ShadowsTrue w) (hidle : IdleUnlessLoaded w)
    (calls : List Call) : Along (callStep env pages) (CallRight env pages) w calls := by
  have h : Settled pages w := ⟨hf, hs, hidle⟩
  clear hf hs hidle
  induction calls generalizing w with
  | nil => trivial
  | cons c calls ih =>
    cases c with
    | flush =>
      exact ⟨flushDirty_right hall hinj ha h.fits h.shadows h.idle, ih (h.flush hall hinj ha)⟩
    | burn =>
      have h₁ := h.lock env
      have hb := h.burn hall hinj ha
      exact ⟨⟨flushDirty_right hall hinj ha h₁.fits h₁.shadows h₁.idle, fun _ _ =>
        ⟨fun j p e hp he => (hb.shadows.page j p e hp he).1,
          fun j p e hp he => (hb.shadows.page j p e hp he).2⟩⟩, ih hb⟩

/-! ## Inside and outside of 16 bits -/

/-- Every request is answered, a page's CRC is the page itself, and an edit of the only byte falls
between a write and its mark. -/
def editMeanwhile : Env (List UInt8) where
  fate := fun _ _ => .answered
  edits := fun n => if n = 3 then [⟨0, [2]⟩] else []
  crc := id

theorem editMeanwhile_true :
    Along (callStep editMeanwhile oneBytePages) (CallRight editMeanwhile oneBytePages) onePending
      [.flush, .burn] := by
  have hfits : Fits oneBytePages onePending := rfl
  refine calls_true (fun _ _ => rfl) Function.injective_id (fun size hsize => ?_) hfits
    ⟨onePending_sized, fun j p e hp he => ?_⟩ (fun hl => nomatch hl) _
  · obtain rfl := List.mem_singleton.mp hsize
    decide
  · cases j with
    | zero =>
      obtain rfl : (⟨[1], [0], [0]⟩ : PageState) = p := Option.some.inj hp
      obtain rfl : (⟨[0], [0]⟩ : EcuPage) = e := Option.some.inj he
      exact ⟨rfl, rfl⟩
    | succ j => exact nomatch (show (none : Option PageState) = some p from hp)

section LongPage

variable (n : ℕ)

/-- `n` zeros and a last byte. -/
def longBytes (b : UInt8) : List UInt8 := List.replicate n 0 ++ [b]

/-- A page of `n + 1` bytes whose last byte is to be sent. -/
def longPage : World ℕ where
  tune := ⟨bareDef ℕ [UInt32.ofNat (n + 1)], [⟨longBytes n 1, longBytes n 0, longBytes n 0⟩], ∅, true⟩
  ecu := [⟨longBytes n 0, longBytes n 0⟩]
  lastError := none
  issued := fun _ => 0
  locks := 0

def longPages : PageCommands := ⟨[n + 1], 251, oneBytePages.blockingFactor_pos⟩

/-- Every request is answered, and nobody edits. -/
def undisturbed : Env (List UInt8) where
  fate := fun _ _ => .answered
  edits := fun _ => []
  crc := id

@[simp] theorem length_longBytes (b : UInt8) : (longBytes n b).length = n + 1 := by
  simp [longBytes]

theorem getElem?_longBytes (b : UInt8) : (longBytes n b)[n]? = some b := by
  rw [longBytes, List.getElem?_append_right (by simp), List.length_replicate]
  simp

theorem longPage_fits : Fits (longPages n) (longPage n) := by simp [Fits, longPage, longPages]

theorem longPage_shadowsTrue : ShadowsTrue (longPage n) := by
  refine ⟨⟨rfl, fun j p e hp he => ?_⟩, fun j p e hp he => ?_⟩
  all_goals
    cases j with
    | zero =>
      obtain rfl : (⟨longBytes n 1, longBytes n 0, longBytes n 0⟩ : PageState) = p := Option.some.inj hp
      obtain rfl : (⟨longBytes n 0, longBytes n 0⟩ : EcuPage) = e := Option.some.inj he
      simp
    | succ j => exact nomatch (show (none : Option PageState) = some p from hp)

theorem foldl_spanStep_same (maxGap : ℕ) : ∀ (l : List UInt8) (n : ℕ) (spans : List (ℕ × ℕ)),
    ((l.zip l).zipIdx n).foldl (spanStep maxGap) spans = spans
  | [], _, _ => rfl
  | a :: l, n, spans => by
    rw [List.zip_cons_cons, List.zipIdx_cons, List.foldl_cons, foldl_spanStep_same maxGap l]
    simp [spanStep]

theorem dirtySpans_longPage : (longPage n).tune.dirtySpans 0 SPAN_MERGE_GAP = [(n, [1])] := by
  have hspans : (⟨longBytes n 1, longBytes n 0, longBytes n 0⟩ : PageState).spans SPAN_MERGE_GAP =
      [(n, n + 1)] := by
    rw [PageState.spans, longBytes, longBytes, List.zip_append rfl, List.zipIdx_append,
      List.foldl_append, foldl_spanStep_same, List.length_zip, List.length_replicate, Nat.min_self]
    simp [spanStep]
  have hslice : slice (longBytes n 1) n 1 = [1] := by
    simp [slice, longBytes]
  show (PageState.dirtySpans ⟨longBytes n 1, longBytes n 0, longBytes n 0⟩ SPAN_MERGE_GAP) = _
  rw [PageState.dirtySpans, hspans, List.map_singleton]
  dsimp only
  rw [Nat.add_sub_cancel_left, hslice]

/-- Where the offset of the last byte wraps to 0, the flush of that byte goes wrong. -/
theorem longPage_wrong (hpos : 0 < n) (hwrap : wireOffset n = 0) :
    ¬ FlushRight undisturbed (longPages n) (longPage n) := by
  rintro ⟨hknown, hclean⟩
  have hquiet : undisturbed.Quiet := fun _ => rfl
  have hfl := flushDirty_flushed (longPages n)
    (show ((longPage n).lock undisturbed).tune.loaded = true from rfl) (hquiet.on _ _)
  obtain ⟨p', e', hp', he', hpf⟩ := hfl.bytes ((longPage_shadowsTrue n).lock undisturbed).sized
    (dirtyPages_nodup _) (j := 0) rfl rfl
  -- shadow, RAM and local data would all agree
  have hram := hknown 0 p' e' hp' he'
  have hdata := not_dirty hp' (hclean (hquiet.on _ _) 0)
  rw [hram, hpf.data, hpf.ram] at hdata
  -- but the only write leaves the last byte of RAM alone
  have hmem : 0 ∈ dirtyPages ((longPage n).lock undisturbed) := by
    refine (mem_dirtyPages (p := ⟨longBytes n 1, longBytes n 0, longBytes n 0⟩) rfl).mpr fun heq => ?_
    have := congrArg (·[n]?) heq
    simp only [getElem?_longBytes] at this
    exact absurd this (by decide)
  have hexec : onPage 0 (executedWrites undisturbed (longPages n)
      (dirtyPages ((longPage n).lock undisturbed)) ((longPage n).lock undisturbed)) = [(n, [1])] := by
    rw [executedWrites, carriedOut_of_acked (acked_of_answered (fun _ => rfl) _ _), List.take_length,
      onPage_plan _ (dirtyPages_nodup _) hmem,
      show ((longPage n).lock undisturbed).tune = (longPage n).tune from rfl, dirtySpans_longPage]
    rfl
  rw [hexec, List.foldl_cons, List.foldl_nil, written, EcuPage.write, hwrap,
    if_pos (by simp)] at hdata
  have hlast := congrArg (·[n]?) hdata
  dsimp only at hlast
  rw [getElem?_overwrite_of_not_mem (by simp) (by simp; omega), getElem?_longBytes,
    getElem?_longBytes] at hlast
  exact absurd hlast (by decide)

/-- **Beyond 16 bits a flush does not make the shadow true**: the write of the last byte of a page of
`2 ^ 16 + 1` bytes goes to the first one. -/
theorem longPage_not_true : ¬ ∀ (env : Env (List UInt8)) (pages : PageCommands) (w : World ℕ)
    (calls : List Call), env.AllAnswered → Function.Injective env.crc → Fits pages w →
    ShadowsTrue w → IdleUnlessLoaded w → Along (callStep env pages) (CallRight env pages) w calls :=
  fun h => longPage_wrong (2 ^ 16) (by decide) (by decide) (h undisturbed (longPages (2 ^ 16))
    (longPage (2 ^ 16)) [.flush] (fun _ _ => rfl) Function.injective_id (longPage_fits _)
    (longPage_shadowsTrue _) (fun hl => nomatch hl)).1

end LongPage

end RustyTune.Server
