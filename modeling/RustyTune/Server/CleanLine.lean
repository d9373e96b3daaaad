import RustyTune.Server.Wire

/-!
# A clean line

The simulator corrupts no response. Then every request is answered, and what a client edits reaches the
simulator's EEPROM.

* `downloadTune_answered`, `doBurn_answered`: with every request answered, a download and a burn succeed.
* `kept_run`: on any line, whatever is asked, the simulator's file has what is burned.
* **`download_on_line`**, **`burn_on_line`**: a download and a burn over a clean line.
* **`edit_burn_restart`**: a simulator is started, its tune downloaded, edited and burned; when it is started
  again from its file, the next client downloads the edited tune.
-/

namespace RustyTune.Server

open TuneModel EcuProto FakeEcu

variable {F : Type}

/-! ## Every request is answered -/

section Answered

variable {κ : Type} {env : Env κ} {pages : PageCommands} {w : World F}

theorem burnPages_answered (hall : env.AllAnswered) (is : List ℕ) : ∀ (acc : List ℕ) (w : World F),
    ∃ burned, (burnPages env is acc w).1 = .ok burned := by
  induction is with
  | nil => exact fun acc _ => ⟨acc, rfl⟩
  | cons i is ih =>
    intro acc w
    rw [burnPages, World.burn, hall.request]
    exact ih _ _

variable [DecidableEq κ] {crcNat : κ → ℕ}

variable (crcNat) in
theorem downloadPage_answered (hall : env.AllAnswered) (ha : pages.Addressable) (hf : Fits pages w) {i : ℕ}
    (hi : i < w.ecu.length) (retries : ℕ) : (downloadPage env pages crcNat i retries w).1 = .ok () := by
  have hread := readPage_total hall hf ha hi
  have hram := (readPage_asked env pages i w).ram i
  rw [downloadPage.eq_def]
  rcases hr : w.readPage env pages i with ⟨r, w₁⟩
  rw [hr] at hread hram
  obtain rfl : r = .ok (w.ram i) := hread
  dsimp only at hram ⊢
  rw [World.pageCrc, hall.request, hram]
  dsimp only
  rw [if_pos rfl]

/-- **A download succeeds.** -/
theorem downloadTune_answered (hall : env.AllAnswered) (hq : env.Quiet) (ha : pages.Addressable)
    (hf : Fits pages w) : (downloadTune env pages crcNat w).1 = .ok () := by
  have hcount : pages.pageCount = w.ecu.length := by
    rw [PageCommands.pageCount, ← hf, List.length_map]
  have hpages : ∀ (is : List ℕ) (w : World F), Fits pages w → (∀ i ∈ is, i < w.ecu.length) →
      (downloadPages env pages crcNat is w).1 = .ok () := by
    intro is
    induction is with
    | nil => exact fun _ _ _ => rfl
    | cons i is ih =>
      intro w hf his
      have hpage := downloadPage_answered crcNat hall ha hf (his i List.mem_cons_self) 1
      rw [downloadPages]
      rcases hd : downloadPage env pages crcNat i 1 w with ⟨r, w₁⟩
      rw [hd] at hpage
      obtain rfl : r = .ok () := hpage
      obtain ⟨hecu, -⟩ := downloadPage_ok hq ha hf hd
      refine ih w₁ (by unfold Fits at hf ⊢; rw [hecu, hf]) fun j hj => ?_
      rw [hecu]
      exact his j (List.mem_cons_of_mem i hj)
  exact hpages _ w hf fun i hi => by rw [← hcount]; exact List.mem_range.mp hi

/-- **A burn succeeds.** -/
theorem doBurn_answered (hall : env.AllAnswered) (hloaded : w.tune.loaded = true) :
    ∃ burned, (doBurn env (some pages) w).1 = .ok burned := by
  have hlock : (w.lock env).tune.loaded = true := by rw [(lock_edited env w).loaded, hloaded]
  rw [doBurn]
  simp only [hlock, Bool.not_true, Bool.false_eq_true, if_false]
  exact burnPages_answered hall _ [] _

/-- A burn leaves the local data as it is. -/
theorem doBurn_data (hq : env.Quiet) (hs : Sized w) {burned : List ℕ}
    (h : (doBurn env (some pages) w).1 = .ok burned) {j : ℕ} {p : PageState}
    (hp : w.tune.page j = some p) :
    ∃ p', (doBurn env (some pages) w).2.tune.page j = some p' ∧ p'.data = p.data := by
  obtain ⟨w₁, hfl, hfinal⟩ := doBurn_ok hq h
  obtain ⟨e, he⟩ := hs.exists_ecu hp
  obtain ⟨p₁, e₁, hp₁, -, hflushed⟩ := hfl.bytes hs (dirtyPages_nodup w) hp he
  obtain ⟨htune, -⟩ := hfinal j
  rw [hp₁, Option.map_some] at htune
  refine ⟨_, htune, ?_⟩
  rw [← hflushed.data]
  split_ifs <;> rfl

end Answered

/-! ## The file -/

section File

variable {corruptEvery : ℕ} {block : ℕ → List UInt8}

theorem kept_answerAll (cmds : List (List UInt8)) : ∀ {store : PageStore} {polls : ℕ}, FakeEcu.Kept store →
    FakeEcu.Kept (answerAll (respond corruptEvery block) (store, polls) cmds).2.1 := by
  induction cmds with
  | nil => exact fun h => h
  | cons cmd cmds ih => exact fun h => ih (h.change (dispatch_store _ _ _))

theorem kept_listen (reads : List (List UInt8)) : ∀ {d : Device}, FakeEcu.Kept d.store →
    FakeEcu.Kept (FakeEcu.listen corruptEvery block d reads).2.store := by
  induction reads with
  | nil => exact fun h => h
  | cons data reads ih =>
    intro d h
    rw [FakeEcu.listen, serve_eq]
    exact ih (kept_answerAll _ h)

theorem kept_exchange (link : Link) (s : Session × Device) (payload ok : List UInt8) (h : FakeEcu.Kept s.2.store) :
    FakeEcu.Kept (Session.exchange link.responder s payload ok).2.2.store := kept_listen _ h

theorem kept_sendCommand (link : Link) (cmd : Except ProtoError (List UInt8)) (ok : List UInt8)
    (s : Session × Device) (h : FakeEcu.Kept s.2.store) :
    FakeEcu.Kept (CommandSet.sendCommand link.responder cmd ok s).2.2.store := by
  cases cmd with
  | error e => exact h
  | ok payload => exact kept_exchange link s payload ok h

/-- **The file has what is burned**, whatever the thread asks. -/
theorem kept_run (link : Link) (edits : ℕ → List Edit) {α : Type} (p : CommsProgram F α) {x : Wired F}
    (h : FakeEcu.Kept x.device.store) : FakeEcu.Kept (p.run (Wired.handle link edits) x).2.device.store := by
  refine p.run_invariant (I := fun x : Wired F => FakeEcu.Kept x.device.store) (fun q x h => ?_) h
  cases q with
  | read pageIdx offset count =>
    change FakeEcu.Kept (Wired.readChunk link pageIdx offset count (x.session, x.device)).2.2.store
    rw [Wired.readChunk]
    cases speeduino.page pageIdx with
    | error e => exact h
    | ok page =>
      dsimp only
      rw [CommandSet.readChunk]
      cases page.read.build (speeduino.readArgs page offset count) with
      | error e => exact h
      | ok cmd => exact kept_exchange link _ cmd _ h
  | write pageIdx offset values => exact kept_sendCommand link _ _ (x.session, x.device) h
  | crc pageIdx => exact kept_sendCommand link _ _ (x.session, x.device) h
  | burn pageIdx => exact kept_sendCommand link _ _ (x.session, x.device) h
  | lock => exact h
  | modify f => exact h
  | setError text => exact h

end File

/-! ## Download and burn -/

/-- The memory of a simulator is what `World` has of its pages. -/
theorem ecuPages_inj {store store' : PageStore} (h : ecuPages store' = ecuPages store) :
    store'.working = store.working ∧ store'.burned = store.burned := by
  have hpage : ∀ n : PageNum, (⟨store'.working.page n, store'.burned.page n⟩ : EcuPage) =
      ⟨store.working.page n, store.burned.page n⟩ := fun n =>
    Option.some.inj (by rw [← ecuPages_get, ← ecuPages_get, h])
  constructor
  · ext n : 2
    exact congrArg EcuPage.ram (hpage n)
  · ext n : 2
    exact congrArg EcuPage.eeprom (hpage n)

theorem Stands.fits {x : Wired F} {w : World F} (h : Stands x w) : Fits speeduino.commands w := by
  have hsizes : (List.finRange PAGE_SIZES.length).map PageNum.size = PAGE_SIZES := by decide
  rw [Fits, h.ecu, ecuPages, List.map_map, commands_sizes]
  exact (List.map_congr_left fun n _ => x.device.store.working.size n).trans hsizes

theorem addressable_commands : speeduino.commands.Addressable := by
  intro size hsize
  rw [commands_sizes] at hsize
  have hall : ∀ size ∈ PAGE_SIZES, size ≤ 2 ^ 16 := by decide
  exact hall size hsize

theorem Fates.allAnswered {link : Link} (hclean : link.corruptEvery = 0) (f : Fates link)
    (edits : ℕ → List Edit) : (f.env edits).AllAnswered := fun k n =>
  (f.cases k n).resolve_right fun h => h.1 hclean

section Clean

variable {link : Link} (hlink : link.Prompt) (hclean : link.corruptEvery = 0) {edits : ℕ → List Edit}
  (hquiet : ∀ n, edits n = []) {x : Wired F} (hx : x.AtRest)

include hlink hclean hquiet hx

/-- **A download over a clean line succeeds**, and every copy of every page is the simulator's. -/
theorem download_on_line : ∃ y, (CommsProgram.downloadTune speeduino.commands).run (Wired.handle link edits) x =
      (.ok (), y) ∧ y.AtRest ∧ y.device.store.working = x.device.store.working ∧
      y.device.store.burned = x.device.store.burned ∧
      ∀ n : PageNum, y.tune.page n.val = some ⟨x.device.store.working.page n, x.device.store.working.page n,
        x.device.store.working.page n⟩ := by
  obtain ⟨f, hresult, hstands⟩ := run_on_line hlink edits CommsProgram.safe_downloadTune hx.stands
  have hall := Fates.allAnswered hclean f edits
  have hq : (f.env edits).Quiet := hquiet
  have hfits := hx.stands.fits
  rw [CommsProgram.run_downloadTune rfl] at hresult hstands
  have hok : (downloadTune (f.env edits) speeduino.commands UInt32.toNat x.world).1 = .ok () :=
    downloadTune_answered hall hq addressable_commands hfits
  obtain ⟨hecu, hcount, hpages⟩ := downloadPages_ok hq addressable_commands _ x.world _ hfits
    (Prod.ext hok rfl : downloadTune (f.env edits) speeduino.commands UInt32.toNat x.world = (.ok (), _))
  obtain ⟨hworking, hburned⟩ := ecuPages_inj (hstands.ecu.symm.trans hecu)
  refine ⟨_, Prod.ext (hresult.symm.trans hok) rfl, hstands.atRest, hworking, hburned, fun n => ?_⟩
  have hmem : n.val ∈ List.range speeduino.commands.pageCount := by
    rw [List.mem_range, PageCommands.pageCount, commands_sizes]
    exact n.isLt
  have hram : x.world.ram n.val = x.device.store.working.page n := by
    rw [World.ram, Wired.world, ecuPages_get]
    rfl
  obtain ⟨p, hp⟩ := hx.fitting.exists_page n
  rw [← hstands.tune, hpages, if_pos hmem, show x.world.tune.page n.val = some p from hp, Option.map_some, hram]

/-- **A burn over a clean line** leaves the local data of a tune with true shadows in the simulator's
working pages and in its burned ones. -/
theorem burn_on_line (hloaded : x.tune.loaded = true)
    (hshadows : ∀ (n : PageNum) p, x.tune.page n.val = some p →
      p.ecu = x.device.store.working.page n ∧ p.burned = x.device.store.burned.page n) :
    ∃ burned y, (CommsProgram.doBurn (some speeduino.commands)).run (Wired.handle link edits) x =
        (.ok burned, y) ∧ y.AtRest ∧
      ∀ (n : PageNum) p, x.tune.page n.val = some p →
        y.device.store.working.page n = p.data ∧ y.device.store.burned.page n = p.data := by
  obtain ⟨f, hresult, hstands⟩ := run_on_line hlink edits CommsProgram.safe_doBurn hx.stands
  have hall := Fates.allAnswered hclean f edits
  have hq : (f.env edits).Quiet := hquiet
  have hsized : ShadowsTrue x.world := by
    refine ⟨⟨?_, fun j p e hp he => ?_⟩, fun j p e hp he => ?_⟩
    · rw [Wired.world, length_ecuPages, hx.fitting.count]
    all_goals
      have hj : j < PAGE_SIZES.length := by
        rw [← hx.fitting.count]
        exact (List.getElem?_eq_some_iff.mp hp).1
      have he' := ecuPages_get x.device.store ⟨j, hj⟩
      rw [show x.world.ecu = ecuPages x.device.store from rfl, he'] at he
      obtain rfl := Option.some.inj he
    · rw [x.device.store.working.size]
      exact hx.fitting.size ⟨j, hj⟩ p hp
    · exact hshadows ⟨j, hj⟩ p hp
  rw [CommsProgram.run_doBurn rfl] at hresult hstands
  obtain ⟨burned, hok⟩ : ∃ burned, (doBurn (f.env edits) (some speeduino.commands) x.world).1 = .ok burned :=
    doBurn_answered hall hloaded
  have hcomplete := complete_of_answered hq hsized hx.stands.fits addressable_commands
    (fun n => hall .write n) hok
  refine ⟨burned, _, Prod.ext (hresult.symm.trans hok) rfl, hstands.atRest, fun n p hp => ?_⟩
  obtain ⟨p', hp', hdata⟩ := doBurn_data hq hsized.sized hok (show x.world.tune.page n.val = some p from hp)
  have he := ecuPages_get
    ((CommsProgram.doBurn (some speeduino.commands)).run (Wired.handle link edits) x).2.device.store n
  rw [← hstands.ecu] at he
  obtain ⟨hram, heeprom⟩ := hcomplete n.val p' _ hp' he
  exact ⟨hram.symm.trans hdata, heeprom.symm.trans (hram.symm.trans hdata)⟩

end Clean

/-! ## Editing, burning and restarting -/

/-- **What is burned is there after a restart.** A simulator has started from its file; a client downloads its
tune, edits it and burns it. The simulator starts again from its file, and whoever downloads the tune then
has the edited one. -/
theorem edit_burn_restart {link : Link} (hlink : link.Prompt) (hclean : link.corruptEvery = 0)
    {edits : ℕ → List Edit} (hquiet : ∀ n, edits n = []) {x : Wired F} (hx : x.AtRest)
    (hkept : FakeEcu.Kept x.device.store) (hstart : x.device.store.working = x.device.store.burned)
    (changes : List Edit) :
    ∃ y burned z store, (CommsProgram.downloadTune speeduino.commands).run (Wired.handle link edits) x =
        (.ok (), y) ∧
      (CommsProgram.doBurn (some speeduino.commands)).run (Wired.handle link edits)
        { y with tune := changes.foldl Edit.apply (y.tune.setLoaded true) } = (.ok burned, z) ∧
      PageStore.new z.device.store.storagePath z.device.store.file = some store ∧
      ∀ x' : Wired F, x'.AtRest → x'.device.store = store →
        ∃ y', (CommsProgram.downloadTune speeduino.commands).run (Wired.handle link edits) x' = (.ok (), y') ∧
          ∀ n : PageNum, (y'.tune.page n.val).map (·.data) =
            ((changes.foldl Edit.apply (y.tune.setLoaded true)).page n.val).map (·.data) := by
  obtain ⟨y, hdownload, hy, hworking, hburned, hpages⟩ := download_on_line hlink hclean hquiet hx
  set edited := changes.foldl Edit.apply (y.tune.setLoaded true) with hedited
  have hchanges : Edited (y.tune.setLoaded true) edited := by
    refine List.foldlRecOn changes (motive := Edited (y.tune.setLoaded true)) Edit.apply (Edited.refl _)
      fun t ht e _ => ht.trans (edited_apply t e)
  have hfitting : Fitting (y.tune.setLoaded true) := ⟨hy.fitting.count, hy.fitting.size⟩
  have hrest : ({ y with tune := edited } : Wired F).AtRest :=
    ⟨hy.ready, hy.idle, hfitting.edited hchanges⟩
  have hy' : FakeEcu.Kept y.device.store := by
    have hrun := kept_run link edits (CommsProgram.downloadTune speeduino.commands) hkept
    rwa [hdownload] at hrun
  obtain ⟨burned, z, hburn, hz, hdata⟩ := burn_on_line hlink hclean hquiet hrest
    (hchanges.loaded.trans rfl) (fun n p hp => by
      obtain ⟨q, hq, hecu, hbq, -⟩ := hchanges.page n.val p hp
      have heq : q = _ := Option.some.inj (hq.symm.trans (hpages n))
      rw [hecu, hbq, heq, hworking, hburned, hstart]
      exact ⟨rfl, rfl⟩)
  have hz' : FakeEcu.Kept z.device.store := by
    have hrun := kept_run link edits (CommsProgram.doBurn (some speeduino.commands))
      (show FakeEcu.Kept ({ y with tune := edited } : Wired F).device.store from hy')
    rwa [hburn] at hrun
  refine ⟨y, burned, z, z.device.store.powerCycle, hdownload, hburn, hz'.new.1, fun x' hx' hstore => ?_⟩
  obtain ⟨y', hdownload', -, -, -, hpages'⟩ := download_on_line hlink hclean hquiet hx'
  refine ⟨y', hdownload', fun n => ?_⟩
  obtain ⟨p, hp⟩ := hrest.fitting.exists_page n
  rw [hpages', hp, Option.map_some, Option.map_some, hstore]
  exact congrArg some (hdata n p hp).2

theorem edit_burn_restart_fresh :
    ∃ y burned z store, (CommsProgram.downloadTune speeduino.commands).run
        (Wired.handle (Link.direct 0 fun _ => []) fun _ => []) Wired.start = (.ok (), y) ∧
      (CommsProgram.doBurn (some speeduino.commands)).run (Wired.handle (Link.direct 0 fun _ => []) fun _ => [])
        { y with tune := [⟨0, List.replicate 128 7⟩].foldl Edit.apply (y.tune.setLoaded true) } = (.ok burned, z) ∧
      PageStore.new z.device.store.storagePath z.device.store.file = some store ∧
      ∀ x' : Wired ℕ, x'.AtRest → x'.device.store = store →
        ∃ y', (CommsProgram.downloadTune speeduino.commands).run
            (Wired.handle (Link.direct 0 fun _ => []) fun _ => []) x' = (.ok (), y') ∧
          ∀ n : PageNum, (y'.tune.page n.val).map (·.data) =
            (([⟨0, List.replicate 128 7⟩].foldl Edit.apply (y.tune.setLoaded true)).page n.val).map (·.data) :=
  edit_burn_restart (Link.prompt_direct 0 _) rfl (fun _ => rfl) Wired.atRest_start kept_blank rfl _

end RustyTune.Server
