import Mathlib.Data.List.Induction
import RustyTune.FakeEcu.Dispatch

/-!
# The simulator's calibration

A table comes in parts; the simulator takes it over when it is whole.

* `Gather`: the table in use, and what came of the next one. `Gathers`: the store has these.
* `receive_next`: a part in its place. **`cycle_gathers`**: a run of commands and losses of power gathers
  the parts.
* `InOrder`: parts that follow one another from zero.
* **`calibration_whole`**: after any run the table is the one from before, or a whole one that came in
  parts in order.
-/

namespace RustyTune.FakeEcu

open EcuProto

/-! ## What comes in -/

/-- The table in use, and what came of the next one since its part at zero. -/
structure Gather where
  table : List UInt8
  got : List UInt8

namespace Gather

/-- A part that starts anew or follows what came; the table that is whole is in use. -/
def add (g : Gather) (offset : ℕ) (data : List UInt8) : Gather :=
  let got := g.got.take offset ++ data
  ⟨if got.length = 1024 then got else g.table, got⟩

/-- A part as it comes; one that is not in its place is refused. -/
def part (g : Gather) (offset : ℕ) (data : List UInt8) : Gather :=
  if 1024 < offset + data.length ∨ data.length % 32 ≠ 0 ∨ offset ≠ 0 ∧ offset ≠ g.got.length then g
  else g.add offset data

end Gather

/-- The store has what came. -/
structure Gathers (s : PageStore) (g : Gather) : Prop where
  table : s.calibration = g.table
  calibration : s.calibration.length = 1024
  pending : s.calibrationPending.length = 1024
  offset : s.calibrationOffset = g.got.length
  got : s.calibrationPending.take s.calibrationOffset = g.got

theorem take_overwrite {l : List UInt8} {offset : ℕ} {data : List UInt8} (h : offset + data.length ≤ l.length) :
    (overwrite l offset data).take (offset + data.length) = l.take offset ++ data := by
  have hlen : (l.take offset).length = offset := by
    rw [List.length_take]
    omega
  have hfront : (l.take offset ++ data).length = offset + data.length := by rw [List.length_append, hlen]
  rw [overwrite, ← hfront]
  exact List.take_left

namespace Gathers

variable {s : PageStore} {g : Gather}

theorem congr {s' : PageStore} (h : Gathers s g) (hcal : s'.calibration = s.calibration)
    (hpending : s'.calibrationPending = s.calibrationPending)
    (hoffset : s'.calibrationOffset = s.calibrationOffset) : Gathers s' g := by
  obtain ⟨h1, h2, h3, h4, h5⟩ := h
  constructor
  · rw [hcal, h1]
  · rw [hcal, h2]
  · rw [hpending, h3]
  · rw [hoffset, h4]
  · rw [hpending, hoffset, h5]

theorem persist (h : Gathers s g) : Gathers s.persist g := by
  unfold PageStore.persist
  split_ifs
  · exact h.congr rfl rfl rfl
  · exact h

/-- **A part in its place.** -/
theorem receive_next (h : Gathers s g) {offset : ℕ} {data : List UInt8} (hle : offset + data.length ≤ 1024)
    (hmod : data.length % 32 = 0) (hplace : offset = 0 ∨ offset = g.got.length) :
    ∃ s', s.receive offset data.length data = some s' ∧ Gathers s' (g.add offset data) ∧
      s'.working = s.working ∧ s'.burned = s.burned := by
  have hexpected : s.expected offset = offset := by
    unfold PageStore.expected
    split_ifs with hzero
    · exact hzero.symm
    · rw [h.offset, ← hplace.resolve_left hzero]
  have hgot : s.calibrationPending.take offset = g.got.take offset := by
    rcases hplace with rfl | rfl
    · rw [List.take_zero, List.take_zero]
    · rw [List.take_length, ← h.offset, h.got]
  have hfits : offset + data.length ≤ s.calibrationPending.length := by rw [h.pending]; exact hle
  have hnext : (overwrite s.calibrationPending offset data).length = 1024 := by
    rw [length_overwrite hfits, h.pending]
  have htake := take_overwrite hfits
  rw [hgot] at htake
  have hadded : (g.got.take offset ++ data).length = offset + data.length := by
    rw [← htake, List.length_take, hnext]
    omega
  set s₁ : PageStore := { s with
    calibrationPending := overwrite s.calibrationPending offset data
    calibrationOffset := s.expected offset + data.length } with hs₁
  have hreceive : s.receive offset data.length data = some s₁.complete := by
    rw [PageStore.receive, if_neg (by omega), if_neg (not_not.mpr hexpected.symm)]
  have hoffset : s₁.calibrationOffset = offset + data.length := by rw [hs₁, hexpected]
  refine ⟨s₁.complete, hreceive, ?_⟩
  rw [PageStore.complete, Gather.add, hadded]
  by_cases hwhole : offset + data.length = 1024
  · have htable : s₁.calibrationPending = g.got.take offset ++ data := by
      rw [← htake, hwhole, ← hnext, List.take_length]
    have hgathers : Gathers { s₁ with calibration := s₁.calibrationPending }
        ⟨g.got.take offset ++ data, g.got.take offset ++ data⟩ := by
      constructor
      · exact htable
      · exact hnext
      · exact hnext
      · dsimp only
        rw [hoffset, hadded]
      · dsimp only
        rw [hoffset]
        exact htake
    rw [if_pos (hoffset.trans hwhole), if_pos hwhole]
    refine ⟨hgathers.persist, ?_, ?_⟩ <;> unfold PageStore.persist <;> split_ifs <;> rfl
  · rw [if_neg (by rwa [hoffset]), if_neg hwhole]
    refine ⟨⟨h.table, h.calibration, hnext, ?_, ?_⟩, rfl, rfl⟩
    · dsimp only
      rw [hoffset, hadded]
    · rw [hoffset]
      exact htake

theorem receive (h : Gathers s g) (offset : ℕ) (data : List UInt8) :
    Gathers ((s.receive offset data.length data).getD s) (g.part offset data) := by
  unfold Gather.part
  split_ifs with hrefused
  · have hnone : s.receive offset data.length data = none := by
      unfold PageStore.receive
      split_ifs with hpart hplace
      · rfl
      · rfl
      · rcases hrefused with hlen | hmod | ⟨hpos, hne⟩
        · omega
        · omega
        · rw [PageStore.expected, if_neg hpos, h.offset] at hplace
          exact absurd (not_not.mp hplace) hne
    rw [hnone]
    exact h
  · obtain ⟨hle, hmod, hplace⟩ : offset + data.length ≤ 1024 ∧ data.length % 32 = 0 ∧
        (offset = 0 ∨ offset = g.got.length) := by omega
    obtain ⟨s', hs', hgathers, -⟩ := h.receive_next hle hmod hplace
    rw [hs']
    exact hgathers

end Gathers

/-! ## Runs -/

/-- The part of a calibration that a command brings. -/
def tablePart (payload : List UInt8) : Option (ℕ × List UInt8) :=
  if command (byteAt payload 0) = some .table ∧ byteAt payload 2 = 2 ∧ be16 payload 5 = (payload.drop 7).length then
    some (be16 payload 3, payload.drop 7)
  else none

def Event.part : Event → Option (ℕ × List UInt8)
  | .command payload _ => tablePart payload
  | .restart => none

/-- What a command or a loss of power does to what came. -/
def Gather.event (g : Gather) : Event → Gather
  | .command payload _ =>
    match tablePart payload with
    | none => g
    | some p => g.part p.1 p.2
  | .restart => ⟨g.table, []⟩

theorem Gathers.dispatch {s : PageStore} {g : Gather} (h : Gathers s g) (payload block : List UInt8) :
    Gathers (dispatch payload s block).2 (g.event (.command payload block)) := by
  by_cases hpart : command (byteAt payload 0) = some .table ∧ byteAt payload 2 = 2 ∧
      be16 payload 5 = (payload.drop 7).length
  · obtain ⟨hcommand, hid, hcount⟩ := hpart
    have hstore : (FakeEcu.dispatch payload s block).2 =
        (s.receive (be16 payload 3) (payload.drop 7).length (payload.drop 7)).getD s := by
      rw [FakeEcu.dispatch, hcommand]
      dsimp only
      rw [if_neg (not_not.mpr hid), hcount]
      cases s.receive (be16 payload 3) (payload.drop 7).length (payload.drop 7) <;> rfl
    rw [hstore, Gather.event, tablePart, if_pos ⟨hcommand, hid, hcount⟩]
    exact h.receive (be16 payload 3) (payload.drop 7)
  · rw [Gather.event, tablePart, if_neg hpart]
    have hchange := dispatch_store payload s block
    rw [FakeEcu.dispatch] at hchange ⊢
    cases hcommand : command (byteAt payload 0) with
    | none => exact h
    | some c =>
      cases c with
      | och | tableCrc => dsimp only; split_ifs <;> exact h
      | page c =>
        dsimp only
        cases valid (byteAt payload 2) with
        | none => exact h
        | some n =>
          cases c with
          | read =>
            dsimp only [pageCommand]
            cases s.read n (le16 payload 3) (le16 payload 5) <;> exact h
          | write =>
            dsimp only [pageCommand]
            split_ifs
            · exact h
            · cases hwrite : s.write n (le16 payload 3) (payload.drop 7) with
              | none => exact h
              | some s' =>
                unfold PageStore.write at hwrite
                split_ifs at hwrite
                rw [← Option.some.inj hwrite]
                exact h.congr rfl rfl rfl
          | crc => exact h
          | burn => exact Gathers.persist (h.congr rfl rfl rfl)
      | table =>
        dsimp only
        split_ifs with hid
        · exact h
        · have hnone : s.receive (be16 payload 3) (be16 payload 5) (payload.drop 7) = none :=
            if_pos (.inl fun hcount => hpart ⟨hcommand, not_not.mp hid, hcount⟩)
          rw [hnone]
          exact h
      | realtime | signature | product | test | capabilities => exact h

theorem Gathers.powerCycle {s : PageStore} {g : Gather} (h : Gathers s g) :
    Gathers s.powerCycle (g.event .restart) :=
  ⟨h.table, h.calibration, h.calibration, rfl, rfl⟩

/-- **A run gathers the parts.** -/
theorem cycle_gathers (events : List Event) {s : PageStore} {g : Gather} (h : Gathers s g) :
    Gathers (cycle events s).2 (events.foldl Gather.event g) := by
  induction events generalizing s g with
  | nil => exact h
  | cons e events ih =>
    cases e with
    | command payload block => exact ih (h.dispatch payload block)
    | restart => exact ih h.powerCycle

/-! ## Whole tables -/

/-- Parts that follow one another, the first one at `n`. -/
def InOrder : ℕ → List (ℕ × List UInt8) → Prop
  | _, [] => True
  | n, p :: ps => p.1 = n ∧ InOrder (n + p.2.length) ps

def bytesOf (ps : List (ℕ × List UInt8)) : List UInt8 := (ps.map (·.2)).flatten

theorem bytesOf_concat (ps : List (ℕ × List UInt8)) (p : ℕ × List UInt8) :
    bytesOf (ps ++ [p]) = bytesOf ps ++ p.2 := by
  rw [bytesOf, List.map_append, List.flatten_append]
  exact congrArg (bytesOf ps ++ ·) (List.append_nil p.2)

theorem InOrder.concat {ps : List (ℕ × List UInt8)} {n : ℕ} (h : InOrder n ps) (data : List UInt8) :
    InOrder n (ps ++ [(n + (bytesOf ps).length, data)]) := by
  induction ps generalizing n with
  | nil => exact ⟨rfl, trivial⟩
  | cons p ps ih =>
    refine ⟨h.1, ?_⟩
    have hlen : n + (bytesOf (p :: ps)).length = n + p.2.length + (bytesOf ps).length := by
      rw [bytesOf, List.map_cons, List.flatten_cons, List.length_append, ← Nat.add_assoc]
      rfl
    rw [hlen]
    exact ih h.2

/-- Bytes that parts of a run have brought in order. -/
def Brought (events : List Event) (bytes : List UInt8) : Prop :=
  ∃ ps : List (ℕ × List UInt8), ps.Sublist (events.filterMap Event.part) ∧ InOrder 0 ps ∧ bytesOf ps = bytes

theorem Brought.mono {events : List Event} {bytes : List UInt8} (h : Brought events bytes) (e : Event) :
    Brought (events ++ [e]) bytes := by
  obtain ⟨ps, hsub, horder, hbytes⟩ := h
  rw [Brought, List.filterMap_append]
  exact ⟨ps, hsub.trans (List.sublist_append_left _ _), horder, hbytes⟩

/-- What came has been brought in order, and so has a table that has been taken over. -/
theorem gathered (g : Gather) (hg : g.got = []) (events : List Event) :
    Brought events (events.foldl Gather.event g).got ∧
      ((events.foldl Gather.event g).table = g.table ∨
        Brought events (events.foldl Gather.event g).table ∧
          (events.foldl Gather.event g).table.length = 1024) := by
  induction events using List.reverseRecOn with
  | nil => exact ⟨⟨[], List.Sublist.refl _, trivial, hg.symm⟩, .inl rfl⟩
  | append_singleton events e ih =>
    obtain ⟨⟨ps, hsub, horder, hbytes⟩, htable⟩ := ih
    rw [List.foldl_append, List.foldl_cons, List.foldl_nil]
    set g' := events.foldl Gather.event g with hg'
    have hkeep : Brought (events ++ [e]) g'.got := Brought.mono ⟨ps, hsub, horder, hbytes⟩ e
    have htable' : g'.table = g.table ∨ Brought (events ++ [e]) g'.table ∧ g'.table.length = 1024 :=
      htable.imp_right fun h => ⟨h.1.mono e, h.2⟩
    cases e with
    | restart => exact ⟨⟨[], List.nil_sublist _, trivial, rfl⟩, htable'⟩
    | command payload block =>
      rw [Gather.event]
      cases hpart : tablePart payload with
      | none => exact ⟨hkeep, htable'⟩
      | some p =>
        dsimp only
        unfold Gather.part
        split_ifs with hrefused
        · exact ⟨hkeep, htable'⟩
        · -- the part at zero begins anew; any other follows what came
          have hbrought : Brought (events ++ [.command payload block]) (g'.got.take p.1 ++ p.2) := by
            have hpart' : Event.part (.command payload block) = some p := hpart
            have hevents : (events ++ [Event.command payload block]).filterMap Event.part =
                events.filterMap Event.part ++ [p] := by
              rw [List.filterMap_append, List.filterMap_cons_some hpart', List.filterMap_nil]
            rw [Brought, hevents]
            by_cases hzero : p.1 = 0
            · refine ⟨[p], List.sublist_append_right _ _, ⟨hzero, trivial⟩, ?_⟩
              rw [hzero, List.take_zero, List.nil_append]
              exact List.append_nil p.2
            · have hnext : p.1 = (bytesOf ps).length := by
                rw [hbytes]
                omega
              refine ⟨ps ++ [p], hsub.append (List.Sublist.refl _), ?_, ?_⟩
              · have happend := horder.concat p.2
                rw [Nat.zero_add, ← hnext] at happend
                exact happend
              · rw [bytesOf_concat, hbytes, hnext, hbytes, List.take_length]
          rw [Gather.add]
          dsimp only
          split_ifs with hwhole
          · exact ⟨hbrought, .inr ⟨hbrought, hwhole⟩⟩
          · exact ⟨hbrought, htable'⟩

theorem gathers_start {s : PageStore} (hcal : s.calibration.length = 1024)
    (hpending : s.calibrationPending.length = 1024) (hoffset : s.calibrationOffset = 0) :
    Gathers s ⟨s.calibration, []⟩ := by
  refine ⟨rfl, hcal, hpending, hoffset, ?_⟩
  rw [hoffset]
  rfl

/-- **A calibration is taken over whole or not at all**: after any run of commands and losses of power the
table is the one from before, or 1024 bytes that parts of the run have brought in order from zero. -/
theorem calibration_whole (s : PageStore) (hcal : s.calibration.length = 1024)
    (hpending : s.calibrationPending.length = 1024) (hoffset : s.calibrationOffset = 0) (events : List Event) :
    (cycle events s).2.calibration = s.calibration ∨
      Brought events (cycle events s).2.calibration ∧ (cycle events s).2.calibration.length = 1024 := by
  rw [(cycle_gathers events (gathers_start hcal hpending hoffset)).table]
  exact (gathered ⟨s.calibration, []⟩ rfl events).2

theorem gathers_blank : Gathers PageStore.blank ⟨PageStore.blank.calibration, []⟩ :=
  gathers_start kept_blank.calibration kept_blank.pending rfl

/-- 256 bytes, the `i`th such part of a table. -/
def quarter (i b : UInt8) : Event :=
  .command ([ord 't', 0, 2, i, 0, 1, 0] ++ List.replicate 256 b) []

/-- A whole table, and half of another before the power is lost. -/
def tableAndAHalf : List Event :=
  [quarter 0 1, quarter 1 2, quarter 2 3, quarter 3 4, quarter 0 9, quarter 1 9, .restart]

theorem calibration_whole_tableAndAHalf :
    let table := [1, 2, 3, 4].flatMap fun b : UInt8 => List.replicate 256 b
    (cycle tableAndAHalf PageStore.blank).2.calibration = table ∧ Brought tableAndAHalf table := by
  intro table
  have htable : (cycle tableAndAHalf PageStore.blank).2.calibration = table := by
    rw [(cycle_gathers tableAndAHalf gathers_blank).table]
    decide +kernel
  refine ⟨htable, ?_⟩
  have hwhole := calibration_whole PageStore.blank kept_blank.calibration kept_blank.pending rfl
    tableAndAHalf
  rw [htable] at hwhole
  rcases hwhole with hblank | ⟨hbrought, -⟩
  · exact absurd (congrArg List.head? hblank) (by decide +kernel)
  · exact hbrought

end RustyTune.FakeEcu
