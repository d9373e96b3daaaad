import Mathlib.Data.List.Induction
import RustyTune.Server.Config

/-!
# Shutdown after the engine stops

With the monitor enabled, a stop of the engine is to be followed by a request to power off, once per
session, after a delay.

* `Monitor.observe`: one reading of the engine speed, in the order of the program; `after`: a sequence
  of them.
* `StopRun`: the longest run of readings at the end that are finite and at most `stop_rpm`, when it
  starts, and that the engine ran before. **`after_spec`**: what the monitor remembers is just that.
* **`observe_eq_true_iff`**: the request is made exactly when it is the first one and the run started
  long enough ago. **`infinite_does_not_arm`**: a reading that is not finite does not count as running.
-/

namespace RustyTune.Server

variable {F : Type} [F64 F]

/-! ## The monitor -/

/-- `EngineShutdownMonitor`; the configuration is apart. Times are in nanoseconds. -/
structure Monitor where
  armed : Bool := false
  stoppedSince : Option ℕ := none
  requested : Bool := false
  deriving DecidableEq, Repr

/-- A reading, if there is one, and when it is made. -/
abbrev Reading (F : Type) : Type := Option F × ℕ

namespace Monitor

variable (c : EngineShutdownConfig F)

/-- `delay_seconds`. -/
def delay : ℕ := c.delaySeconds.toNat * 10 ^ 9

/-- Whether the power off is to be requested, and the monitor afterwards. -/
def observe (s : Monitor) (rpm : Option F) (now : ℕ) : Bool × Monitor :=
  if !c.enabled || s.requested then (false, s)
  else
    match rpm.filter F64.isFinite with
    | none => (false, { s with stoppedSince := none })
    | some rpm =>
      if F64.le c.armRpm rpm then (false, { s with armed := true, stoppedSince := none })
      else if !s.armed || F64.lt c.stopRpm rpm then (false, { s with stoppedSince := none })
      else
        let since := s.stoppedSince.getD now
        -- a time before `since` counts as no time at all
        if delay c ≤ now - since then (true, { s with stoppedSince := some since, requested := true })
        else (false, { s with stoppedSince := some since })

/-- The monitor after a sequence of readings. -/
def after (readings : List (Reading F)) : Monitor :=
  readings.foldl (fun s r => (observe c s r.1 r.2).2) {}

theorem after_snoc (readings : List (Reading F)) (r : Reading F) :
    after c (readings ++ [r]) = (observe c (after c readings) r.1 r.2).2 := by
  rw [after, List.foldl_append]
  rfl

/-- The request is made at the last of the readings. -/
def Requests (readings : List (Reading F)) (r : Reading F) : Prop :=
  (observe c (after c readings) r.1 r.2).1 = true

/-! ## Runs of readings -/

/-- The engine runs: the reading is finite and at least `arm_rpm`. -/
def Arms (r : Reading F) : Prop := ∃ x, r.1 = some x ∧ F64.isFinite x = true ∧ F64.le c.armRpm x = true

/-- The engine stands: the reading is finite and at most `stop_rpm`. -/
def Stopped (r : Reading F) : Prop :=
  ∃ x, r.1 = some x ∧ F64.isFinite x = true ∧ F64.le x c.stopRpm = true

/-- The longest run of stops at the end of the readings started at `since`, after the engine ran. -/
def StopRun (readings : List (Reading F)) (since : ℕ) : Prop :=
  ∃ past first run, readings = past ++ first :: run ∧ (∀ r ∈ first :: run, Stopped c r) ∧
    (∀ r, past.getLast? = some r → ¬ Stopped c r) ∧ (∃ r ∈ past, Arms c r) ∧ first.2 = since

variable {c} {readings : List (Reading F)} {r : Reading F} {since : ℕ}

theorem stopRun_snoc_of_not_stopped (h : ¬ Stopped c r) : ¬ StopRun c (readings ++ [r]) since := by
  rintro ⟨past, first, run, heq, hall, -⟩
  refine h (hall r ?_)
  have hlast := congrArg List.getLast? heq
  rw [List.getLast?_append_cons, List.getLast?_append_cons] at hlast
  exact List.mem_of_getLast? hlast.symm

/-- A stop prolongs the run of those before, or starts one. -/
theorem stopRun_snoc (h : Stopped c r) : StopRun c (readings ++ [r]) since ↔
    StopRun c readings since ∨ ((∀ r', readings.getLast? = some r' → ¬ Stopped c r') ∧
      (∃ r' ∈ readings, Arms c r') ∧ r.2 = since) := by
  constructor
  · rintro ⟨past, first, run, heq, hall, hpast, harmed, hsince⟩
    rcases List.eq_nil_or_concat' run with rfl | ⟨run, last, rfl⟩
    · obtain ⟨rfl, hr⟩ := List.append_inj' heq rfl
      obtain rfl := List.singleton_inj.mp hr
      exact .inr ⟨hpast, harmed, hsince⟩
    · rw [← List.cons_append, ← List.append_assoc] at heq
      obtain ⟨rfl, -⟩ := List.append_inj' heq rfl
      exact .inl ⟨past, first, run, rfl, fun r' hr' => hall r' (List.mem_append_left _ hr'), hpast,
        harmed, hsince⟩
  · rintro (⟨past, first, run, rfl, hall, hpast, harmed, hsince⟩ | ⟨hlast, harmed, hsince⟩)
    · refine ⟨past, first, run ++ [r], by simp, fun r' hr' => ?_, hpast, harmed, hsince⟩
      rw [← List.cons_append, List.mem_append, List.mem_singleton] at hr'
      rcases hr' with hr' | rfl
      · exact hall r' hr'
      · exact h
    · exact ⟨readings, r, [], rfl, List.forall_mem_singleton.mpr h, hlast, harmed, hsince⟩

/-! ## One reading -/

variable (c) in
/-- What the check of the configuration leaves. -/
structure Valid : Prop where
  stop : F64.isFinite c.stopRpm = true
  arm : F64.isFinite c.armRpm = true
  apart : F64.le c.armRpm c.stopRpm = false
  delay : 1 ≤ c.delaySeconds.toNat

theorem valid_of_validate {A : Type} {config : RuntimeConfig F A} (h : config.validate = .ok ()) :
    Valid config.engineShutdown := by
  rw [RuntimeConfig.validate] at h
  split_ifs at h with hpin hstop harm hdelay
  simp only [Bool.or_eq_true, not_or, Bool.not_eq_true', Bool.not_eq_false, Bool.not_eq_true] at hstop harm
  rw [Bool.not_eq_true', Bool.not_eq_false, Bool.and_eq_true, decide_eq_true_iff] at hdelay
  exact ⟨hstop.1, harm.1, harm.2, UInt64.le_iff_toNat_le.mp hdelay.1⟩

variable {s : Monitor}

section Observe

variable (he : c.enabled = true) (hs : s.requested = false)
include he hs

theorem observe_of_arms (h : Arms c r) :
    observe c s r.1 r.2 = (false, { s with armed := true, stoppedSince := none }) := by
  obtain ⟨x, hx, hfin, hle⟩ := h
  rw [observe, he, hs, hx, Option.filter_some, hfin]
  simp [hle]

variable [OrderedF64 F] (hc : Valid c)
include hc

omit he hs in
theorem not_arms_of_stopped (h : Stopped c r) : ¬ Arms c r := by
  obtain ⟨x, hx, -, hle⟩ := h
  rintro ⟨y, hy, -, hle'⟩
  obtain rfl := Option.some.inj (hx.symm.trans hy)
  have hapart := hc.apart
  rw [OrderedF64.le_trans _ _ _ hle' hle] at hapart
  exact nomatch hapart

theorem observe_of_stopped (h : Stopped c r) : observe c s r.1 r.2 =
    if s.armed = true then
      if delay c ≤ r.2 - s.stoppedSince.getD r.2 then
        (true, { s with stoppedSince := some (s.stoppedSince.getD r.2), requested := true })
      else (false, { s with stoppedSince := some (s.stoppedSince.getD r.2) })
    else (false, { s with stoppedSince := none }) := by
  have harms := not_arms_of_stopped hc h
  obtain ⟨x, hx, hfin, hle⟩ := h
  have hno : F64.le c.armRpm x = false := by
    by_contra hle'
    exact harms ⟨x, hx, hfin, by rwa [Bool.not_eq_false] at hle'⟩
  have hlt : F64.lt c.stopRpm x = false := by
    by_contra hlt
    rw [Bool.not_eq_false, OrderedF64.lt_iff _ _ hc.stop hfin, hle] at hlt
    exact nomatch hlt
  rw [observe, he, hs, hx, Option.filter_some, hfin]
  simp only [Bool.not_true, Bool.or_self, Bool.false_eq_true, if_false, if_true, hno, hlt, Bool.or_false,
    Bool.not_eq_true']
  by_cases harmed : s.armed = true
  · rw [if_pos harmed, if_neg (by rw [harmed]; exact Bool.false_ne_true ∘ Eq.symm)]
  · rw [if_neg harmed, if_pos (Bool.not_eq_true _ ▸ harmed)]

theorem observe_of_neither (h : ¬ Stopped c r) (h' : ¬ Arms c r) :
    observe c s r.1 r.2 = (false, { s with stoppedSince := none }) := by
  rw [observe, he, hs]
  simp only [Bool.not_true, Bool.or_self, Bool.false_eq_true, if_false]
  cases hx : r.1 with
  | none => rfl
  | some x =>
    rw [Option.filter_some]
    cases hfin : F64.isFinite x with
    | false => rfl
    | true =>
      have hno : F64.le c.armRpm x = false := by
        by_contra hle
        exact h' ⟨x, hx, hfin, by rwa [Bool.not_eq_false] at hle⟩
      have hlt : F64.lt c.stopRpm x = true := by
        rw [OrderedF64.lt_iff _ _ hc.stop hfin]
        by_contra hle
        exact h ⟨x, hx, hfin, by rwa [Bool.not_eq_false] at hle⟩
      simp [hno, hlt]

end Observe

/-! ## Sequences of readings -/

theorem observe_requested (h : s.requested = true) : observe c s r.1 r.2 = (false, s) := by
  rw [observe, if_pos]
  rw [h, Bool.or_true]

/-- Once the request is made, it stays made; and it is made in no other way. -/
theorem requested_observe : (observe c s r.1 r.2).2.requested = true ↔
    s.requested = true ∨ (observe c s r.1 r.2).1 = true := by
  by_cases hs : s.requested = true
  · rw [observe_requested hs]
    simp [hs]
  · rw [Bool.not_eq_true] at hs
    unfold observe
    split
    · simp [hs]
    · split
      · simp [hs]
      · dsimp only
        split_ifs <;> simp [hs]

theorem requested_after : (after c readings).requested = true ↔
    ∃ before r later, readings = before ++ r :: later ∧ Requests c before r := by
  induction readings using List.reverseRecOn with
  | nil => simp [after]
  | append_singleton readings last ih =>
    rw [after_snoc, requested_observe, ih]
    constructor
    · rintro (⟨before, r, later, rfl, hr⟩ | hlast)
      · exact ⟨before, r, later ++ [last], by simp, hr⟩
      · exact ⟨readings, last, [], rfl, hlast⟩
    · rintro ⟨before, r, later, heq, hr⟩
      rcases List.eq_nil_or_concat' later with rfl | ⟨later, last', rfl⟩
      · obtain ⟨rfl, hlast⟩ := List.append_inj' heq rfl
        obtain rfl := List.singleton_inj.mp hlast
        exact .inr hr
      · rw [← List.cons_append, ← List.append_assoc] at heq
        obtain ⟨rfl, -⟩ := List.append_inj' heq rfl
        exact .inl ⟨before, r, later, rfl, hr⟩

variable (c) in
/-- What a monitor that has made no request remembers of the readings. -/
structure Remembers (s : Monitor) (readings : List (Reading F)) : Prop where
  armed : s.armed = true ↔ ∃ r ∈ readings, Arms c r
  since : ∀ t, s.stoppedSince = some t ↔ StopRun c readings t
  stopped : s.armed = true → ∀ r, readings.getLast? = some r → Stopped c r → s.stoppedSince ≠ none

section Runs

variable [OrderedF64 F] (he : c.enabled = true) (hc : Valid c)
include he hc

/-- **What is remembered after one more reading.** -/
theorem Remembers.observe (h : Remembers c s readings) (hs : s.requested = false) :
    Remembers c (observe c s r.1 r.2).2 (readings ++ [r]) := by
  have hmem : (∃ r' ∈ readings ++ [r], Arms c r') ↔ (∃ r' ∈ readings, Arms c r') ∨ Arms c r := by
    simp [or_and_right, exists_or]
  have hlast (r') : (readings ++ [r]).getLast? = some r' ↔ r = r' := by
    rw [List.getLast?_concat, Option.some.injEq]
  by_cases harms : Arms c r
  · have hno : ¬ Stopped c r := fun hst => not_arms_of_stopped hc hst harms
    rw [observe_of_arms he hs harms]
    refine ⟨?_, fun t => ?_, fun _ r' hr' hst => ?_⟩
    · exact iff_of_true rfl (hmem.mpr (.inr harms))
    · exact iff_of_false (fun h => nomatch h) (stopRun_snoc_of_not_stopped hno)
    · rw [← (hlast r').mp hr'] at hst
      exact absurd hst hno
  · have hmem' : (∃ r' ∈ readings ++ [r], Arms c r') ↔ ∃ r' ∈ readings, Arms c r' :=
      hmem.trans (or_iff_left harms)
    by_cases hst : Stopped c r
    · rw [observe_of_stopped he hs hc hst]
      by_cases harmed : s.armed = true
      · -- the run goes on, or starts here
        have hsince : ∀ t, some (s.stoppedSince.getD r.2) = some t ↔ StopRun c (readings ++ [r]) t := by
          intro t
          rw [stopRun_snoc hst, ← h.since]
          cases hold : s.stoppedSince with
          | none =>
            have hrest : (∀ r', readings.getLast? = some r' → ¬ Stopped c r') ∧
                ∃ r' ∈ readings, Arms c r' :=
              ⟨fun r' hr' hst' => h.stopped harmed r' hr' hst' hold, h.armed.mp harmed⟩
            rw [Option.getD_none, Option.some.injEq]
            exact ⟨fun heq => .inr ⟨hrest.1, hrest.2, heq⟩, fun hor => hor.elim nofun fun h => h.2.2⟩
          | some t₀ =>
            obtain ⟨past, first, run, heq, hall, -⟩ := (h.since t₀).mp hold
            have hstopped : ∀ r', readings.getLast? = some r' → Stopped c r' := fun r' hr' => by
              rw [heq, List.getLast?_append_cons] at hr'
              exact hall r' (List.mem_of_getLast? hr')
            have hno : ¬ ∀ r', readings.getLast? = some r' → ¬ Stopped c r' := by
              obtain ⟨r', hr'⟩ := Option.isSome_iff_exists.mp
                (List.getLast?_isSome.mpr (by rw [heq]; simp) : readings.getLast?.isSome)
              exact fun hno => hno r' hr' (hstopped r' hr')
            rw [Option.getD_some]
            exact (or_iff_left fun hrest => hno hrest.1).symm
        rw [if_pos harmed]
        split_ifs
        · exact ⟨h.armed.trans hmem'.symm, hsince, fun _ _ _ _ hnone => nomatch hnone⟩
        · exact ⟨h.armed.trans hmem'.symm, hsince, fun _ _ _ _ hnone => nomatch hnone⟩
      · rw [if_neg harmed]
        have hnone : ¬ ∃ r' ∈ readings, Arms c r' := fun hex => harmed (h.armed.mpr hex)
        refine ⟨h.armed.trans hmem'.symm, fun t => iff_of_false (fun h => nomatch h) ?_,
          fun h => absurd h harmed⟩
        rw [stopRun_snoc hst]
        rintro (⟨past, first, run, rfl, -, -, ⟨r', hr', harm⟩, -⟩ | ⟨-, hex, -⟩)
        · exact hnone ⟨r', List.mem_append_left _ hr', harm⟩
        · exact hnone hex
    · rw [observe_of_neither he hs hc hst harms]
      refine ⟨h.armed.trans hmem'.symm, fun t => ?_, fun _ r' hr' hst' => ?_⟩
      · exact iff_of_false (fun h => nomatch h) (stopRun_snoc_of_not_stopped hst)
      · rw [← (hlast r').mp hr'] at hst'
        exact absurd hst' hst

/-- **What the monitor remembers of any sequence of readings.** -/
theorem after_spec (readings : List (Reading F)) (h : (after c readings).requested = false) :
    Remembers c (after c readings) readings := by
  induction readings using List.reverseRecOn with
  | nil =>
    refine ⟨by simp [after], fun t => iff_of_false (fun h => nomatch h) ?_, fun h => nomatch h⟩
    rintro ⟨past, first, run, heq, -⟩
    simp at heq
  | append_singleton readings r ih =>
    rw [after_snoc] at h ⊢
    have hs : (after c readings).requested = false := by
      by_contra hreq
      rw [Bool.not_eq_false] at hreq
      rw [requested_observe.mpr (.inl hreq)] at h
      exact nomatch h
    exact (ih hs).observe he hc hs

end Runs

/-- **The request is made at a reading exactly when none was made before, and the run of stops up to it
started at least the delay ago, after the engine ran.** A monitor that is not enabled makes none. -/
theorem observe_eq_true_iff {A : Type} [OrderedF64 F] {config : RuntimeConfig F A}
    (hvalid : config.validate = .ok ()) (before : List (Reading F)) (r : Reading F) :
    (config.engineShutdown.enabled = true →
      (Requests config.engineShutdown before r ↔
        (∀ earlier r' later, before = earlier ++ r' :: later →
          ¬ Requests config.engineShutdown earlier r') ∧
        ∃ since, StopRun config.engineShutdown (before ++ [r]) since ∧
          since + delay config.engineShutdown ≤ r.2)) ∧
    (config.engineShutdown.enabled = false → ¬ Requests config.engineShutdown before r) := by
  have hc := valid_of_validate hvalid
  generalize config.engineShutdown = c at *
  constructor
  · intro he
    have hnone : (∀ earlier r' later, before = earlier ++ r' :: later → ¬ Requests c earlier r') ↔
        (after c before).requested = false := by
      rw [← Bool.not_eq_true, requested_after]
      constructor
      · rintro h ⟨earlier, r', later, heq, hr⟩
        exact h earlier r' later heq hr
      · exact fun h earlier r' later heq hr => h ⟨earlier, r', later, heq, hr⟩
    rw [hnone]
    by_cases hs : (after c before).requested = false
    · have hspec := after_spec he hc before hs
      have hnext := hspec.observe he hc hs (r := r)
      by_cases hst : Stopped c r
      · rw [Requests, observe_of_stopped he hs hc hst]
        rw [observe_of_stopped he hs hc hst] at hnext
        by_cases harmed : (after c before).armed = true
        · rw [if_pos harmed] at hnext ⊢
          -- the run up to the reading started at the time that is remembered
          have hrun : ∀ t, StopRun c (before ++ [r]) t ↔ (after c before).stoppedSince.getD r.2 = t := by
            intro t
            rw [← hnext.since]
            split_ifs <;> exact Option.some_inj
          have hpos : 0 < delay c := Nat.mul_pos hc.delay (by norm_num)
          simp only [hrun, exists_eq_left', hs, true_and]
          split_ifs with hdelay
          · exact iff_of_true rfl (by omega)
          · exact iff_of_false (fun h => nomatch h) (by omega)
        · rw [if_neg harmed] at hnext ⊢
          refine iff_of_false (fun h => nomatch h) ?_
          rintro ⟨-, t, hrun, -⟩
          exact nomatch (hnext.since t).mpr hrun
      · refine iff_of_false (fun hreq => ?_) ?_
        · by_cases harms : Arms c r
          · rw [Requests, observe_of_arms he hs harms] at hreq
            exact nomatch hreq
          · rw [Requests, observe_of_neither he hs hc hst harms] at hreq
            exact nomatch hreq
        · rintro ⟨-, t, hrun, -⟩
          exact stopRun_snoc_of_not_stopped hst hrun
    · refine iff_of_false (fun hreq => ?_) fun h => hs h.1
      rw [Bool.not_eq_false] at hs
      rw [Requests, observe_requested hs] at hreq
      exact nomatch hreq
  · intro he
    rw [Requests, observe, he]
    simp

/-! ## A session -/

/-- The monitor enabled, with the thresholds of the defaults and a delay of 15 s. -/
def watched : RuntimeConfig XRat SampleAddr :=
  let c : RuntimeConfig XRat SampleAddr := .desktop
  { c with
    engineShutdown := { enabled := true, armRpm := .fin 500, stopRpm := .fin 50, delaySeconds := 15 } }

theorem watched_valid : watched.validate = .ok () := by decide +kernel

theorem observe_eq_true_iff_watched :
    (watched.engineShutdown.enabled = true →
      (Requests watched.engineShutdown [(some (.fin 800), 0), (some (.fin 0), 10 ^ 9)]
          (some (.fin 0), 16 * 10 ^ 9) ↔
        (∀ earlier r' later,
          [(some (.fin 800), 0), (some (.fin 0), 10 ^ 9)] = earlier ++ r' :: later →
          ¬ Requests watched.engineShutdown earlier r') ∧
        ∃ since, StopRun watched.engineShutdown
            ([(some (.fin 800), 0), (some (.fin 0), 10 ^ 9)] ++ [(some (.fin 0), 16 * 10 ^ 9)]) since ∧
          since + delay watched.engineShutdown ≤ 16 * 10 ^ 9)) ∧
    (watched.engineShutdown.enabled = false →
      ¬ Requests watched.engineShutdown [(some (.fin 800), 0), (some (.fin 0), 10 ^ 9)]
        (some (.fin 0), 16 * 10 ^ 9)) :=
  observe_eq_true_iff watched_valid _ _

/-- **A reading that is not finite does not arm the monitor**, though it is more than `arm_rpm`. -/
theorem infinite_does_not_arm : ¬ ∀ (config : RuntimeConfig XRat SampleAddr)
    (before : List (Reading XRat)) (r : Reading XRat), config.validate = .ok () →
    config.engineShutdown.enabled = true →
    (Requests config.engineShutdown before r ↔
      (∀ earlier r' later, before = earlier ++ r' :: later →
        ¬ Requests config.engineShutdown earlier r') ∧
      ∃ past first run, before ++ [r] = past ++ first :: run ∧
        (∀ r ∈ first :: run, Stopped config.engineShutdown r) ∧
        (∀ r, past.getLast? = some r → ¬ Stopped config.engineShutdown r) ∧
        (∃ r ∈ past, ∃ x, r.1 = some x ∧ F64.le config.engineShutdown.armRpm x = true) ∧
        first.2 + delay config.engineShutdown ≤ r.2) := by
  intro h
  let before : List (Reading XRat) := [(some (.inf false), 0), (some (.fin 0), 10 ^ 9)]
  have hiff := h watched before (some (.fin 0), 16 * 10 ^ 9) watched_valid rfl
  have hquiet : (after watched.engineShutdown before).requested = false := by decide +kernel
  have hno : ¬ Requests watched.engineShutdown before (some (.fin 0), 16 * 10 ^ 9) := by
    have hobs : (observe watched.engineShutdown (after watched.engineShutdown before) (some (.fin 0))
        (16 * 10 ^ 9)).1 = false := by decide +kernel
    rw [Requests, hobs]
    exact Bool.false_ne_true
  refine hno (hiff.mpr ⟨fun earlier r' later heq hr => ?_, [(some (.inf false), 0)],
    (some (.fin 0), 10 ^ 9), [(some (.fin 0), 16 * 10 ^ 9)], rfl, ?_, ?_, ?_, by decide +kernel⟩)
  · rw [requested_after.mpr ⟨earlier, r', later, heq, hr⟩] at hquiet
    exact nomatch hquiet
  · intro r hr
    have hr : r.1 = some (.fin 0) := by
      simp only [List.mem_cons, List.not_mem_nil, or_false] at hr
      rcases hr with rfl | rfl <;> rfl
    exact ⟨.fin 0, hr, rfl, by decide +kernel⟩
  · intro r hr
    obtain rfl : _ = r := Option.some.inj hr
    rintro ⟨x, hx, hfin, -⟩
    obtain rfl : _ = x := Option.some.inj hx
    exact nomatch hfin
  · exact ⟨_, List.mem_singleton_self _, .inf false, rfl, by decide +kernel⟩

end Monitor

end RustyTune.Server
