import Mathlib.Data.List.Sort
import RustyTune.Lib.Checked
import RustyTune.Server.Recording

/-!
# Retention of logs

After a log is finished, the oldest ones are deleted until the rest is within the limit.

* `retainLogs`: the pass with the arithmetic of the program, as the deletions that it attempts.
* `PrunesEnough`: it never takes the active log, goes by modification time, attempts no deletion
  within the limit and stops there or at the end.
* **`retainLogs_prunesEnough_iff`**: so it is exactly when the sizes do not overflow, or every deletion
  is attempted all the same. **`total_overflows`**: they may.
-/

namespace RustyTune.Server

open Exec

/-! ## The pass -/

/-- An entry of the log directory; the metadata where the file system gives them. -/
structure DirEntry where
  /-- The bare name: entries of one directory differ in nothing else of their paths. -/
  path : String
  metadata : Option (ℕ × UInt64)
  deriving DecidableEq, Repr

/-- A log that may be deleted. -/
structure OldLog where
  modified : ℕ
  size : UInt64
  path : String
  deriving DecidableEq, Repr

/-- An attempt to delete a log, and whether it succeeded. -/
structure Attempted where
  log : OldLog
  deleted : Bool
  deriving DecidableEq, Repr

/-- The logs of the directory but for the active one. -/
def oldLogs (entries : List DirEntry) (active : Option String) : List OldLog :=
  entries.filterMap fun e =>
    if Recorder.hasMslExtension e.path && some e.path != active then
      e.metadata.map fun (modified, len) => ⟨modified, len, e.path⟩
    else none

/-- `iter().sum()` of `u64`. -/
def sumU64 (m : Machine) (sizes : List UInt64) : Exec UInt64 :=
  sizes.foldlM (fun total size => m.checked (total.toNat + size.toNat < 2 ^ 64) (total + size)) 0

/-- The deletions from the first log on; the total goes down by what is deleted, to zero at least. -/
def attempts (removes : String → Bool) (limit : UInt64) : ℕ → List OldLog → List Attempted
  | _, [] => []
  | total, log :: logs =>
    if total ≤ limit.toNat then []
    else if removes log.path then
      ⟨log, true⟩ :: attempts removes limit (total - log.size.toNat) logs
    else ⟨log, false⟩ :: attempts removes limit total logs

/-- The oldest first. -/
def byAge (logs : List OldLog) : List OldLog := logs.mergeSort fun a b => a.modified ≤ b.modified

/-- `prune_logs`: the deletions that are attempted. -/
def retainLogs (m : Machine) (entries : List DirEntry) (active : Option String)
    (removes : String → Bool) (limit : UInt64) : Exec (List Attempted) :=
  if limit = 0 then return []
  else do
    let logs := byAge (oldLogs entries active)
    let total ← sumU64 m (logs.map (·.size))
    return attempts removes limit total.toNat logs

/-! ## What it is for -/

def totalSize (logs : List OldLog) : ℕ := (logs.map (·.size.toNat)).sum

def deleted (as : List Attempted) : List OldLog := (as.filter (·.deleted)).map (·.log)

/-- The size of the logs that are left after the attempts. -/
def remaining (logs : List OldLog) (as : List Attempted) : ℕ := totalSize logs - totalSize (deleted as)

/-- **Just enough is deleted, the oldest first.** -/
structure PrunesEnough (logs : List OldLog) (active : Option String) (limit : UInt64)
    (as : List Attempted) : Prop where
  candidates : (as.map (·.log)).Subperm logs
  notActive : ∀ a ∈ as, some a.log.path ≠ active
  oldestFirst : as.Pairwise fun a b => a.log.modified ≤ b.log.modified
  needed : ∀ before a after, as = before ++ a :: after → limit.toNat < remaining logs before
  enough : (as.map (·.log)).Perm logs ∨ remaining logs as ≤ limit.toNat

/-! ## Sums -/

section Sum

variable {m : Machine} {sizes : List UInt64}

theorem sumU64_foldlM (total : UInt64) :
    (∃ t, sizes.foldlM (fun total size =>
      m.checked (total.toNat + size.toNat < 2 ^ 64) (total + size)) total = .ok t ∧
        t.toNat = (total.toNat + (sizes.map (·.toNat)).sum) % 2 ^ 64 ∧
        (m.build = .release ∨ total.toNat + (sizes.map (·.toNat)).sum < 2 ^ 64)) ∨
      (m.build = .debug ∧ 2 ^ 64 ≤ total.toNat + (sizes.map (·.toNat)).sum ∧
        sizes.foldlM (fun total size =>
          m.checked (total.toNat + size.toNat < 2 ^ 64) (total + size)) total = .error .overflow) := by
  induction sizes generalizing total with
  | nil =>
    refine .inl ⟨total, rfl, ?_, .inr total.toNat_lt⟩
    rw [List.map_nil, List.sum_nil, Nat.add_zero, Nat.mod_eq_of_lt total.toNat_lt]
  | cons size sizes ih =>
    rw [List.foldlM_cons, List.map_cons, List.sum_cons]
    by_cases hlt : total.toNat + size.toNat < 2 ^ 64
    · have hadd : (total + size).toNat = total.toNat + size.toNat := by
        rw [UInt64.toNat_add, Nat.mod_eq_of_lt hlt]
      rw [decide_eq_true hlt, m.checked_true, ok_bind, ← Nat.add_assoc, ← hadd]
      exact ih (total + size)
    · rw [decide_eq_false hlt]
      cases hm : m.build with
      | debug =>
        refine .inr ⟨rfl, by omega, ?_⟩
        rw [Machine.checked, if_pos ⟨hm, rfl⟩]
        rfl
      | release =>
        rw [m.checked_release hm, ok_bind]
        rcases ih (total + size) with ⟨t, ht, hval, -⟩ | ⟨hdebug, -⟩
        · refine .inl ⟨t, ht, hval.trans ?_, .inl rfl⟩
          rw [UInt64.toNat_add, Nat.mod_add_mod, Nat.add_assoc]
        · cases hm.symm.trans hdebug

/-- **The total is the sum modulo 2^64**, or a debug build aborts. -/
theorem sumU64_spec (m : Machine) (sizes : List UInt64) :
    (∃ t, sumU64 m sizes = .ok t ∧ t.toNat = (sizes.map (·.toNat)).sum % 2 ^ 64 ∧
        (m.build = .release ∨ (sizes.map (·.toNat)).sum < 2 ^ 64)) ∨
      (m.build = .debug ∧ 2 ^ 64 ≤ (sizes.map (·.toNat)).sum ∧ sumU64 m sizes = .error .overflow) := by
  simpa only [sumU64, UInt64.toNat_zero, Nat.zero_add] using sumU64_foldlM (m := m) 0

end Sum

/-! ## Attempts -/

section Attempts

variable {removes : String → Bool} {limit : UInt64} {total : ℕ} {logs : List OldLog}

/-- The logs that can be deleted. -/
def removable (removes : String → Bool) (logs : List OldLog) : List OldLog :=
  logs.filter fun log => removes log.path

theorem removable_cons_of_pos {log : OldLog} (h : removes log.path = true) :
    removable removes (log :: logs) = log :: removable removes logs := List.filter_cons_of_pos h

theorem removable_cons_of_neg {log : OldLog} (h : ¬ removes log.path = true) :
    removable removes (log :: logs) = removable removes logs := List.filter_cons_of_neg h

@[simp] theorem deleted_cons_true (log : OldLog) (as : List Attempted) :
    deleted (⟨log, true⟩ :: as) = log :: deleted as := rfl

@[simp] theorem deleted_cons_false (log : OldLog) (as : List Attempted) :
    deleted (⟨log, false⟩ :: as) = deleted as := rfl

@[simp] theorem totalSize_nil : totalSize [] = 0 := rfl

@[simp] theorem totalSize_cons (log : OldLog) (logs : List OldLog) :
    totalSize (log :: logs) = log.size.toNat + totalSize logs := by
  rw [totalSize, List.map_cons, List.sum_cons]
  rfl

theorem attempts_prefix : ∀ {logs : List OldLog} {total : ℕ},
    (attempts removes limit total logs).map (·.log) <+: logs
  | [], total => List.nil_prefix
  | log :: logs, total => by
    rw [attempts]
    split_ifs
    · exact List.nil_prefix
    · exact List.cons_prefix_cons.mpr ⟨rfl, attempts_prefix⟩
    · exact List.cons_prefix_cons.mpr ⟨rfl, attempts_prefix⟩

/-- Before each attempt the total, less what was deleted, is above the limit. -/
theorem attempts_needed : ∀ {logs : List OldLog} {total : ℕ} {before : List Attempted} {a : Attempted}
    {after : List Attempted}, attempts removes limit total logs = before ++ a :: after →
    limit.toNat < total - totalSize (deleted before)
  | [], total, before, a, after, h => by simp [attempts] at h
  | log :: logs, total, before, a, after, h => by
    rw [attempts] at h
    split_ifs at h with hle hremoves
    · simp at h
    · cases before with
      | nil => exact Nat.not_le.mp hle
      | cons first before =>
        obtain ⟨rfl, hrest⟩ := List.cons.inj h
        have ih := attempts_needed hrest
        rwa [deleted_cons_true, totalSize_cons, ← Nat.sub_sub]
    · cases before with
      | nil => exact Nat.not_le.mp hle
      | cons first before =>
        obtain ⟨rfl, hrest⟩ := List.cons.inj h
        have ih : limit.toNat < total - totalSize (deleted before) := attempts_needed hrest
        exact ih

/-- The attempts stop at the end, or when the total is within the limit. -/
theorem attempts_enough (removes : String → Bool) (limit : UInt64) : ∀ (logs : List OldLog) (total : ℕ),
    (attempts removes limit total logs).map (·.log) = logs ∨
      total - totalSize (deleted (attempts removes limit total logs)) ≤ limit.toNat
  | [], total => .inl rfl
  | log :: logs, total => by
    rw [attempts]
    split_ifs with hle
    · exact .inr hle
    · rcases attempts_enough removes limit logs (total - log.size.toNat) with heq | hle'
      · exact .inl (congrArg (log :: ·) heq)
      · right
        rwa [deleted_cons_true, totalSize_cons, ← Nat.sub_sub]
    · rcases attempts_enough removes limit logs total with heq | hle'
      · exact .inl (congrArg (log :: ·) heq)
      · exact .inr hle'

/-- **Every deletion is attempted exactly when those before the last leave more than the limit.** -/
theorem attempts_all_iff : ∀ {logs : List OldLog} {total : ℕ},
    (attempts removes limit total logs).map (·.log) = logs ↔
      logs = [] ∨ limit.toNat + totalSize (removable removes logs.dropLast) < total
  | [], total => iff_of_true rfl (.inl rfl)
  | [log], total => by
    rw [attempts]
    split_ifs with hle <;> simp [attempts, removable] <;> omega
  | log :: log' :: logs, total => by
    have ih (total : ℕ) : (attempts removes limit total (log' :: logs)).map (·.log) = log' :: logs ↔
        limit.toNat + totalSize (removable removes (log' :: logs).dropLast) < total :=
      attempts_all_iff.trans (or_iff_right (List.cons_ne_nil _ _))
    rw [or_iff_right (List.cons_ne_nil _ _), attempts, List.dropLast_cons_cons]
    split_ifs with hle hremoves
    · refine iff_of_false (fun h => nomatch h) ?_
      omega
    · rw [List.map_cons, List.cons_inj_right, ih, removable_cons_of_pos hremoves, totalSize_cons]
      omega
    · rw [List.map_cons, List.cons_inj_right, ih, removable_cons_of_neg hremoves]

/-- Where the total is too small by 2^64 or more, more than the limit is left in the end. -/
theorem lt_remaining_of_wrapped : ∀ {logs : List OldLog} {total sum : ℕ}, total + 2 ^ 64 ≤ sum →
    limit.toNat < sum - totalSize (deleted (attempts removes limit total logs))
  | [], total, sum, h => by
    have := limit.toNat_lt
    change limit.toNat < sum - 0
    omega
  | log :: logs, total, sum, h => by
    have hlimit := limit.toNat_lt
    have hsize := log.size.toNat_lt
    rw [attempts]
    split_ifs with hle
    · change limit.toNat < sum - 0
      omega
    · rw [deleted_cons_true, totalSize_cons, ← Nat.sub_sub]
      by_cases hlt : log.size.toNat ≤ total
      · exact lt_remaining_of_wrapped (by omega)
      · -- the total is down to zero, so this is the last deletion
        have hnone : attempts removes limit (total - log.size.toNat) logs = [] := by
          cases logs with
          | nil => rfl
          | cons next logs => rw [attempts, if_pos (by omega)]
        rw [hnone]
        change limit.toNat < sum - log.size.toNat - 0
        omega
    · exact lt_remaining_of_wrapped h

end Attempts

/-! ## Enough -/

section Pass

variable {m : Machine} {entries : List DirEntry} {active : Option String} {removes : String → Bool}
  {limit : UInt64}

theorem byAge_perm (logs : List OldLog) : (byAge logs).Perm logs := List.mergeSort_perm ..

theorem totalSize_perm {logs logs' : List OldLog} (h : logs.Perm logs') :
    totalSize logs = totalSize logs' := (h.map _).sum_nat

theorem byAge_pairwise (logs : List OldLog) : (byAge logs).Pairwise fun a b => a.modified ≤ b.modified := by
  have h : (byAge logs).Pairwise fun a b => decide (a.modified ≤ b.modified) = true :=
    List.pairwise_mergeSort
      (fun a b c hab hbc => decide_eq_true ((of_decide_eq_true hab).trans (of_decide_eq_true hbc)))
      (fun a b => by simpa using Nat.le_total a.modified b.modified) logs
  exact h.imp of_decide_eq_true

theorem path_ne_active {log : OldLog} (h : log ∈ oldLogs entries active) : some log.path ≠ active := by
  obtain ⟨e, -, he⟩ := List.mem_filterMap.mp h
  split_ifs at he with hcond
  obtain ⟨data, -, rfl⟩ := Option.map_eq_some_iff.mp he
  simp only [Bool.and_eq_true, bne_iff_ne, ne_eq] at hcond
  exact hcond.2

/-- What holds of the attempts whatever the total is that they start from. -/
theorem attempts_ordered (entries : List DirEntry) (active : Option String) (removes : String → Bool)
    (limit : UInt64) (total : ℕ) :
    let as := attempts removes limit total (byAge (oldLogs entries active))
    (as.map (·.log)).Subperm (oldLogs entries active) ∧ (∀ a ∈ as, some a.log.path ≠ active) ∧
      as.Pairwise fun a b => a.log.modified ≤ b.log.modified := by
  intro as
  have hpre : as.map (·.log) <+: byAge (oldLogs entries active) := attempts_prefix
  refine ⟨hpre.sublist.subperm.trans (byAge_perm _).subperm, fun a ha => ?_, ?_⟩
  · exact path_ne_active (List.mem_mergeSort.mp (hpre.subset (List.mem_map_of_mem ha)))
  · exact (List.pairwise_map (f := Attempted.log)).mp ((byAge_pairwise _).sublist hpre.sublist)

/-- **The pass deletes just enough exactly when the sizes do not overflow, or every deletion is attempted
all the same.** -/
theorem retainLogs_prunesEnough_iff (m : Machine) (entries : List DirEntry) (active : Option String)
    (removes : String → Bool) {limit : UInt64} (hlimit : limit ≠ 0) :
    (∃ as, retainLogs m entries active removes limit = .ok as ∧
      PrunesEnough (oldLogs entries active) active limit as) ↔
    totalSize (oldLogs entries active) < 2 ^ 64 ∨
      m.build = .release ∧
        limit.toNat + totalSize (removable removes (byAge (oldLogs entries active)).dropLast) <
          totalSize (oldLogs entries active) % 2 ^ 64 := by
  generalize hlogs : byAge (oldLogs entries active) = logs
  have hsum : ((logs.map (·.size)).map (·.toNat)).sum = totalSize (oldLogs entries active) := by
    rw [← totalSize_perm (byAge_perm _), hlogs, totalSize, List.map_map]
    rfl
  have hordered := attempts_ordered entries active removes limit
  rw [hlogs] at hordered
  have hrun : retainLogs m entries active removes limit = (do
      return attempts removes limit (← sumU64 m (logs.map (·.size))).toNat logs) := by
    rw [retainLogs, if_neg hlimit, hlogs]
  have hsame {as : List Attempted} (h : as.map (·.log) <+: logs)
      (hperm : (as.map (·.log)).Perm (oldLogs entries active)) : as.map (·.log) = logs := by
    refine h.eq_of_length ?_
    rw [hperm.length_eq, ← hlogs, (byAge_perm _).length_eq]
  have hspec := sumU64_spec m (logs.map (·.size))
  rw [hsum] at hspec
  rcases hspec with ⟨t, ht, hval, hfits⟩ | ⟨hdebug, hbig, herr⟩
  · rw [hrun, ht]
    obtain ⟨hsub, hactive, hold⟩ := hordered t.toNat
    have hgood (henough : ((attempts removes limit t.toNat logs).map (·.log)).Perm
          (oldLogs entries active) ∨ remaining (oldLogs entries active)
            (attempts removes limit t.toNat logs) ≤ limit.toNat) :
        PrunesEnough (oldLogs entries active) active limit (attempts removes limit t.toNat logs) := by
      refine ⟨hsub, hactive, hold, fun before a after heq => ?_, henough⟩
      have hneeded := attempts_needed heq
      have hle : t.toNat ≤ totalSize (oldLogs entries active) := hval ▸ Nat.mod_le ..
      rw [remaining]
      omega
    constructor
    · rintro ⟨as, has, hprunes⟩
      obtain rfl : attempts removes limit t.toNat logs = as := Except.ok.inj has
      by_cases hlt : totalSize (oldLogs entries active) < 2 ^ 64
      · exact .inl hlt
      · right
        refine ⟨hfits.resolve_right hlt, ?_⟩
        rcases hprunes.enough with hperm | hwithin
        · rw [← hval]
          refine (attempts_all_iff.mp (hsame attempts_prefix hperm)).resolve_left ?_
          rintro rfl
          rw [← totalSize_perm (byAge_perm _), hlogs] at hlt
          exact hlt (by decide)
        · -- the true total is more by 2^64 at least
          have hwrapped : limit.toNat < totalSize (oldLogs entries active) -
              totalSize (deleted (attempts removes limit t.toNat logs)) :=
            lt_remaining_of_wrapped (by omega)
          rw [remaining] at hwithin
          omega
    · rintro (hlt | ⟨-, hall⟩)
      · refine ⟨_, rfl, hgood ?_⟩
        rw [Nat.mod_eq_of_lt hlt] at hval
        rcases attempts_enough removes limit logs t.toNat with hall | hwithin
        · left
          rw [hall, ← hlogs]
          exact byAge_perm _
        · right
          rwa [remaining, ← hval]
      · refine ⟨_, rfl, hgood (.inl ?_)⟩
        rw [← hval] at hall
        rw [attempts_all_iff.mpr (.inr hall), ← hlogs]
        exact byAge_perm _
  · rw [hrun, herr]
    refine iff_of_false ?_ ?_
    · rintro ⟨as, has, -⟩
      exact nomatch has
    · rintro (hlt | ⟨hrelease, -⟩)
      · omega
      · exact nomatch hdebug.symm.trans hrelease

theorem hasMslExtension_iff {name : String} :
    Recorder.hasMslExtension name = true ↔ ".msl".toList <:+ name.toList ∧ name ≠ ".msl" := by
  rw [Recorder.hasMslExtension, Bool.and_eq_true, bne_iff_ne, String.endsWith, String.Slice.endsWith_string_iff,
    String.copy_toSlice]

end Pass

/-! ## Two directories -/

/-- An entry of a log. -/
def DirEntry.ofLog (log : OldLog) : DirEntry := ⟨log.path, some (log.modified, log.size)⟩

theorem oldLogs_ofLog {logs : List OldLog}
    (h : ∀ log ∈ logs, ".msl".toList <:+ log.path.toList ∧ log.path ≠ ".msl") :
    oldLogs (logs.map DirEntry.ofLog) none = logs := by
  rw [oldLogs, List.filterMap_map]
  refine (List.filterMap_congr fun log hlog => ?_).trans List.filterMap_some
  rw [Function.comp_apply, DirEntry.ofLog, hasMslExtension_iff.mpr (h log hlog)]
  rfl

def recentLogs : List OldLog := [⟨2, 30, "b.msl"⟩, ⟨1, 20, "a.msl"⟩]

theorem retainLogs_prunesEnough_iff_recent :
    ∃ as, retainLogs ⟨.debug, 8⟩ (recentLogs.map DirEntry.ofLog) none (fun _ => true) 40 = .ok as ∧
      PrunesEnough (oldLogs (recentLogs.map DirEntry.ofLog) none) none 40 as :=
  (retainLogs_prunesEnough_iff ⟨.debug, 8⟩ _ none (fun _ => true) (by decide)).mpr (.inl (by
    rw [oldLogs_ofLog (by decide)]
    decide))

def sparseLogs : List OldLog :=
  ["a.msl", "b.msl", "c.msl"].map fun path => ⟨0, 0x7fffffffffffffff, path⟩

/-- **Sizes with a sum of 2^64 or more end a debug build.** -/
theorem total_overflows :
    ¬ ∀ (m : Machine) (entries : List DirEntry) (active : Option String) (removes : String → Bool)
      (limit : UInt64), limit ≠ 0 → ∃ as, retainLogs m entries active removes limit = .ok as ∧
        PrunesEnough (oldLogs entries active) active limit as := by
  intro h
  obtain ⟨as, has, -⟩ := h ⟨.debug, 8⟩ (sparseLogs.map DirEntry.ofLog) none (fun _ => true) 1 (by decide)
  have hsorted : byAge sparseLogs = sparseLogs := List.mergeSort_of_pairwise (by decide)
  have hsum : sumU64 ⟨.debug, 8⟩ (sparseLogs.map (·.size)) = .error .overflow := by decide +kernel
  have herr : retainLogs ⟨.debug, 8⟩ (sparseLogs.map DirEntry.ofLog) none (fun _ => true) 1 =
      .error .overflow := by
    rw [retainLogs, oldLogs_ofLog (by decide), hsorted, if_neg (by decide)]
    show (sumU64 _ (sparseLogs.map (·.size)) >>= _) = _
    rw [hsum, error_bind]
  exact nomatch herr.symm.trans has

end RustyTune.Server
