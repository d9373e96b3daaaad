import Mathlib.Data.List.Induction
import Mathlib.Data.List.Nodup
import Mathlib.Tactic.Common

/-!
# Maps that remember the order of insertion

* `IndexMap κ ν`: entries in order, no key twice.
* **`get?_eq_some`**: a key's value is the one it stands with in the entries.
* `insert`: replaces the value of a key in place, and puts a new key last; `get?_insert`.
* **`mem_entries_ofList`**: the entries of pairs that are inserted one after the other.
-/

namespace RustyTune

/-- A map whose entries are in the order of insertion. -/
structure IndexMap (κ ν : Type) where
  entries : List (κ × ν)
  nodup : (entries.map Prod.fst).Nodup
  deriving DecidableEq, Repr

namespace IndexMap

variable {κ ν : Type}

def empty : IndexMap κ ν := ⟨[], List.nodup_nil⟩

instance : EmptyCollection (IndexMap κ ν) := ⟨empty⟩

instance : Inhabited (IndexMap κ ν) := ⟨empty⟩

theorem ext {m m' : IndexMap κ ν} (h : m.entries = m'.entries) : m = m' := by
  cases m; cases m'; cases h; rfl

def keys (m : IndexMap κ ν) : List κ := m.entries.map Prod.fst

variable [DecidableEq κ]

def get? (m : IndexMap κ ν) (k : κ) : Option ν := m.entries.lookup k

def containsKey (m : IndexMap κ ν) (k : κ) : Bool := (m.get? k).isSome

/-- The entries with `v` put at key `k`. -/
def insertEntries (k : κ) (v : ν) : List (κ × ν) → List (κ × ν)
  | [] => [(k, v)]
  | e :: es => if e.1 = k then (k, v) :: es else e :: insertEntries k v es

theorem fst_insertEntries (k : κ) (v : ν) (es : List (κ × ν)) :
    (insertEntries k v es).map Prod.fst =
      if k ∈ es.map Prod.fst then es.map Prod.fst else es.map Prod.fst ++ [k] := by
  induction es with
  | nil => simp [insertEntries]
  | cons e es ih =>
    simp only [insertEntries]
    by_cases he : e.1 = k
    · simp [he]
    · simp only [he, if_false, List.map_cons, ih, List.mem_cons, show ¬ k = e.1 from fun h => he h.symm,
        false_or]
      split_ifs <;> simp

theorem insertEntries_ne_nil (k : κ) (v : ν) (es : List (κ × ν)) : insertEntries k v es ≠ [] := by
  cases es with
  | nil => exact nofun
  | cons e es =>
    rw [insertEntries]
    split_ifs <;> exact nofun

def insert (m : IndexMap κ ν) (k : κ) (v : ν) : IndexMap κ ν where
  entries := insertEntries k v m.entries
  nodup := by
    rw [fst_insertEntries]
    split_ifs with h
    · exact m.nodup
    · exact List.nodup_append.mpr ⟨m.nodup, List.nodup_singleton k, by
        rintro a ha b hb rfl
        exact h (List.mem_singleton.mp hb ▸ ha)⟩

/-- The map with the given pairs inserted in order. -/
def ofList (l : List (κ × ν)) : IndexMap κ ν := l.foldl (fun m e => m.insert e.1 e.2) empty

/-! ## Look-up -/

theorem lookup_cons_ite (k k' : κ) (v : ν) (es : List (κ × ν)) :
    ((k', v) :: es).lookup k = if k = k' then some v else es.lookup k := by
  rw [List.lookup_cons]
  by_cases h : k = k'
  · simp [h]
  · simp [h, beq_false_of_ne h]

theorem lookup_eq_some {es : List (κ × ν)} (hnd : (es.map Prod.fst).Nodup) {k : κ} {v : ν} :
    es.lookup k = some v ↔ (k, v) ∈ es := by
  induction es with
  | nil => simp
  | cons e es ih =>
    obtain ⟨k', v'⟩ := e
    rw [List.map_cons, List.nodup_cons] at hnd
    simp only [lookup_cons_ite, List.mem_cons, Prod.mk.injEq]
    by_cases hk : k = k'
    · subst hk
      have hno : (k, v) ∉ es := fun h => hnd.1 (List.mem_map.mpr ⟨_, h, rfl⟩)
      simp [hno, eq_comm]
    · simp [hk, ih hnd.2]

/-- **A key's value is the one it stands with.** -/
theorem get?_eq_some {m : IndexMap κ ν} {k : κ} {v : ν} :
    m.get? k = some v ↔ (k, v) ∈ m.entries := lookup_eq_some m.nodup

theorem get?_eq_none {m : IndexMap κ ν} {k : κ} : m.get? k = none ↔ k ∉ m.keys := by
  rw [Option.eq_none_iff_forall_ne_some, keys]
  constructor
  · intro h hk
    obtain ⟨⟨k', v⟩, he, rfl⟩ := List.mem_map.mp hk
    exact h v (get?_eq_some.mpr he)
  · intro h v hv
    exact h (List.mem_map.mpr ⟨_, get?_eq_some.mp hv, rfl⟩)

theorem lookup_insertEntries (k k' : κ) (v : ν) (es : List (κ × ν)) :
    (insertEntries k v es).lookup k' = if k' = k then some v else es.lookup k' := by
  induction es with
  | nil => rw [insertEntries, lookup_cons_ite]
  | cons e es ih =>
    obtain ⟨k'', v''⟩ := e
    simp only [insertEntries]
    by_cases he : k'' = k
    · subst he
      rw [if_pos rfl, lookup_cons_ite, lookup_cons_ite]
      split_ifs <;> rfl
    · rw [if_neg he, lookup_cons_ite, lookup_cons_ite, ih]
      split_ifs with h1 h2 <;> first | rfl | exact absurd (h1.symm.trans h2) he

theorem get?_insert (m : IndexMap κ ν) (k k' : κ) (v : ν) :
    (m.insert k v).get? k' = if k' = k then some v else m.get? k' :=
  lookup_insertEntries k k' v m.entries

theorem ofList_concat (l : List (κ × ν)) (k : κ) (v : ν) :
    ofList (l ++ [(k, v)]) = (ofList l).insert k v := by
  rw [ofList, List.foldl_append]
  rfl

theorem get?_ofList (l : List (κ × ν)) (k : κ) :
    (∀ v, (ofList l).get? k = some v → (k, v) ∈ l) ∧
      (∀ v, (k, v) ∈ l → ∃ v', (ofList l).get? k = some v') := by
  induction l using List.reverseRecOn with
  | nil => simp [ofList, empty, get?]
  | append_singleton l e ih =>
    obtain ⟨k', v'⟩ := e
    rw [ofList_concat]
    simp only [get?_insert, List.mem_append, List.mem_singleton, Prod.mk.injEq]
    by_cases hk : k = k'
    · subst hk
      simp
    · simpa [hk] using ih

/-- **Pairs that do not contradict each other are the entries.** -/
theorem mem_entries_ofList {l : List (κ × ν)}
    (h : ∀ k v v', (k, v) ∈ l → (k, v') ∈ l → v = v') {k : κ} {v : ν} :
    (k, v) ∈ (ofList l).entries ↔ (k, v) ∈ l := by
  rw [← get?_eq_some]
  refine ⟨(get?_ofList l k).1 v, fun hmem => ?_⟩
  obtain ⟨v', hv'⟩ := (get?_ofList l k).2 v hmem
  rw [hv', h k v' v ((get?_ofList l k).1 v' hv') hmem]

end IndexMap

end RustyTune
