import Mathlib.Data.List.Basic
import Mathlib.Tactic.Common

/-!
# Slices of a list and writes into them

* `slice l off n`: the `n` elements from `off` on, `slice?` when they are all there.
* `overwrite l off bs`: `bs` written over `l` at `off`; **`getElem?_overwrite`** says which element
  stands where afterwards, and every other fact follows from it.
* `chunksAt n off l`: `l`, standing at `off`, cut into pieces of `n`, the last one possibly shorter.
  **`foldl_appendAt_chunksAt`**: appended one after the other they are `l`.
* **`getElem?_foldl_set_of_mem`**: of elements set at distinct places each stands at its own.
-/

namespace RustyTune

variable {α : Type}

/-- The `n` elements of `l` from `off` on. -/
def slice (l : List α) (off n : ℕ) : List α := (l.drop off).take n

/-- The `n` elements from `off` on, if `l` reaches that far. -/
def slice? (l : List α) (off n : ℕ) : Option (List α) :=
  if off + n ≤ l.length then some (slice l off n) else none

/-- `bs` written over `l` from `off` on. -/
def overwrite (l : List α) (off : ℕ) (bs : List α) : List α :=
  l.take off ++ bs ++ l.drop (off + bs.length)

/-! ## Slices -/

theorem slice_length {l : List α} {off n : ℕ} (h : off + n ≤ l.length) :
    (slice l off n).length = n := by
  simp only [slice, List.length_take, List.length_drop]
  omega

theorem getElem?_slice (l : List α) (off n i : ℕ) :
    (slice l off n)[i]? = if i < n then l[off + i]? else none := by
  simp only [slice, List.getElem?_take, List.getElem?_drop]

theorem slice?_eq_some {l bs : List α} {off n : ℕ} :
    slice? l off n = some bs ↔ off + n ≤ l.length ∧ slice l off n = bs := by
  unfold slice?
  split_ifs with h <;> simp [h]

theorem slice?_eq_none {l : List α} {off n : ℕ} :
    slice? l off n = none ↔ l.length < off + n := by
  unfold slice?
  split_ifs with h <;> simp <;> omega

theorem slice_congr {l l' : List α} {off n : ℕ}
    (h : ∀ i, off ≤ i → i < off + n → l[i]? = l'[i]?) : slice l off n = slice l' off n := by
  refine List.ext_getElem? fun i => ?_
  rw [getElem?_slice, getElem?_slice]
  split_ifs with hi
  · exact h (off + i) (by omega) (by omega)
  · rfl

/-! ## Writes -/

@[simp] theorem overwrite_nil (l : List α) (off : ℕ) : overwrite l off [] = l := by
  simp [overwrite]

theorem length_overwrite {l bs : List α} {off : ℕ} (h : off + bs.length ≤ l.length) :
    (overwrite l off bs).length = l.length := by
  simp only [overwrite, List.length_append, List.length_take, List.length_drop]
  omega

/-- **What a write leaves at each index.** -/
theorem getElem?_overwrite {l bs : List α} {off : ℕ} (h : off + bs.length ≤ l.length) (i : ℕ) :
    (overwrite l off bs)[i]? = if off ≤ i ∧ i < off + bs.length then bs[i - off]? else l[i]? := by
  have ho : min off l.length = off := Nat.min_eq_left (by omega)
  simp only [overwrite, List.getElem?_append, List.length_append, List.length_take, ho,
    List.getElem?_take, List.getElem?_drop]
  by_cases h1 : i < off
  · simp [h1, show i < off + bs.length by omega, show ¬ off ≤ i by omega]
  · by_cases h2 : i < off + bs.length
    · simp [h1, h2, show off ≤ i by omega]
    · simp only [h2, if_false, and_false]
      congr 1
      omega

theorem getElem?_overwrite_of_not_mem {l bs : List α} {off i : ℕ} (h : off + bs.length ≤ l.length)
    (hi : ¬ (off ≤ i ∧ i < off + bs.length)) : (overwrite l off bs)[i]? = l[i]? := by
  rw [getElem?_overwrite h, if_neg hi]

theorem slice_overwrite {l bs : List α} {off : ℕ} (h : off + bs.length ≤ l.length) :
    slice (overwrite l off bs) off bs.length = bs := by
  refine List.ext_getElem? fun i => ?_
  rw [getElem?_slice]
  split_ifs with hi
  · rw [getElem?_overwrite h, if_pos ⟨by omega, by omega⟩, Nat.add_sub_cancel_left]
  · rw [List.getElem?_eq_none (by omega)]

theorem overwrite_slice {l : List α} {off n : ℕ} (h : off + n ≤ l.length) :
    overwrite l off (slice l off n) = l := by
  have hn := slice_length h
  refine List.ext_getElem? fun i => ?_
  rw [getElem?_overwrite (by omega), hn]
  split_ifs with hi
  · rw [getElem?_slice, if_pos (by omega)]
    congr 1
    omega
  · rfl

/-! ## Elements that are set -/

theorem getElem?_foldl_set {ι : Type} {idx : ι → ℕ} {val : ι → α} {cs : List ι} {l : List α} {i : ℕ}
    (h : i ∉ cs.map idx) : (cs.foldl (fun l c => l.set (idx c) (val c)) l)[i]? = l[i]? := by
  induction cs generalizing l with
  | nil => rfl
  | cons c cs ih =>
    rw [List.map_cons, List.mem_cons, not_or] at h
    rw [List.foldl_cons, ih h.2, List.getElem?_set_ne (Ne.symm h.1)]

/-- Of distinct places each has what was set there. -/
theorem getElem?_foldl_set_of_mem {ι : Type} {idx : ι → ℕ} {val : ι → α} {cs : List ι} {l : List α}
    (hnodup : (cs.map idx).Nodup) {c : ι} (hc : c ∈ cs) (hlt : idx c < l.length) :
    (cs.foldl (fun l c => l.set (idx c) (val c)) l)[idx c]? = some (val c) := by
  induction cs generalizing l with
  | nil => exact absurd hc List.not_mem_nil
  | cons a cs ih =>
    rw [List.map_cons, List.nodup_cons] at hnodup
    rw [List.foldl_cons]
    rcases List.mem_cons.mp hc with rfl | hc
    · rw [getElem?_foldl_set hnodup.1, List.getElem?_set_self hlt]
    · exact ih hnodup.2 hc (by rwa [List.length_set])

/-! ## Chunks -/

/-- `l`, standing at `off`, cut into pieces of `n`, each with its own offset; `fuel` pieces at
most. -/
def chunksFrom (n : ℕ) : ℕ → ℕ → List α → List (ℕ × List α)
  | 0, _, _ => []
  | _ + 1, _, [] => []
  | fuel + 1, off, a :: l => (off, (a :: l).take n) :: chunksFrom n fuel (off + n) ((a :: l).drop n)

/-- `l`, standing at `off`, cut into pieces of `n` (the last may be shorter), each with its own
offset. -/
def chunksAt (n off : ℕ) (l : List α) : List (ℕ × List α) := chunksFrom n l.length off l

def chunks (n : ℕ) (l : List α) : List (List α) := (chunksAt n 0 l).map (·.2)

/-- A chunk is a piece of the list, at its place and not empty. -/
theorem mem_chunksFrom {n : ℕ} (hn : 0 < n) : ∀ {fuel off : ℕ} {l : List α} {o : ℕ} {c : List α},
    (o, c) ∈ chunksFrom n fuel off l → off ≤ o ∧ o + c.length ≤ off + l.length ∧ 0 < c.length ∧
      c.length ≤ n ∧ c = slice l (o - off) c.length
  | 0, _, _, _, _, h => by simp [chunksFrom] at h
  | _ + 1, _, [], _, _, h => by simp [chunksFrom] at h
  | fuel + 1, off, a :: l, o, c, h => by
    rw [chunksFrom, List.mem_cons] at h
    rcases h with h | h
    · obtain ⟨rfl, rfl⟩ := Prod.mk.inj h
      have hl : ((a :: l).take n).length = min n (a :: l).length := List.length_take
      simp only [List.length_cons] at hl ⊢
      refine ⟨Nat.le_refl _, by omega, by omega, by omega, ?_⟩
      rw [hl, Nat.sub_self, slice, List.drop_zero, ← List.length_cons (a := a), ← List.take_eq_take_min]
    · obtain ⟨h1, h2, h3, h4, h5⟩ := mem_chunksFrom hn h
      simp only [List.length_drop] at h2
      refine ⟨by omega, by omega, h3, h4, h5.trans ?_⟩
      rw [slice, slice, List.drop_drop]
      congr 2
      omega

theorem mem_chunksAt {n off o : ℕ} (hn : 0 < n) {l c : List α} (h : (o, c) ∈ chunksAt n off l) :
    off ≤ o ∧ o + c.length ≤ off + l.length ∧ 0 < c.length ∧ c.length ≤ n ∧
      c = slice l (o - off) c.length := mem_chunksFrom hn h

theorem flatten_chunksFrom {n : ℕ} (hn : 0 < n) : ∀ (fuel off : ℕ) (l : List α), l.length ≤ fuel →
    ((chunksFrom n fuel off l).map (·.2)).flatten = l
  | 0, _, l, hf => by
    rw [List.length_eq_zero_iff.mp (Nat.le_zero.mp hf)]
    rfl
  | _ + 1, _, [], _ => rfl
  | fuel + 1, off, a :: l, hf => by
    have hfuel : ((a :: l).drop n).length ≤ fuel := by
      rw [List.length_drop]
      rw [List.length_cons] at hf ⊢
      omega
    rw [chunksFrom, List.map_cons, List.flatten_cons, flatten_chunksFrom hn fuel _ _ hfuel,
      List.take_append_drop]

theorem flatten_chunks {n : ℕ} (hn : 0 < n) (l : List α) : (chunks n l).flatten = l :=
  flatten_chunksFrom hn l.length 0 l (Nat.le_refl _)

theorem chunksFrom_cover {n : ℕ} (hn : 0 < n) : ∀ {fuel off i : ℕ} {l : List α}, l.length ≤ fuel →
    off ≤ i → i < off + l.length → ∃ oc ∈ chunksFrom n fuel off l, oc.1 ≤ i ∧ i < oc.1 + oc.2.length
  | 0, off, i, l, hf, h1, h2 => by omega
  | _ + 1, off, i, [], _, h1, h2 => by simp only [List.length_nil] at h2; omega
  | fuel + 1, off, i, a :: l, hf, h1, h2 => by
    have ht : ((a :: l).take n).length = min n (a :: l).length := List.length_take
    have hd : ((a :: l).drop n).length = (a :: l).length - n := List.length_drop
    rw [chunksFrom]
    by_cases hi : i < off + n
    · exact ⟨_, List.mem_cons_self, h1, show i < off + ((a :: l).take n).length by omega⟩
    · obtain ⟨oc, hmem, h⟩ : ∃ oc ∈ chunksFrom n fuel (off + n) ((a :: l).drop n),
          oc.1 ≤ i ∧ i < oc.1 + oc.2.length :=
        chunksFrom_cover hn (by simp only [List.length_cons] at hf hd ⊢; omega) (by omega) (by omega)
      exact ⟨oc, List.mem_cons_of_mem _ hmem, h⟩

theorem chunksAt_cover {n off i : ℕ} (hn : 0 < n) {l : List α} (h1 : off ≤ i)
    (h2 : i < off + l.length) : ∃ oc ∈ chunksAt n off l, oc.1 ≤ i ∧ i < oc.1 + oc.2.length :=
  chunksFrom_cover hn (Nat.le_refl _) h1 h2

theorem countP_chunksFrom {n : ℕ} (hn : 0 < n) (i : ℕ) : ∀ (fuel off : ℕ) (l : List α),
    l.length ≤ fuel → (chunksFrom n fuel off l).countP
      (fun oc => oc.1 ≤ i ∧ i < oc.1 + oc.2.length) = if off ≤ i ∧ i < off + l.length then 1 else 0
  | 0, off, l, hf => by
    rw [List.length_eq_zero_iff.mp (Nat.le_zero.mp hf)]
    have hno : ¬ (off ≤ i ∧ i < off + ([] : List α).length) := by simp
    rw [if_neg hno]
    rfl
  | _ + 1, off, [], _ => by
    have hno : ¬ (off ≤ i ∧ i < off + ([] : List α).length) := by simp
    rw [if_neg hno]
    rfl
  | fuel + 1, off, a :: l, hf => by
    have ht : ((a :: l).take n).length = min n (a :: l).length := List.length_take
    have hd : ((a :: l).drop n).length = (a :: l).length - n := List.length_drop
    rw [chunksFrom, List.countP_cons,
      countP_chunksFrom hn i fuel (off + n) ((a :: l).drop n)
        (by simp only [List.length_cons] at hf hd ⊢; omega)]
    simp only [decide_eq_true_eq]
    by_cases hlt : i < off + n
    · by_cases hin : off ≤ i ∧ i < off + (a :: l).length
      · rw [if_neg (by omega), if_pos (by omega), if_pos hin]
      · rw [if_neg (by omega), if_neg (by omega), if_neg hin]
    · by_cases hin : off ≤ i ∧ i < off + (a :: l).length
      · rw [if_pos (by omega), if_neg (by omega), if_pos hin]
      · rw [if_neg (by omega), if_neg (by omega), if_neg hin]

theorem countP_chunksAt {n : ℕ} (hn : 0 < n) (i off : ℕ) (l : List α) :
    (chunksAt n off l).countP (fun oc => oc.1 ≤ i ∧ i < oc.1 + oc.2.length) =
      if off ≤ i ∧ i < off + l.length then 1 else 0 :=
  countP_chunksFrom hn i l.length off l (Nat.le_refl _)

/-- A chunk stands at its index times the length of a full one. -/
theorem map_zipIdx_chunksFrom (n : ℕ) : ∀ (fuel i : ℕ) (l : List α),
    (((chunksFrom n fuel (i * n) l).map (·.2)).zipIdx i).map (fun ci => (ci.2 * n, ci.1)) =
      chunksFrom n fuel (i * n) l
  | 0, _, _ => rfl
  | _ + 1, _, [] => rfl
  | fuel + 1, i, a :: l => by
    rw [chunksFrom, List.map_cons, List.zipIdx_cons, List.map_cons, ← Nat.succ_mul,
      map_zipIdx_chunksFrom n fuel (i + 1)]

theorem map_zipIdx_chunks (n : ℕ) (l : List α) :
    (chunks n l).zipIdx.map (fun ci => (ci.2 * n, ci.1)) = chunksAt n 0 l := by
  have h := map_zipIdx_chunksFrom n l.length 0 l
  rwa [Nat.zero_mul] at h

/-- With a chunk appended, if it stands at the end. -/
def appendAt (held : List α) (c : ℕ × List α) : List α :=
  if c.1 = held.length then held ++ c.2 else held

/-- **The chunks, appended one after the other, are the list.** -/
theorem foldl_appendAt_chunksFrom {n : ℕ} (hn : 0 < n) : ∀ (fuel : ℕ) (held l : List α),
    l.length ≤ fuel → (chunksFrom n fuel held.length l).foldl appendAt held = held ++ l
  | 0, held, l, hf => by
    rw [List.length_eq_zero_iff.mp (Nat.le_zero.mp hf), List.append_nil]
    rfl
  | _ + 1, held, [], _ => (List.append_nil held).symm
  | fuel + 1, held, a :: l, hf => by
    have hstep : appendAt held (held.length, (a :: l).take n) = held ++ (a :: l).take n := if_pos rfl
    rw [chunksFrom, List.foldl_cons, hstep]
    by_cases hle : n ≤ (a :: l).length
    · have hlen : (held ++ (a :: l).take n).length = held.length + n := by
        rw [List.length_append, List.length_take, Nat.min_eq_left hle]
      have hfuel : ((a :: l).drop n).length ≤ fuel := by
        rw [List.length_drop]
        omega
      rw [← hlen, foldl_appendAt_chunksFrom hn fuel _ _ hfuel, List.append_assoc, List.take_append_drop]
    · -- the last chunk
      have hdrop : (a :: l).drop n = [] := List.drop_eq_nil_of_le (by omega)
      rw [List.take_of_length_le (by omega), hdrop]
      cases fuel <;> rfl

theorem foldl_appendAt_chunksAt {n : ℕ} (hn : 0 < n) (l : List α) :
    (chunksAt n 0 l).foldl appendAt [] = l := foldl_appendAt_chunksFrom hn l.length [] l (Nat.le_refl _)
end RustyTune
