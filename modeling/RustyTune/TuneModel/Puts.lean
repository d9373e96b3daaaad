import RustyTune.TuneModel.Cells
import RustyTune.TuneModel.Msq.Turn

/-!
# Values put on the pages

* `Put`: a raw value with its place; `Tune.put`: values put on the pages one after the other.
* **`byte_put`**: a byte is then what the last value that covers it has there.
* **`data_put_iff`**: the values leave the local data exactly when the last one of each byte does.
-/

namespace RustyTune.TuneModel

open TsIni Exec

/-- A raw value and its place on a page. -/
structure Put where
  pageIdx : ℕ
  offset : ℕ
  ty : DataType
  raw : ℤ
  deriving DecidableEq, Repr

namespace Tune

variable {F : Type}

/-- The tune with the values put in their places one after the other. -/
def put (t : Tune F) (puts : List Put) : Tune F :=
  puts.foldl (fun t p => t.writePage p.pageIdx p.offset p.ty p.raw) t

/-- A byte of the local data. -/
def byte (t : Tune F) (j i : ℕ) : Option UInt8 := (t.page j).bind (·.data[i]?)

/-- The value lies in its page, and the byte is one of its bytes. -/
def covers (t : Tune F) (j i : ℕ) (p : Put) : Bool :=
  p.pageIdx = j && p.offset ≤ i && i < p.offset + p.ty.size &&
    (t.page j).any fun page => p.offset + p.ty.size ≤ page.data.length

/-- The last of the values that cover the byte. -/
def lastPut (t : Tune F) (puts : List Put) (j i : ℕ) : Option Put := puts.reverse.find? (t.covers j i)

variable {t : Tune F} {j i : ℕ}

theorem covers_iff {p : Put} : t.covers j i p = true ↔ p.pageIdx = j ∧ p.offset ≤ i ∧
    i < p.offset + p.ty.size ∧ ∃ page, t.page j = some page ∧ p.offset + p.ty.size ≤ page.data.length := by
  simp only [covers, Bool.and_eq_true, decide_eq_true_eq, Option.any_eq_true, and_assoc]

@[simp] theorem put_nil (t : Tune F) : t.put [] = t := rfl

@[simp] theorem df_put (t : Tune F) (puts : List Put) : (t.put puts).df = t.df := by
  induction puts generalizing t with
  | nil => rfl
  | cons p puts ih => exact ih _

theorem put_concat (t : Tune F) (puts : List Put) (p : Put) :
    t.put (puts ++ [p]) = (t.put puts).writePage p.pageIdx p.offset p.ty p.raw := by
  rw [put, List.foldl_append]
  rfl

theorem length_page_writePage (pageIdx offset : ℕ) (ty : DataType) (raw : ℤ) :
    ((t.writePage pageIdx offset ty raw).page j).map (·.data.length) = (t.page j).map (·.data.length) := by
  rw [page_writePage]
  split_ifs
  · rw [Option.map_map]
    exact congrArg (Option.map · (t.page j)) (funext fun page => length_writeRaw ..)
  · rfl

theorem length_page_put (puts : List Put) :
    ((t.put puts).page j).map (·.data.length) = (t.page j).map (·.data.length) := by
  induction puts generalizing t with
  | nil => rfl
  | cons p puts ih => exact ih.trans (length_page_writePage ..)

/-- Which bytes a value covers goes by the lengths of the pages. -/
theorem covers_congr {t' : Tune F} (h : (t'.page j).map (·.data.length) = (t.page j).map (·.data.length))
    (p : Put) : t'.covers j i p = t.covers j i p := by
  have hany : ∀ u : Tune F, (u.page j).any (fun page => p.offset + p.ty.size ≤ page.data.length) =
      ((u.page j).map (·.data.length)).any fun n => p.offset + p.ty.size ≤ n := by
    intro u
    rw [Option.any_map]
  simp only [covers, hany, h]

theorem byte_writePage (p : Put) : (t.writePage p.pageIdx p.offset p.ty p.raw).byte j i =
    if t.covers j i p = true then (rawBytes p.ty p.raw)[i - p.offset]? else t.byte j i := by
  rw [byte, page_writePage]
  by_cases hcovers : t.covers j i p = true
  · obtain ⟨rfl, hle, hlt, page, hpage, hin⟩ := covers_iff.mp hcovers
    rw [if_pos rfl, if_pos hcovers, hpage, Option.map_some, Option.bind_some, writeRaw_of_le hin,
      getElem?_overwrite (by rwa [length_rawBytes]), length_rawBytes, if_pos ⟨hle, hlt⟩]
  · rw [if_neg hcovers]
    split_ifs with hj
    · subst hj
      cases hpage : t.page p.pageIdx with
      | none => rw [byte, hpage]; rfl
      | some page =>
        rw [byte, hpage, Option.map_some, Option.bind_some, Option.bind_some]
        rcases Nat.lt_or_ge page.data.length (p.offset + p.ty.size) with hout | hin
        · rw [writeRaw_of_lt hout]
        · exact getElem?_writeRaw fun hi => hcovers (covers_iff.mpr ⟨rfl, hi.1, hi.2, page, hpage, hin⟩)
    · rfl

/-- **A byte is what the last value that covers it has there**, or else what it was. -/
theorem byte_put (puts : List Put) : (t.put puts).byte j i =
    match t.lastPut puts j i with
    | some p => (rawBytes p.ty p.raw)[i - p.offset]?
    | none => t.byte j i := by
  induction puts using List.reverseRecOn with
  | nil => rfl
  | append_singleton puts p ih =>
    rw [put_concat, byte_writePage, covers_congr (length_page_put puts), lastPut,
      List.reverse_append, List.reverse_singleton, List.singleton_append, List.find?_cons]
    cases t.covers j i p with
    | true => rfl
    | false => exact ih

theorem data_eq_iff {t' : Tune F} (h : ∀ j, (t'.page j).map (·.data.length) = (t.page j).map (·.data.length)) :
    t'.data = t.data ↔ ∀ j i, t'.byte j i = t.byte j i := by
  constructor
  · intro hdata j i
    have hj := congrArg (·[j]?) hdata
    simp only [getElem?_data] at hj
    have hbyte : ∀ u : Tune F, u.byte j i = ((u.page j).map PageState.data).bind (·[i]?) := by
      intro u
      rw [byte, Option.bind_map]
      rfl
    rw [hbyte, hbyte, hj]
  · intro hbytes
    refine List.ext_getElem? fun j => ?_
    rw [getElem?_data, getElem?_data]
    have hlen := h j
    cases hpage : t.page j with
    | none =>
      rw [hpage, Option.map_none, Option.map_eq_none_iff] at hlen
      rw [hlen]
    | some page =>
      rw [hpage, Option.map_some] at hlen
      obtain ⟨page', hpage', -⟩ := Option.map_eq_some_iff.mp hlen
      rw [hpage', Option.map_some, Option.map_some]
      refine congrArg some (List.ext_getElem? fun i => ?_)
      have hi := hbytes j i
      rwa [byte, byte, hpage, hpage'] at hi

/-- **Values leave the local data exactly when the last one of each byte does.** -/
theorem data_put_iff (puts : List Put) : (t.put puts).data = t.data ↔
    ∀ j i p, t.lastPut puts j i = some p → t.byte j i = (rawBytes p.ty p.raw)[i - p.offset]? := by
  rw [data_eq_iff fun j => length_page_put puts]
  refine forall₂_congr fun j i => ?_
  rw [byte_put]
  cases t.lastPut puts j i with
  | none => exact iff_of_true rfl nofun
  | some p =>
    constructor
    · rintro h q hq
      obtain rfl := Option.some.inj hq
      exact h.symm
    · exact fun h => (h p rfl).symm

end Tune

end RustyTune.TuneModel
