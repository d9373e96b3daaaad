import RustyTune.Lib.Reader
import RustyTune.Lib.Text
import RustyTune.Lib.Utf8

/-!
# The lines of a text and of its bytes

* `trimEndWhere_append`, `trimEndWhere_eq_self`: what goes at the end of a text and what stays.
* `withEnds`: pieces between line ends as lines with their ends; **`readLines_utf8Encode`**: so are
  the lines read from the bytes of a text. `map_splitOn_cases`: with the ends trimmed these are the
  pieces again, but for an empty one after the last line end.
-/

namespace RustyTune

theorem Reader.readLines_singleton {line : List UInt8} (hne : line ≠ []) (h : 10 ∉ line) :
    Reader.readLines line = [line] := by
  induction line with
  | nil => exact absurd rfl hne
  | cons b line ih =>
    rw [List.mem_cons, not_or] at h
    rw [Reader.readLines, if_neg (Ne.symm h.1)]
    by_cases hline : line = []
    · rw [hline]
      rfl
    · rw [ih hline h.2]

namespace Text

/-! ## Trimming -/

theorem trimEndWhere_append {p : Char → Bool} {t : List Char} (ht : ∀ c ∈ t, p c = true)
    (s : List Char) : trimEndWhere p (s ++ t) = trimEndWhere p s := by
  have ht' : ∀ c ∈ t.reverse, p c = true := fun c hc => ht c (List.mem_reverse.mp hc)
  rw [trimEndWhere, List.reverse_append, List.dropWhile_append_of_pos ht', trimEndWhere]

theorem trimEndWhere_eq_self {p : Char → Bool} {s : List Char} (hs : ∀ c ∈ s, p c = false) :
    trimEndWhere p s = s := by
  rcases List.eq_nil_or_concat s with rfl | ⟨s, c, rfl⟩
  · rfl
  · have hc : p c = false := hs c (by simp)
    rw [List.concat_eq_append, trimEndWhere_append_cons hc]
    rfl

theorem trimEndWhere_congr {p q : Char → Bool} {s : List Char} (h : ∀ c ∈ s, p c = q c) :
    trimEndWhere p s = trimEndWhere q s := by
  have hdrop : ∀ l : List Char, (∀ c ∈ l, p c = q c) → l.dropWhile p = l.dropWhile q := by
    intro l hl
    induction l with
    | nil => rfl
    | cons c l ih =>
      rw [List.dropWhile_cons, List.dropWhile_cons, hl c List.mem_cons_self,
        ih fun d hd => hl d (List.mem_cons_of_mem _ hd)]
  rw [trimEndWhere, trimEndWhere, hdrop _ fun c hc => h c (List.mem_reverse.mp hc)]

/-! ## Bytes -/

theorem utf8Encode_append (s t : List Char) : utf8Encode (s ++ t) = utf8Encode s ++ utf8Encode t :=
  List.flatMap_append

theorem utf8Encode_eq_nil {s : List Char} : utf8Encode s = [] ↔ s = [] := by
  cases s with
  | nil => simp [utf8Encode]
  | cons c s => simp [utf8Encode, String.utf8EncodeChar_ne_nil]

theorem eq_of_mem_utf8EncodeChar {c : Char} {b : UInt8} (hb : b ∈ String.utf8EncodeChar c)
    (hlt : b < 128) : c.toNat = b.toNat := by
  have hhigh : ∀ n, 128 ≤ n → n < 256 → b ≠ UInt8.ofNat n := by
    rintro n hle hn rfl
    have hlt : (UInt8.ofNat n).toNat < 128 := hlt
    rw [UInt8.toNat_ofNat', Nat.mod_eq_of_lt hn] at hlt
    omega
  rw [String.utf8EncodeChar] at hb
  split_ifs at hb
  · have hn : c.toNat ≤ 127 := by assumption
    rw [List.mem_singleton.mp hb, UInt8.toNat_ofNat']
    exact (Nat.mod_eq_of_lt (by omega)).symm
  all_goals simp only [List.mem_cons, List.not_mem_nil, or_false] at hb
  · rcases hb with h | h
    all_goals exact absurd h (hhigh _ (by omega) (by omega))
  · rcases hb with h | h | h
    all_goals exact absurd h (hhigh _ (by omega) (by omega))
  · rcases hb with h | h | h | h
    all_goals exact absurd h (hhigh _ (by omega) (by omega))

theorem newline_notMem_utf8Encode {s : List Char} (h : '\n' ∉ s) : 10 ∉ utf8Encode s := by
  intro hmem
  obtain ⟨c, hc, hb⟩ := List.mem_flatMap.mp hmem
  have hn := eq_of_mem_utf8EncodeChar hb (by decide)
  obtain rfl : c = '\n' := Char.toNat_inj.mp hn
  exact h hc

/-! ## Lines -/

theorem notMem_of_mem_splitOn {a : Char} {s piece : List Char} (h : piece ∈ s.splitOn a) :
    a ∉ piece := by
  induction s generalizing piece with
  | nil =>
    rw [List.splitOn_nil, List.mem_singleton] at h
    rw [h]
    exact List.not_mem_nil
  | cons c s ih =>
    rw [List.splitOn_cons_eq_if_modifyHead] at h
    split_ifs at h with hc
    · rcases List.mem_cons.mp h with rfl | h
      · exact List.not_mem_nil
      · exact ih h
    · obtain ⟨first, rest, hs⟩ := List.exists_cons_of_ne_nil (List.splitOn_ne_nil a s)
      rw [hs] at h ih
      rcases List.mem_cons.mp h with rfl | h
      · rw [List.mem_cons, not_or]
        exact ⟨fun heq => hc (beq_iff_eq.mpr heq.symm), ih List.mem_cons_self⟩
      · exact ih (List.mem_cons_of_mem _ h)

/-- Pieces between line ends, as lines with their ends; the last has none, and is no line where it is
empty. -/
def withEnds : List (List Char) → List (List Char)
  | [] => []
  | [piece] => if piece = [] then [] else [piece]
  | piece :: piece' :: pieces => (piece ++ ['\n']) :: withEnds (piece' :: pieces)

theorem readLines_intercalate {pieces : List (List Char)} (h : ∀ piece ∈ pieces, '\n' ∉ piece) :
    Reader.readLines (utf8Encode (['\n'].intercalate pieces)) = (withEnds pieces).map utf8Encode := by
  induction pieces with
  | nil => rfl
  | cons piece pieces ih =>
    have hpiece := newline_notMem_utf8Encode (h piece List.mem_cons_self)
    cases pieces with
    | nil =>
      rw [List.intercalate_singleton, withEnds]
      split_ifs with hnil
      · rw [hnil]
        rfl
      · exact Reader.readLines_singleton (mt utf8Encode_eq_nil.mp hnil) hpiece
    | cons piece' pieces =>
      have hbytes : utf8Encode (['\n'].intercalate (piece :: piece' :: pieces)) =
          utf8Encode piece ++ 10 :: utf8Encode (['\n'].intercalate (piece' :: pieces)) := by
        rw [List.intercalate_cons_cons, utf8Encode_append, utf8Encode_append]
        simp
        rfl
      rw [hbytes, Reader.readLines_append hpiece, ih fun p hp => h p (List.mem_cons_of_mem _ hp),
        withEnds, List.map_cons, utf8Encode_append]
      rfl

theorem readLines_utf8Encode (s : List Char) :
    Reader.readLines (utf8Encode s) = (withEnds (s.splitOn '\n')).map utf8Encode := by
  rw [← readLines_intercalate (fun piece hp => notMem_of_mem_splitOn hp), List.intercalate_splitOn]

/-- **With the ends trimmed the lines are the pieces**, but for an empty piece at the end. -/
theorem map_splitOn_cases (p : Char → Bool) (s : List Char) :
    let lines := (withEnds (s.splitOn '\n')).map (trimEndWhere fun c => p c || c == '\n')
    (s.splitOn '\n').map (trimEndWhere p) = lines ∨
      (s.splitOn '\n').map (trimEndWhere p) = lines ++ [[]] := by
  have hall : ∀ piece ∈ s.splitOn '\n', '\n' ∉ piece := fun piece hp => notMem_of_mem_splitOn hp
  have htrim : ∀ piece, '\n' ∉ piece →
      trimEndWhere (fun c => p c || c == '\n') piece = trimEndWhere p piece := by
    intro piece hpiece
    refine trimEndWhere_congr fun c hc => ?_
    have hne : (c == '\n') = false := beq_eq_false_iff_ne.mpr fun h => hpiece (h ▸ hc)
    rw [hne, Bool.or_false]
  generalize s.splitOn '\n' = pieces at hall
  induction pieces with
  | nil => exact .inl rfl
  | cons piece pieces ih =>
    have hpiece := hall piece List.mem_cons_self
    cases pieces with
    | nil =>
      rw [withEnds]
      split_ifs with hnil
      · rw [hnil]
        exact .inr rfl
      · rw [List.map_singleton, List.map_singleton, htrim piece hpiece]
        exact .inl rfl
    | cons piece' pieces =>
      have hend : trimEndWhere (fun c => p c || c == '\n') (piece ++ ['\n']) =
          trimEndWhere p piece := by
        rw [trimEndWhere_append (by simp), htrim piece hpiece]
      rw [withEnds, List.map_cons, List.map_cons, hend]
      exact (ih fun q hq => hall q (List.mem_cons_of_mem _ hq)).imp (congrArg _) (congrArg _)

end Text

end RustyTune
