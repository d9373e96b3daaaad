import RustyTune.Lib.Text
import RustyTune.Lib.Utf8

/-!
# Recodings

A text that is written in one encoding and read in another: every character becomes characters of its
own, and ASCII stays.

* `Recoding`; `Recoding.latin1`: UTF-8 that is read as ISO-8859-1.
* **`trimEnd_apply_eq_iff`**: what is left of a text when it is recoded and a character of ASCII is then
  trimmed from its end.
-/

namespace RustyTune.Text

def IsAscii (s : List Char) : Prop := ∀ c ∈ s, c.toNat < 128

instance (s : List Char) : Decidable (IsAscii s) := List.decidableBAll _ s

/-- What becomes of each character. -/
structure Recoding where
  char : Char → List Char
  ne_nil : ∀ c, char c ≠ []
  ascii : ∀ c, c.toNat < 128 → char c = [c]
  other : ∀ c, 128 ≤ c.toNat → ∀ d ∈ char c, 128 ≤ d.toNat

namespace Recoding

variable (r : Recoding)

def apply (s : List Char) : List Char := s.flatMap r.char

def string (s : String) : String := String.ofList (r.apply s.toList)

theorem apply_append (s t : List Char) : r.apply (s ++ t) = r.apply s ++ r.apply t :=
  List.flatMap_append

theorem apply_cons_of_ascii {c : Char} (hc : c.toNat < 128) (s : List Char) :
    r.apply (c :: s) = c :: r.apply s := by
  rw [apply, List.flatMap_cons, r.ascii c hc]
  rfl

theorem apply_of_isAscii {s : List Char} (h : IsAscii s) : r.apply s = s := by
  induction s with
  | nil => rfl
  | cons c s ih =>
    rw [r.apply_cons_of_ascii (h c List.mem_cons_self), ih fun d hd => h d (List.mem_cons_of_mem c hd)]

theorem string_of_isAscii {s : String} (h : IsAscii s.toList) : r.string s = s := by
  rw [string, r.apply_of_isAscii h, String.ofList_toList]

/-- A recoded text ends in a character of ASCII only where the text does. -/
theorem apply_concat {d : Char} (hd : d.toNat < 128) (s : List Char) {c : Char} (hc : c ≠ d) :
    ∃ t e, e ≠ d ∧ r.apply (s ++ [c]) = t ++ [e] := by
  rcases List.eq_nil_or_concat (r.char c) with hnil | ⟨t, e, he⟩
  · exact absurd hnil (r.ne_nil c)
  · refine ⟨r.apply s ++ t, e, ?_, ?_⟩
    · by_cases hascii : c.toNat < 128
      · rw [r.ascii c hascii, List.concat_eq_append] at he
        have hlast : c = e := by simpa using congrArg List.getLast? he
        exact hlast ▸ hc
      · have := r.other c (Nat.le_of_not_lt hascii) e (by rw [he]; simp)
        rintro rfl
        omega
    · rw [apply_append, apply, apply, List.flatMap_singleton, he, List.append_assoc, List.concat_eq_append]

/-- Every character stays. -/
def same : Recoding where
  char c := [c]
  ne_nil c := List.cons_ne_nil c []
  ascii _ _ := rfl
  other _ hc _ hd := List.mem_singleton.mp hd ▸ hc

@[simp] theorem same_apply (s : List Char) : same.apply s = s := List.flatMap_singleton' s

@[simp] theorem same_string (s : String) : same.string s = s := by
  rw [string, same_apply, String.ofList_toList]

end Recoding

theorem getLast?_trimEndWhere {p : Char → Bool} {s : List Char} {c : Char}
    (h : (trimEndWhere p s).getLast? = some c) : p c = false := by
  rw [trimEndWhere, List.getLast?_reverse] at h
  have hnot := List.head?_dropWhile_not p s.reverse
  rw [h] at hnot
  exact hnot

/-- **A text that is recoded and trimmed at its end is left as it is** when it is recoded to itself and
nothing is trimmed. -/
theorem trimEnd_apply_eq_iff (r : Recoding) {d : Char} (hd : d.toNat < 128) (s : List Char) :
    trimEndWhere (· == d) (r.apply s) = s ↔ r.apply s = s ∧ s.getLast? ≠ some d := by
  rcases List.eq_nil_or_concat s with rfl | ⟨l, c, rfl⟩
  · exact iff_of_true rfl ⟨rfl, by simp⟩
  · rw [List.concat_eq_append, List.getLast?_concat, ne_eq, Option.some.injEq]
    by_cases hc : c = d
    · subst hc
      refine iff_of_false (fun h => ?_) fun h => h.2 rfl
      have hlast := getLast?_trimEndWhere (p := (· == c)) (c := c) (by rw [h, List.getLast?_concat])
      simp at hlast
    · obtain ⟨t, e, he, hte⟩ := r.apply_concat hd l hc
      have htrim : trimEndWhere (· == d) (t ++ [e]) = t ++ [e] :=
        trimEndWhere_append_cons (by simpa using he) t []
      rw [hte, htrim, and_iff_left hc]

namespace Recoding

/-! ## UTF-8 as ISO-8859-1 -/

theorem toNat_ofNat_byte (b : UInt8) : (Char.ofNat b.toNat).toNat = b.toNat := by
  have hlt := b.toNat_lt
  have hvalid : b.toNat.isValidChar := Or.inl (by omega)
  rw [Char.ofNat, dif_pos hvalid]
  rfl

theorem utf8EncodeChar_of_lt {c : Char} (h : c.toNat < 128) :
    String.utf8EncodeChar c = [UInt8.ofNat c.toNat] := by
  rw [String.utf8EncodeChar]
  exact if_pos (Nat.le_of_lt_succ h)

/-- Other characters are two bytes or more, none of them of ASCII. -/
theorem utf8EncodeChar_of_le {c : Char} (h : 128 ≤ c.toNat) :
    2 ≤ (String.utf8EncodeChar c).length ∧ ∀ b ∈ String.utf8EncodeChar c, 128 ≤ b.toNat := by
  change 128 ≤ c.val.toNat at h
  unfold String.utf8EncodeChar
  extract_lets v
  split_ifs <;> simp only [List.length_cons, List.mem_cons, List.not_mem_nil, or_false, forall_eq_or_imp,
    forall_eq, UInt8.toNat_ofNat'] <;> omega

def latin1 : Recoding where
  char c := Text.latin1 (String.utf8EncodeChar c)
  ne_nil c h := String.utf8EncodeChar_ne_nil (List.map_eq_nil_iff.mp h)
  ascii c hc := by
    have hbyte : (UInt8.ofNat c.toNat).toNat = c.toNat := by
      rw [UInt8.toNat_ofNat']
      omega
    rw [utf8EncodeChar_of_lt hc, Text.latin1, List.map_cons, hbyte, Char.ofNat_toNat]
    rfl
  other c hc d hd := by
    obtain ⟨b, hb, rfl⟩ := List.mem_map.mp hd
    rw [toNat_ofNat_byte]
    exact (utf8EncodeChar_of_le hc).2 b hb

end Recoding

end RustyTune.Text
