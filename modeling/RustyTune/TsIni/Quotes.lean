import RustyTune.TsIni.Lex

/-!
# Quoted values

What a value text is made of, quotes and braces first, and what the lexer does with it.

* `Quotable`: what stands between quotes; `Closed`: a text whose quotes and braces are closed.
* `Lexer.foldlM_quotable`, `Lexer.foldlM_closed`: within quotes and braces the lexer only reads on.
* `Context`, **`Lexer.Top.closed`**: a lexer that is back outside quotes and braces has read a closed
  text; and conversely, `Closed.foldlM`.
-/

namespace RustyTune.TsIni

/-- What can stand between quotes: every escape is complete, and no quote stands without one. -/
inductive Quotable : List Char → Prop
  | nil : Quotable []
  | plain {c : Char} {s : List Char} : c ≠ '"' → c ≠ '\\' → Quotable s → Quotable (c :: s)
  | escape (c : Char) {s : List Char} : Quotable s → Quotable ('\\' :: c :: s)

/-- A text whose quotes and braces are closed. -/
inductive Closed : List Char → Prop
  | nil : Closed []
  | plain {c : Char} {s : List Char} : c ≠ '"' → c ≠ '\x7b' → c ≠ '\x7d' → Closed s → Closed (c :: s)
  | quoted {body s : List Char} : Quotable body → Closed s → Closed ('"' :: (body ++ '"' :: s))
  | braces {body s : List Char} :
    Closed body → Closed s → Closed ('\x7b' :: (body ++ '\x7d' :: s))

/-- A quote that no backslash escapes. -/
def HasQuote (s : List Char) : Prop := ∃ body rest, Quotable body ∧ s = body ++ '"' :: rest

theorem Closed.append {s t : List Char} (hs : Closed s) (ht : Closed t) : Closed (s ++ t) := by
  induction hs with
  | nil => exact ht
  | plain h1 h2 h3 _ ih => exact .plain h1 h2 h3 ih
  | quoted hb _ ih =>
    rw [List.cons_append, List.append_assoc, List.cons_append]
    exact .quoted hb ih
  | braces hb _ _ ih =>
    rw [List.cons_append, List.append_assoc, List.cons_append]
    exact .braces hb ih

theorem closed_of_plain {s : List Char}
    (h : ∀ c ∈ s, c ≠ '"' ∧ c ≠ '\x7b' ∧ c ≠ '\x7d') : Closed s := by
  induction s with
  | nil => exact .nil
  | cons c s ih =>
    obtain ⟨h1, h2, h3⟩ := h c List.mem_cons_self
    exact .plain h1 h2 h3 (ih fun d hd => h d (List.mem_cons_of_mem c hd))

theorem quotable_of_plain {s : List Char} (h : ∀ c ∈ s, c ≠ '"' ∧ c ≠ '\\') : Quotable s := by
  induction s with
  | nil => exact .nil
  | cons c s ih =>
    obtain ⟨hquote, hback⟩ := h c List.mem_cons_self
    exact .plain hquote hback (ih fun d hd => h d (List.mem_cons_of_mem c hd))

/-! ## What the lexer reads -/

namespace Lexer

variable {num : ℕ}

theorem foldlM_quotable {body : List Char} (h : Quotable body) (s : Lexer) (rest : List Char)
    (hq : s.inQuote = true) (he : s.escaped = false) :
    (body ++ '"' :: rest).foldlM (step num) s =
      rest.foldlM (step num) { s with piece := s.piece ++ body ++ ['"'], inQuote := false } := by
  induction h generalizing s with
  | nil =>
    have hstep : step num s '"' = .ok { s.take '"' with inQuote := false } := by
      simp [step, take, hq, he]
    rw [List.nil_append, List.foldlM_cons, hstep, List.append_nil]
    rfl
  | @plain c t h1 h2 _ ih =>
    have hstep : step num s c = .ok (s.take c) := by
      simp [step, take, hq, he, h1, h2]
    rw [List.cons_append, List.foldlM_cons, hstep]
    refine (ih (s.take c) hq he).trans ?_
    simp [take]
  | @escape c t _ ih =>
    have h1 : step num s '\\' = .ok { s.take '\\' with escaped := true } := by
      simp [step, take, hq, he]
    have h2 : step num { s.take '\\' with escaped := true } c =
        .ok { s with piece := s.piece ++ ['\\', c] } := by
      simp [step, take, hq, he]
    rw [List.cons_append, List.cons_append, List.foldlM_cons, h1]
    change List.foldlM (step num) { s.take '\\' with escaped := true } (c :: (t ++ '"' :: rest)) = _
    rw [List.foldlM_cons, h2]
    refine (ih { s with piece := s.piece ++ ['\\', c] } hq he).trans ?_
    simp

theorem foldlM_quoted {body : List Char} (h : Quotable body) (s : Lexer) (rest : List Char)
    (hq : s.inQuote = false) (he : s.escaped = false) :
    ('"' :: (body ++ '"' :: rest)).foldlM (step num) s =
      rest.foldlM (step num) { s with piece := s.piece ++ '"' :: (body ++ ['"']) } := by
  have hstep : step num s '"' = .ok { s.take '"' with inQuote := true } := by
    simp [step, take, hq]
  rw [List.foldlM_cons, hstep]
  refine (foldlM_quotable h { s.take '"' with inQuote := true } rest rfl he).trans ?_
  cases s
  simp only [take] at hq ⊢
  subst hq
  simp

theorem foldlM_closed {body : List Char} (h : Closed body) (s : Lexer) (rest : List Char)
    (hq : s.inQuote = false) (he : s.escaped = false) (hd : 0 < s.braceDepth) :
    (body ++ rest).foldlM (step num) s =
      rest.foldlM (step num) { s with piece := s.piece ++ body } := by
  induction h generalizing s rest with
  | nil => simp
  | @plain c t h1 h2 h3 _ ih =>
    have hstep : step num s c = .ok (s.take c) := by
      simp [step, take, hq, h1, h2, h3, Nat.ne_of_gt hd]
    rw [List.cons_append, List.foldlM_cons, hstep]
    refine (ih (s.take c) rest hq he hd).trans ?_
    simp [take]
  | @quoted body t hb _ ih =>
    have := @foldlM_quoted num _ hb s (t ++ rest) hq he
    rw [List.cons_append, List.append_assoc, List.cons_append, this]
    refine (ih { s with piece := s.piece ++ '"' :: (body ++ ['"']) } rest hq he hd).trans ?_
    simp
  | @braces body t _ _ ihb iht =>
    have hopen : step num s '\x7b' = .ok { s.take '\x7b' with braceDepth := s.braceDepth + 1 } := by
      simp [step, take, hq, Nat.ne_of_gt hd, bind, Except.bind, pure, Except.pure]
    rw [List.cons_append, List.foldlM_cons, hopen, List.append_assoc, List.cons_append]
    refine (ihb { s.take '\x7b' with braceDepth := s.braceDepth + 1 } ('\x7d' :: (t ++ rest)) hq he
      (Nat.succ_pos _)).trans ?_
    have hclose : step num { s with piece := s.piece ++ '\x7b' :: body, braceDepth := s.braceDepth + 1 }
        '\x7d' = .ok { s with piece := s.piece ++ '\x7b' :: (body ++ ['\x7d']) } := by
      simp [step, take, hq]
    have hpiece : (s.take '\x7b').piece ++ body = s.piece ++ '\x7b' :: body := by simp [take]
    dsimp only
    rw [hpiece, List.foldlM_cons]
    change (step num { s with piece := s.piece ++ '\x7b' :: body, braceDepth := s.braceDepth + 1 } '\x7d'
      >>= _) = _
    rw [hclose]
    refine (iht { s with piece := s.piece ++ '\x7b' :: (body ++ ['\x7d']) } rest hq he hd).trans ?_
    simp

/-- Outside quotes and braces. -/
structure Top (s : Lexer) : Prop where
  inQuote : s.inQuote = false
  escaped : s.escaped = false
  braceDepth : s.braceDepth = 0

/-- What a character does: it continues the piece, or ends it first. -/
theorem step_cases {s s' : Lexer} {c : Char} (h : step num s c = .ok s') :
    (s'.piece = s.piece ++ [c] ∧ s'.tokens = s.tokens) ∨
      (s.inQuote = false ∧ s.braceDepth = 0 ∧ ∃ t, pieceToken num s.piece = .ok t ∧
        s'.tokens = s.tokens ++ [t] ∧
        (c = ',' ∧ s' = { s with tokens := s.tokens ++ [t], piece := [] } ∨
          c = '\x7b' ∧ ¬ Blank s.piece ∧
            s' = { s with tokens := s.tokens ++ [t], piece := ['\x7b'], braceDepth := 1 })) := by
  have htake {s1 : Lexer} (h : (.ok s1 : Except ParseError Lexer) = .ok s')
      (h1 : s1.piece = s.piece ++ [c] ∧ s1.tokens = s.tokens) :
      s'.piece = s.piece ++ [c] ∧ s'.tokens = s.tokens := by
    cases h
    exact h1
  unfold step at h
  split at h
  · dsimp only at h
    split_ifs at h <;> exact .inl (htake h ⟨rfl, rfl⟩)
  · next hq =>
    have hq : s.inQuote = false := by simpa using hq
    split at h
    · exact .inl (htake h ⟨rfl, rfl⟩)
    · split at h
      · next hc =>
        split_ifs at h with hb
        · cases hp : s.pushPiece num with
          | error e => rw [hp] at h; cases h
          | ok s1 =>
            rw [hp] at h
            obtain ⟨t, ht, rfl⟩ := pushPiece_cases hp
            cases h
            refine .inr ⟨hq, hb.1, t, ht, rfl, .inr ⟨hc, ?_, ?_⟩⟩
            · exact fun hblank => hb.2 (Text.trim_eq_nil.mpr hblank)
            · simp [take, hb.1, hc]
        · exact .inl (htake h ⟨rfl, rfl⟩)
      · split at h
        · split at h
          · cases h
          · exact .inl (htake h ⟨rfl, rfl⟩)
        · split at h
          · next hc =>
            obtain ⟨t, ht, rfl⟩ := pushPiece_cases h
            exact .inr ⟨hq, hc.2, t, ht, rfl, .inl ⟨hc.1, rfl⟩⟩
          · exact .inl (htake h ⟨rfl, rfl⟩)

end Lexer

/-! ## What has been read -/

/-- A text within so many braces that are still open. -/
inductive BraceOpen : ℕ → List Char → Prop
  | closed {s : List Char} : Closed s → BraceOpen 0 s
  | brace {d : ℕ} {s t : List Char} : BraceOpen d s → Closed t → BraceOpen (d + 1) (s ++ '\x7b' :: t)

theorem BraceOpen.append {d : ℕ} {s t : List Char} (hs : BraceOpen d s) (ht : Closed t) :
    BraceOpen d (s ++ t) := by
  cases hs with
  | closed hs => exact .closed (hs.append ht)
  | brace hs hu =>
    rw [List.append_assoc, List.cons_append]
    exact .brace hs (hu.append ht)

theorem BraceOpen.close {d : ℕ} {s : List Char} (hs : BraceOpen (d + 1) s) : BraceOpen d (s ++ ['\x7d']) := by
  cases hs with
  | @brace _ a b ha hb =>
    rw [List.append_assoc, List.cons_append]
    exact ha.append (.braces hb .nil)

theorem Quotable.append {s t : List Char} (hs : Quotable s) (ht : Quotable t) :
    Quotable (s ++ t) := by
  induction hs with
  | nil => exact ht
  | plain h1 h2 _ ih => exact .plain h1 h2 ih
  | escape c _ ih => exact .escape c ih

/-- Where a lexer stands in the text it has read. -/
inductive Context (t : List Char) (s : Lexer) : Prop
  | outside : s.inQuote = false → s.escaped = false → BraceOpen s.braceDepth t → Context t s
  | within (a b : List Char) : s.inQuote = true → s.escaped = false → BraceOpen s.braceDepth a →
    Quotable b → t = a ++ '"' :: b → Context t s
  | escape (a b : List Char) : s.inQuote = true → s.escaped = true → BraceOpen s.braceDepth a →
    Quotable b → t = a ++ '"' :: (b ++ ['\\']) → Context t s

section

variable {num : ℕ}

open Lexer (take pushPiece_cases)

theorem Context.step {t : List Char} {s s' : Lexer} {c : Char} (hs : Context t s)
    (h : Lexer.step num s c = .ok s') : Context (t ++ [c]) s' := by
  cases hs with
  | outside hq he ho =>
    by_cases hquote : c = '"'
    · rw [Lexer.step, if_neg (by simp [hq]), if_pos hquote] at h
      cases h
      exact .within t [] rfl he ho .nil (by rw [hquote])
    · by_cases hopen : c = '\x7b'
      · rw [Lexer.step, if_neg (by simp [hq]), if_neg hquote, if_pos hopen] at h
        rw [hopen]
        split_ifs at h with hb
        · cases hpush : s.pushPiece num with
          | error e => rw [hpush] at h; cases h
          | ok s1 =>
            obtain ⟨t', -, rfl⟩ := pushPiece_cases hpush
            rw [hpush] at h
            cases h
            exact .outside hq he (.brace ho .nil)
        · cases h
          exact .outside hq he (.brace ho .nil)
      · by_cases hclose : c = '\x7d'
        · rw [Lexer.step, if_neg (by simp [hq]), if_neg hquote, if_neg hopen, if_pos hclose] at h
          split at h
          · cases h
          · next hd =>
            cases h
            rw [hd] at ho
            rw [hclose]
            exact .outside hq he ho.close
        · have hplain : Closed [c] := .plain hquote hopen hclose .nil
          rw [Lexer.step, if_neg (by simp [hq]), if_neg hquote, if_neg hopen, if_neg hclose] at h
          split_ifs at h with hcomma
          · obtain ⟨t', -, rfl⟩ := pushPiece_cases h
            exact .outside hq he (ho.append hplain)
          · cases h
            exact .outside hq he (ho.append hplain)
  | within a b hq he ho hb ht =>
    rw [Lexer.step, if_pos hq] at h
    simp only [take, he] at h
    by_cases hback : c = '\\'
    · simp only [hback] at h
      cases h
      exact .escape a b hq rfl ho hb (by rw [ht, hback, List.append_assoc, List.cons_append])
    · by_cases hquote : c = '"'
      · simp only [hquote] at h
        cases h
        refine .outside rfl rfl ?_
        rw [ht, hquote, List.append_assoc, List.cons_append]
        exact ho.append (.quoted hb .nil)
      · simp only [hback, hquote] at h
        cases h
        exact .within a (b ++ [c]) hq rfl ho (hb.append (.plain hquote hback .nil))
          (by rw [ht, List.append_assoc, List.cons_append])
  | escape a b hq he ho hb ht =>
    rw [Lexer.step, if_pos hq] at h
    simp only [take, he] at h
    cases h
    exact .within a (b ++ ['\\', c]) hq rfl ho (hb.append (.escape c .nil))
      (by rw [ht]; simp)

theorem Context.foldlM {t u : List Char} {s s' : Lexer} (hs : Context t s)
    (h : u.foldlM (Lexer.step num) s = .ok s') : Context (t ++ u) s' := by
  induction u generalizing t s with
  | nil =>
    cases h
    rwa [List.append_nil]
  | cons c u ih =>
    rw [List.foldlM_cons] at h
    cases hc : Lexer.step num s c with
    | error e => rw [hc] at h; exact nomatch h
    | ok s1 =>
      rw [hc] at h
      have := ih (hs.step hc) h
      rwa [List.append_assoc] at this

/-- A text read to its end from outside quotes and braces, back to there, is closed. -/
theorem Lexer.Top.closed {t : List Char} {s s' : Lexer} (hs : s.Top)
    (h : t.foldlM (Lexer.step num) s = .ok s') (hq : s'.inQuote = false) (hd : s'.braceDepth = 0) :
    Closed t := by
  have hstart : Context [] s := by
    refine .outside hs.inQuote hs.escaped ?_
    rw [hs.braceDepth]
    exact .closed .nil
  cases hstart.foldlM h with
  | outside _ _ ho =>
    rw [hd] at ho
    cases ho with
    | closed h => exact h
  | within a b hq' => exact absurd (hq.symm.trans hq') (by decide)
  | escape a b hq' => exact absurd (hq.symm.trans hq') (by decide)

theorem Closed.foldlM {t : List Char} (ht : Closed t) {s s' : Lexer}
    (h : t.foldlM (Lexer.step num) s = .ok s') (hq : s.inQuote = false) (he : s.escaped = false) :
    s'.inQuote = false ∧ s'.escaped = false ∧ s'.braceDepth = s.braceDepth := by
  induction ht generalizing s s' with
  | nil =>
    cases h
    exact ⟨hq, he, rfl⟩
  | plain h1 h2 h3 _ ih =>
    rw [List.foldlM_cons, except_bind_eq_ok] at h
    obtain ⟨s1, hstep, h⟩ := h
    rw [Lexer.step, if_neg (by simp [hq]), if_neg h1, if_neg h2, if_neg h3] at hstep
    split_ifs at hstep with hcomma
    · obtain ⟨t', -, rfl⟩ := pushPiece_cases hstep
      have := ih h hq he
      exact this
    · cases hstep
      have := ih h hq he
      exact this
  | quoted hb _ ih =>
    rw [Lexer.foldlM_quoted hb s _ hq he] at h
    have := ih h hq he
    exact this
  | @braces body t _ _ ihb iht =>
    rw [List.foldlM_cons, except_bind_eq_ok] at h
    obtain ⟨s1, hopen, h⟩ := h
    rw [List.foldlM_append, except_bind_eq_ok] at h
    obtain ⟨s2, hbody, h⟩ := h
    rw [List.foldlM_cons, except_bind_eq_ok] at h
    obtain ⟨s3, hclose, h⟩ := h
    have h1 : s1.inQuote = false ∧ s1.escaped = false ∧ s1.braceDepth = s.braceDepth + 1 := by
      rw [Lexer.step, if_neg (by simp [hq]), if_neg (by decide), if_pos rfl] at hopen
      split_ifs at hopen with hb
      · obtain ⟨s0, hpush, hs1⟩ := except_bind_eq_ok.mp hopen
        obtain ⟨t', -, rfl⟩ := pushPiece_cases hpush
        cases hs1
        exact ⟨hq, he, rfl⟩
      · cases hopen
        exact ⟨hq, he, rfl⟩
    obtain ⟨hq2, he2, hd2⟩ := ihb hbody h1.1 h1.2.1
    rw [h1.2.2] at hd2
    rw [Lexer.step, if_neg (by simp [hq2]), if_neg (by decide), if_neg (by decide), if_pos rfl,
      hd2] at hclose
    cases hclose
    have := iht h hq2 he2
    exact this

end

end RustyTune.TsIni
