import RustyTune.TsIni.Strings

/-!
# Rendering tokens

* `Token.render`: a token as it stands in a source; `Token.WellFormed`: one that can stand there.
* `Renders`: a value text that lists tokens, with white space around its commas, and a comma left out
  here or there before a condition.
* **`tokenize_renders`**: the lexer finds the tokens of such a text, and no others.
-/

namespace RustyTune.TsIni

namespace Token

def render : Token → List Char
  | bare s => s.toList
  | str s => '"' :: (s.toList ++ ['"'])
  | expr s => '\x7b' :: (s.toList ++ ['\x7d'])

/-- A word is trimmed and has no character with a meaning of its own; a string has its quotes escaped;
an expression is trimmed and closes its quotes and braces. -/
def WellFormed : Token → Prop
  | bare s => Text.trim s.toList = s.toList ∧
    ∀ c ∈ s.toList, c ≠ '"' ∧ c ≠ '\x7b' ∧ c ≠ '\x7d' ∧ c ≠ ','
  | str s => Quotable s.toList
  | expr s => Text.trim s.toList = s.toList ∧ Closed s.toList

theorem pieceToken_render {num : ℕ} {t : Token} (h : t.WellFormed) {a b : List Char} (ha : Blank a)
    (hb : Blank b) : pieceToken num (a ++ t.render ++ b) = .ok t := by
  rw [pieceToken, Text.trim_append_blank hb, Text.trim_blank_append ha]
  cases t with
  | bare s =>
    rw [render, h.1]
    split
    · next rest heq => exact absurd rfl (h.2 '"' (by simp [heq])).1
    · next rest heq => exact absurd rfl (h.2 '\x7b' (by simp [heq])).2.1
    · rw [String.ofList_toList]
  | str s =>
    have htrim : Text.trim (render (str s)) = '"' :: (s.toList ++ ['"']) :=
      Text.trim_cons_append_cons (by decide) (by decide) _ []
    have hsuffix : Text.stripSuffix '"' (s.toList ++ ['"']) = some s.toList :=
      Text.stripSuffix_eq_some.mpr rfl
    simp only [htrim, hsuffix, String.ofList_toList]
  | expr s =>
    have htrim : Text.trim (render (expr s)) = '\x7b' :: (s.toList ++ ['\x7d']) :=
      Text.trim_cons_append_cons (by decide) (by decide) _ []
    have hsuffix : Text.stripSuffix '\x7d' (s.toList ++ ['\x7d']) = some s.toList :=
      Text.stripSuffix_eq_some.mpr rfl
    simp only [htrim, hsuffix, h.1, String.ofList_toList]

theorem trim_render_ne_nil {t : Token} (h : t.WellFormed) (ht : t ≠ bare "") {a b : List Char}
    (ha : Blank a) (hb : Blank b) : Text.trim (a ++ t.render ++ b) ≠ [] := by
  rw [Text.trim_append_blank hb, Text.trim_blank_append ha]
  cases t with
  | bare s =>
    rw [render, h.1]
    intro hs
    exact ht (by rw [String.toList_eq_nil_iff.mp hs])
  | str s =>
    intro hs
    exact absurd (Text.trim_eq_nil.mp hs '"' List.mem_cons_self) (by decide)
  | expr s =>
    intro hs
    exact absurd (Text.trim_eq_nil.mp hs '\x7b' List.mem_cons_self) (by decide)

end Token

/-! ## Texts of several tokens -/

/-- What follows a token: the others, each after a comma; before an expression the comma may be left
out, unless an empty word stands in front. -/
inductive Follows : Token → List Token → List Char → Prop
  | done {t : Token} {b : List Char} : Blank b → Follows t [] b
  | comma {t u : Token} {ts : List Token} {a b text : List Char} : Blank b → Blank a →
    Follows u ts text → Follows t (u :: ts) (b ++ ',' :: (a ++ (u.render ++ text)))
  | brace {t : Token} {e : String} {ts : List Token} {b text : List Char} : Blank b →
    t ≠ .bare "" → Follows (.expr e) ts text →
    Follows t (.expr e :: ts) (b ++ ((Token.expr e).render ++ text))

/-- A text of tokens. -/
inductive Renders : List Token → List Char → Prop
  | intro {t : Token} {ts : List Token} {a text : List Char} : Blank a → Follows t ts text →
    Renders (t :: ts) (a ++ (t.render ++ text))

namespace Lexer

variable {num : ℕ}

theorem foldlM_render {t : Token} (h : t.WellFormed) {s : Lexer} (hs : s.Top) (hp : Blank s.piece)
    (rest : List Char) :
    (t.render ++ rest).foldlM (step num) s =
      rest.foldlM (step num) { s with piece := s.piece ++ t.render } := by
  cases t with
  | bare w => exact foldlM_plain h.2 s rest hs.inQuote
  | str w =>
    rw [Token.render, List.cons_append, List.append_assoc, List.singleton_append]
    exact foldlM_quoted h s rest hs.inQuote hs.escaped
  | expr w =>
    have hopen : step num s '\x7b' = .ok { s.take '\x7b' with braceDepth := 1 } := by
      have htrim := Text.trim_eq_nil.mpr hp
      simp [step, hs.inQuote, hs.braceDepth, htrim, bind, Except.bind, pure, Except.pure]
    have hclose : step num { s with piece := s.piece ++ '\x7b' :: w.toList, braceDepth := 1 } '\x7d' =
        .ok { s with piece := s.piece ++ '\x7b' :: (w.toList ++ ['\x7d']) } := by
      simp [step, take, hs.inQuote, hs.braceDepth]
    have hpiece : (s.take '\x7b').piece ++ w.toList = s.piece ++ '\x7b' :: w.toList := by
      simp [take]
    rw [Token.render, List.cons_append, List.foldlM_cons, hopen, List.append_assoc,
      List.singleton_append]
    refine (foldlM_closed h.2 { s.take '\x7b' with braceDepth := 1 } _ hs.inQuote hs.escaped
      Nat.one_pos).trans ?_
    dsimp only
    rw [hpiece, List.foldlM_cons]
    change (step num { s with piece := s.piece ++ '\x7b' :: w.toList, braceDepth := 1 } '\x7d'
      >>= _) = _
    rw [hclose]
    rfl

theorem step_comma {s : Lexer} (hs : s.Top) {t : Token} (ht : pieceToken num s.piece = .ok t) :
    step num s ',' = .ok { s with tokens := s.tokens ++ [t], piece := [] } := by
  rw [step, if_neg (by simp [hs.inQuote]), if_neg (by decide), if_neg (by decide),
    if_neg (by decide), if_pos ⟨rfl, hs.braceDepth⟩, pushPiece, ht]
  rfl

theorem step_brace {s : Lexer} (hs : s.Top) {t : Token} (ht : pieceToken num s.piece = .ok t)
    (hne : Text.trim s.piece ≠ []) :
    step num s '\x7b' = step num { s with tokens := s.tokens ++ [t], piece := [] } '\x7b' := by
  have hnil : Text.trim ([] : List Char) = [] := rfl
  simp [step, hs.inQuote, hs.braceDepth, hne, hnil, pushPiece, ht, bind, Except.bind, pure,
    Except.pure]

end Lexer

variable {num : ℕ}

/-- What follows a token, read after it: the token and those that follow. -/
theorem Follows.tokens {t : Token} {ts : List Token} {text : List Char} (h : Follows t ts text)
    (hwf : ∀ u ∈ t :: ts, u.WellFormed) {s : Lexer} (hs : s.Top) {a : List Char} (ha : Blank a)
    (hp : s.piece = a ++ t.render) :
    ∃ s' u, text.foldlM (Lexer.step num) s = .ok s' ∧ s'.Top ∧ pieceToken num s'.piece = .ok u ∧
      s'.tokens ++ [u] = s.tokens ++ t :: ts := by
  induction h generalizing s a with
  | @done t b hb =>
    have ht := hwf t List.mem_cons_self
    refine ⟨{ s with piece := s.piece ++ b }, t, ?_, ⟨hs.inQuote, hs.escaped, hs.braceDepth⟩, ?_, rfl⟩
    · have := @Lexer.foldlM_gap num _ hb s [] hs.inQuote
      rwa [List.append_nil] at this
    · rw [hp]
      exact Token.pieceToken_render ht ha hb
  | @comma t u ts a' b text hb ha' _ ih =>
    have ht := hwf t List.mem_cons_self
    have hu := hwf u (by simp)
    have htoken : pieceToken num (s.piece ++ b) = .ok t := by
      rw [hp]
      exact Token.pieceToken_render ht ha hb
    have htop : Lexer.Top { s with tokens := s.tokens ++ [t], piece := a' } :=
      ⟨hs.inQuote, hs.escaped, hs.braceDepth⟩
    obtain ⟨s', v, hrun, hend, hv, htokens⟩ := @ih
      (fun v hv => hwf v (List.mem_cons_of_mem t hv))
      { s with tokens := s.tokens ++ [t], piece := a' ++ u.render }
      ⟨hs.inQuote, hs.escaped, hs.braceDepth⟩ a' ha' rfl
    refine ⟨s', v, ?_, hend, hv, ?_⟩
    · rw [Lexer.foldlM_gap hb s _ hs.inQuote, List.foldlM_cons,
        Lexer.step_comma (s := { s with piece := s.piece ++ b })
          ⟨hs.inQuote, hs.escaped, hs.braceDepth⟩ htoken]
      change List.foldlM (Lexer.step num) { s with tokens := s.tokens ++ [t], piece := [] } _ = _
      rw [Lexer.foldlM_gap ha' { s with tokens := s.tokens ++ [t], piece := [] } _ hs.inQuote,
        List.nil_append, Lexer.foldlM_render hu htop ha']
      exact hrun
    · rw [htokens, List.append_assoc, List.singleton_append]
  | @brace t e ts b text hb hne _ ih =>
    have ht := hwf t List.mem_cons_self
    have he := hwf (.expr e) (by simp)
    have htoken : pieceToken num (s.piece ++ b) = .ok t := by
      rw [hp]
      exact Token.pieceToken_render ht ha hb
    have htop : Lexer.Top { s with tokens := s.tokens ++ [t], piece := [] } :=
      ⟨hs.inQuote, hs.escaped, hs.braceDepth⟩
    have hnil : Blank [] := fun _ hc => absurd hc List.not_mem_nil
    obtain ⟨s', v, hrun, hend, hv, htokens⟩ := @ih
      (fun v hv => hwf v (List.mem_cons_of_mem t hv))
      { s with tokens := s.tokens ++ [t], piece := [] ++ (Token.expr e).render }
      ⟨hs.inQuote, hs.escaped, hs.braceDepth⟩ [] hnil rfl
    refine ⟨s', v, ?_, hend, hv, ?_⟩
    · have hcut : ((Token.expr e).render ++ text).foldlM (Lexer.step num)
            { s with piece := s.piece ++ b } =
          ((Token.expr e).render ++ text).foldlM (Lexer.step num)
            { s with tokens := s.tokens ++ [t], piece := [] } := by
        rw [Token.render, List.cons_append, List.foldlM_cons, List.foldlM_cons,
          Lexer.step_brace (s := { s with piece := s.piece ++ b })
            ⟨hs.inQuote, hs.escaped, hs.braceDepth⟩ htoken ?_]
        rw [hp]
        exact Token.trim_render_ne_nil ht hne ha hb
      rw [Lexer.foldlM_gap hb s _ hs.inQuote, hcut, Lexer.foldlM_render he htop hnil]
      exact hrun
    · rw [htokens, List.append_assoc, List.singleton_append]

/-- **The lexer finds the tokens of a text, and no others.** -/
theorem tokenize_renders {ts : List Token} {text : List Char} (h : Renders ts text)
    (hwf : ∀ t ∈ ts, t.WellFormed) (hne : ts ≠ [.bare ""]) : tokenize num text = .ok ts := by
  cases h with
  | @intro t ts a text ha hfollows =>
    obtain ⟨s, u, hrun, hend, hu, htokens⟩ :=
      @Follows.tokens num _ _ _ hfollows hwf { Lexer.start with piece := a ++ t.render }
        ⟨rfl, rfl, rfl⟩ a ha rfl
    refine tokenize_eq_ok.mpr ⟨s, u, ?_, hend.inQuote, hend.braceDepth, hu, ?_⟩
    · have htop : Lexer.Top { Lexer.start with piece := a } := ⟨rfl, rfl, rfl⟩
      exact (Lexer.foldlM_gap ha Lexer.start _ rfl).trans
        ((Lexer.foldlM_render (hwf t List.mem_cons_self) htop ha text).trans hrun)
    · rw [htokens]
      exact (if_neg hne).symm

/-- A label, a name, and a condition without a comma in front. -/
theorem tokenize_renders_triggerEdge :
    tokenize 1 "\"Trigger edge\", TrigEdge \x7bTrigPattern != 4\x7d".toList =
      .ok [.str "Trigger edge", .bare "TrigEdge", .expr "TrigPattern != 4"] := by
  have hspace : Blank [' '] := fun c hc => by
    rw [List.mem_singleton.mp hc]
    decide
  have hnone : Blank [] := fun c hc => absurd hc List.not_mem_nil
  have hedge : Follows (.bare "TrigEdge") [.expr "TrigPattern != 4"] _ :=
    .brace hspace (by decide) (.done hnone)
  refine @tokenize_renders 1 _ _ (.intro hnone (.comma hnone hspace hedge)) ?_ (by decide)
  intro t ht
  simp only [List.mem_cons, List.not_mem_nil, or_false] at ht
  rcases ht with rfl | rfl | rfl
  · exact quotable_of_plain (List.all_iff_forall_prop.mp (by decide))
  · exact ⟨by decide +kernel, List.all_iff_forall_prop.mp (by decide)⟩
  · exact ⟨by decide +kernel, closed_of_plain (List.all_iff_forall_prop.mp (by decide))⟩

end RustyTune.TsIni
