import Mathlib.Data.List.Induction
import RustyTune.TsIni.Quotes

/-!
# Adjacent strings

Of a value that starts with a quote the lexer looks at the first and the last character only.

* `GoesOn`: somewhere in the text a value goes on after its closing quote.
* `Reading`: what is known of a text that has been read, from the last comma on.
* **`strings_whole_iff`**: the strings of an accepted text are single strings exactly when no value
  goes on after its closing quote.
* `protocol_labels_merge`: the labels of a shipped definition, of which two become one.
-/

namespace RustyTune.TsIni

variable {num : ℕ}

/-- What stands in front of a value: nothing, or a comma outside quotes and braces. -/
def Front (front : List Char) : Prop := front = [] ∨ ∃ a, front = a ++ [','] ∧ Closed a

/-- A value starts with a string; what follows its closing quote is neither a comma nor a brace. -/
inductive GoesOn : List Char → Prop
  | intro {front blank body gap after : List Char} {c : Char} : Front front → Blank blank →
    Quotable body → Blank gap → Text.isWhitespace c = false → c ≠ ',' → c ≠ '\x7b' →
    GoesOn (front ++ (blank ++ '"' :: (body ++ '"' :: (gap ++ c :: after))))

theorem GoesOn.append {s : List Char} (h : GoesOn s) (t : List Char) : GoesOn (s ++ t) := by
  cases h with
  | @intro front blank body gap after c hf hb hq hg hc h1 h2 =>
    have : GoesOn (front ++ (blank ++ '"' :: (body ++ '"' :: (gap ++ c :: (after ++ t))))) :=
      .intro hf hb hq hg hc h1 h2
    simpa using this

/-! ## What becomes of a text -/

theorem tokenize_eq_ok {text : List Char} {ts : List Token} :
    tokenize num text = .ok ts ↔ ∃ s t, text.foldlM (Lexer.step num) Lexer.start = .ok s ∧
      s.inQuote = false ∧ s.braceDepth = 0 ∧ pieceToken num s.piece = .ok t ∧
      ts = if s.tokens ++ [t] = [.bare ""] then [] else s.tokens ++ [t] := by
  unfold tokenize
  rw [except_bind_eq_ok]
  constructor
  · rintro ⟨s, hs, h⟩
    by_cases hq : s.inQuote = true
    · rw [if_pos hq] at h
      exact nomatch h
    · by_cases hd : s.braceDepth = 0
      · rw [if_neg hq, if_neg (by simpa using hd)] at h
        obtain ⟨s1, hpush, h⟩ := except_bind_eq_ok.mp h
        obtain ⟨t, ht, rfl⟩ := Lexer.pushPiece_cases hpush
        exact ⟨s, t, hs, by simpa using hq, hd, ht, (Except.ok.inj h).symm⟩
      · rw [if_neg hq, if_pos hd] at h
        exact nomatch h
  · rintro ⟨s, t, hs, hq, hd, ht, rfl⟩
    refine ⟨s, hs, ?_⟩
    rw [if_neg (by simp [hq]), if_neg (by simpa using hd)]
    simp [Lexer.pushPiece, ht, bind, Except.bind, pure, Except.pure]

namespace Lexer

theorem mem_tokens {s s' : Lexer} {rest : List Char} {t : Token}
    (h : rest.foldlM (step num) s = .ok s') (ht : t ∈ s.tokens) : t ∈ s'.tokens := by
  induction rest generalizing s with
  | nil =>
    cases h
    exact ht
  | cons c rest ih =>
    rw [List.foldlM_cons, except_bind_eq_ok] at h
    obtain ⟨s1, hstep, h⟩ := h
    apply ih h
    rcases step_cases hstep with ⟨-, htok⟩ | ⟨-, -, t', -, htok, -⟩
    · rwa [htok]
    · rw [htok]
      exact List.mem_append_left _ ht

theorem piece_pushed {s s' : Lexer} {rest : List Char} (h : rest.foldlM (step num) s = .ok s') :
    ∃ q, s'.piece = s.piece ++ q ∨ ∃ t ∈ s'.tokens, pieceToken num (s.piece ++ q) = .ok t := by
  induction rest generalizing s with
  | nil =>
    cases h
    exact ⟨[], .inl (List.append_nil _).symm⟩
  | cons c rest ih =>
    rw [List.foldlM_cons, except_bind_eq_ok] at h
    obtain ⟨s1, hstep, h⟩ := h
    rcases step_cases hstep with ⟨hpiece, -⟩ | ⟨-, -, t, ht, htok, -⟩
    · obtain ⟨q, hq⟩ := ih h
      rw [hpiece, List.append_assoc] at hq
      exact ⟨[c] ++ q, hq⟩
    · refine ⟨[], .inr ⟨t, mem_tokens h ?_, by rwa [List.append_nil]⟩⟩
      rw [htok]
      exact List.mem_append_right _ List.mem_cons_self

end Lexer

theorem Front.top {front : List Char} (hf : Front front) {s : Lexer}
    (h : front.foldlM (Lexer.step num) Lexer.start = .ok s) : s.Top ∧ s.piece = [] := by
  rcases hf with rfl | ⟨a, rfl, ha⟩
  · cases h
    exact ⟨⟨rfl, rfl, rfl⟩, rfl⟩
  · rw [List.foldlM_append, except_bind_eq_ok] at h
    obtain ⟨s1, h1, h⟩ := h
    obtain ⟨hq, he, hd⟩ := ha.foldlM h1 rfl rfl
    rw [List.foldlM_cons, except_bind_eq_ok] at h
    obtain ⟨s2, hstep, h⟩ := h
    cases h
    rw [Lexer.step, if_neg (by simp [hq]), if_neg (by decide), if_neg (by decide),
      if_neg (by decide), if_pos ⟨rfl, hd⟩] at hstep
    obtain ⟨t, -, rfl⟩ := Lexer.pushPiece_cases hstep
    exact ⟨⟨hq, he, hd⟩, rfl⟩

/-- A piece that starts with a string and goes on is a token with a quote within. -/
theorem hasQuote_of_pieceToken {blank body gap q : List Char} {c : Char} {t : Token}
    (hblank : Blank blank) (hbody : Quotable body) (hc : Text.isWhitespace c = false)
    (h : pieceToken num (blank ++ '"' :: (body ++ '"' :: (gap ++ c :: q))) = .ok t) :
    ∃ s, t = .str s ∧ HasQuote s.toList := by
  have htrim : Text.trim (blank ++ '"' :: (body ++ '"' :: (gap ++ c :: q))) =
      '"' :: (body ++ '"' :: (gap ++ c :: Text.trimEndWhere Text.isWhitespace q)) := by
    have := Text.trim_cons_append_cons (c := '"') (by decide) hc (body ++ '"' :: gap) q
    rw [Text.trim_blank_append hblank]
    simpa using this
  rw [pieceToken, htrim] at h
  split at h
  · next rest heq =>
    obtain rfl := (List.cons.inj heq).2
    split at h
    · next inner hinner =>
      cases h
      refine ⟨_, rfl, ?_⟩
      rw [String.toList_ofList]
      -- the last quote is another than the one that closes the string
      obtain ⟨w, d, hw⟩ : ∃ w d, gap ++ c :: Text.trimEndWhere Text.isWhitespace q = w ++ [d] := by
        rcases List.eq_nil_or_concat (gap ++ c :: Text.trimEndWhere Text.isWhitespace q) with h | h
        · simp at h
        · simpa using h
      rw [hw, Text.stripSuffix_eq_some, ← List.cons_append, ← List.append_assoc] at hinner
      exact ⟨body, w, hbody, (List.append_inj' hinner rfl).1.symm⟩
    · cases h
  · next heq => cases (List.cons.inj heq).1
  · next hne _ => exact absurd rfl (hne _)

/-- Where a value goes on after its closing quote, a token has a quote within. -/
theorem GoesOn.hasQuote {text : List Char} (hgo : GoesOn text) {ts : List Token}
    (h : tokenize num text = .ok ts) : ∃ s, Token.str s ∈ ts ∧ HasQuote s.toList := by
  cases hgo with
  | @intro front blank body gap after c hf hblank hbody hgap hc h1 h2 =>
    obtain ⟨s, t, hs, hq, hd, ht, rfl⟩ := tokenize_eq_ok.mp h
    rw [List.foldlM_append, except_bind_eq_ok] at hs
    obtain ⟨s1, hfront, hs⟩ := hs
    obtain ⟨htop, hpiece⟩ := hf.top hfront
    -- up to the character after the closing quote the lexer reads one piece
    rw [Lexer.foldlM_gap hblank s1 _ htop.inQuote,
      Lexer.foldlM_quoted hbody { s1 with piece := s1.piece ++ blank } _ htop.inQuote htop.escaped,
      Lexer.foldlM_gap hgap
        { s1 with piece := s1.piece ++ blank ++ '"' :: (body ++ ['"']) } _ htop.inQuote,
      List.foldlM_cons, except_bind_eq_ok] at hs
    obtain ⟨s2, hstep, hs⟩ := hs
    have hpiece2 : s2.piece = blank ++ '"' :: (body ++ '"' :: (gap ++ [c])) := by
      rcases Lexer.step_cases hstep with ⟨hp, -⟩ | ⟨-, -, t', -, -, ⟨rfl, -⟩ | ⟨rfl, -⟩⟩
      · rw [hp, hpiece]
        simp
      · exact absurd rfl h1
      · exact absurd rfl h2
    have hkept (t' : Token) (ht' : t' ∈ s.tokens ++ [t])
        (hstr : ∃ x, t' = .str x ∧ HasQuote x.toList) :
        ∃ x, Token.str x ∈ (if s.tokens ++ [t] = [.bare ""] then [] else s.tokens ++ [t]) ∧
          HasQuote x.toList := by
      obtain ⟨x, rfl, hx⟩ := hstr
      refine ⟨x, ?_, hx⟩
      split_ifs with hbare
      · rw [hbare] at ht'
        simp at ht'
      · exact ht'
    obtain ⟨q, hq' | ⟨t', ht', hpush⟩⟩ := Lexer.piece_pushed hs
    · have hp : pieceToken num (blank ++ '"' :: (body ++ '"' :: (gap ++ c :: q))) = .ok t := by
        rw [← ht, hq', hpiece2]
        simp
      exact hkept t (by simp) (hasQuote_of_pieceToken hblank hbody hc hp)
    · have hp : pieceToken num (blank ++ '"' :: (body ++ '"' :: (gap ++ c :: q))) = .ok t' := by
        rw [← hpush, hpiece2]
        simp
      exact hkept t' (List.mem_append_left _ ht') (hasQuote_of_pieceToken hblank hbody hc hp)

/-! ## Where a quote within comes from -/

/-- Where a text has been read to: from the last comma on, or from a brace that follows a value. -/
structure Reading (num : ℕ) (text : List Char) (s : Lexer) (front : List Char) (s0 : Lexer) :
    Prop where
  text_eq : text = front ++ s.piece
  front : Front front ∨ ∃ p, s.piece = '\x7b' :: p
  top : s0.Top
  reads : s.piece.foldlM (Lexer.step num) s0 = .ok s
  /-- Outside quotes and braces the piece goes on with no comma, and with a brace only at its start. -/
  whole : ∀ x c y, s.piece = x ++ c :: y → Closed x → c ≠ ',' ∧ (c = '\x7b' → Blank x)

theorem Blank.closed {s : List Char} (h : Blank s) : Closed s := by
  apply closed_of_plain
  intro c hc
  obtain ⟨h1, h2, h3, -⟩ := plain_of_isWhitespace (h c hc)
  exact ⟨h1, h2, h3⟩

/-- What is not white space has something in front of it, white space at most. -/
theorem exists_gap {s : List Char} {d : Char} (hd : d ∈ s) (hw : Text.isWhitespace d = false) :
    ∃ gap c after, s = gap ++ c :: after ∧ Blank gap ∧ Text.isWhitespace c = false := by
  induction s with
  | nil => exact nomatch hd
  | cons e s ih =>
    by_cases he : Text.isWhitespace e = true
    · have hmem : d ∈ s := by
        rcases List.mem_cons.mp hd with rfl | hmem
        · exact absurd he (by simp [hw])
        · exact hmem
      obtain ⟨gap, c, after, rfl, hgap, hc⟩ := ih hmem
      refine ⟨e :: gap, c, after, rfl, ?_, hc⟩
      intro x hx
      rcases List.mem_cons.mp hx with rfl | hx
      exacts [he, hgap x hx]
    · exact ⟨[], e, s, rfl, fun _ h => absurd h List.not_mem_nil, by simpa using he⟩

theorem pieceToken_eq_str {piece : List Char} {x : String}
    (h : pieceToken num piece = .ok (.str x)) :
    Text.trim piece = '"' :: (x.toList ++ ['"']) := by
  unfold pieceToken at h
  split at h
  · next rest heq =>
    split at h
    · next inner hinner =>
      cases h
      rw [heq, Text.stripSuffix_eq_some.mp hinner, String.toList_ofList]
    · exact nomatch h
  · split at h <;> exact nomatch h
  · exact nomatch h

/-- A piece whose token has a quote within starts with a string and goes on. -/
theorem Reading.goesOn {text front : List Char} {s s0 : Lexer} (h : Reading num text s front s0)
    {x : String} (ht : pieceToken num s.piece = .ok (.str x)) (hx : HasQuote x.toList) :
    GoesOn text := by
  obtain ⟨blank, b, hblank, -, hpiece⟩ := Text.exists_trim s.piece
  obtain ⟨body, rest, hbody, hx⟩ := hx
  have hpiece : s.piece = blank ++ '"' :: (body ++ '"' :: (rest ++ '"' :: b)) := by
    rw [hpiece, pieceToken_eq_str ht, hx]
    simp
  obtain ⟨gap, c, after, hrest, hgap, hc⟩ :=
    exists_gap (s := rest ++ '"' :: b) (d := '"') (by simp) (by decide)
  rw [hrest] at hpiece
  have hclosed : Closed (blank ++ '"' :: (body ++ '"' :: gap)) :=
    (Blank.closed hblank).append (.quoted hbody (Blank.closed hgap))
  obtain ⟨hcomma, hbrace⟩ := h.whole _ c after (by rw [hpiece]; simp) hclosed
  have hfront : Front front := by
    rcases h.front with hfront | ⟨p, hp⟩
    · exact hfront
    · rw [hpiece] at hp
      cases blank with
      | nil => exact nomatch (List.cons.inj hp).1
      | cons e blank =>
        rw [List.cons_append] at hp
        rw [(List.cons.inj hp).1] at hblank
        exact absurd (hblank '\x7b' List.mem_cons_self) (by decide)
  rw [h.text_eq, hpiece]
  refine .intro hfront hblank hbody hgap hc hcomma fun hopen => ?_
  exact absurd (hbrace hopen '"' (by simp)) (by decide)

/-- Outside quotes and braces a comma ends the piece, and so does a brace after a value. -/
theorem Lexer.Top.kept {s s' : Lexer} {c : Char} (hs : s.Top) (h : Lexer.step num s c = .ok s')
    (htok : s'.tokens = s.tokens) : c ≠ ',' ∧ (c = '\x7b' → Blank s.piece) := by
  have hpushed {s1 : Lexer} (hpush : s.pushPiece num = .ok s1) (h1 : s1.tokens = s.tokens) :
      False := by
    obtain ⟨t, -, rfl⟩ := Lexer.pushPiece_cases hpush
    simp at h1
  constructor
  · rintro rfl
    rw [Lexer.step, if_neg (by simp [hs.inQuote]), if_neg (by decide), if_neg (by decide),
      if_neg (by decide), if_pos ⟨rfl, hs.braceDepth⟩] at h
    exact hpushed h htok
  · rintro rfl
    by_contra hblank
    have htrim : Text.trim s.piece ≠ [] := fun htrim => hblank (Text.trim_eq_nil.mp htrim)
    rw [Lexer.step, if_neg (by simp [hs.inQuote]), if_neg (by decide), if_pos rfl,
      if_pos ⟨hs.braceDepth, htrim⟩] at h
    obtain ⟨s1, hpush, h⟩ := except_bind_eq_ok.mp h
    cases h
    exact hpushed hpush htok

theorem Reading.step {text front : List Char} {s s0 s' : Lexer} {c : Char}
    (h : Reading num text s front s0)
    (hrun : text.foldlM (Lexer.step num) Lexer.start = .ok s)
    (hstep : Lexer.step num s c = .ok s') : ∃ front s0, Reading num (text ++ [c]) s' front s0 := by
  have hstart : Lexer.start.Top := ⟨rfl, rfl, rfl⟩
  rcases Lexer.step_cases hstep with ⟨hp, htok⟩ | ⟨hq, hd, t, -, -, hcut⟩
  · -- the character belongs to the piece
    refine ⟨front, s0, ?_, ?_, h.top, ?_, ?_⟩
    · rw [h.text_eq, hp, List.append_assoc]
    · refine h.front.imp_right ?_
      rintro ⟨p, hp'⟩
      exact ⟨p ++ [c], by rw [hp, hp', List.cons_append]⟩
    · rw [hp, List.foldlM_append, h.reads]
      change List.foldlM (Lexer.step num) s [c] = _
      rw [List.foldlM_cons, hstep]
      rfl
    · intro x d y hx hclosed
      rw [hp] at hx
      rcases List.eq_nil_or_concat y with rfl | ⟨y, e, rfl⟩
      · obtain ⟨rfl, hcd⟩ := List.append_inj' hx rfl
        obtain rfl := (List.cons.inj hcd).1
        obtain ⟨hq, he, hd⟩ := hclosed.foldlM h.reads h.top.inQuote h.top.escaped
        exact Lexer.Top.kept ⟨hq, he, hd.trans h.top.braceDepth⟩ hstep htok
      · rw [List.concat_eq_append, ← List.cons_append, ← List.append_assoc] at hx
        exact h.whole x d y (List.append_inj' hx rfl).1 hclosed
  · have he : s.escaped = false := by
      have hclosed := hstart.closed hrun hq hd
      exact (hclosed.foldlM hrun rfl rfl).2.1
    have htop : Lexer.Top { s with tokens := s.tokens ++ [t], piece := [] } := ⟨hq, he, hd⟩
    rcases hcut with ⟨rfl, rfl⟩ | ⟨rfl, -, rfl⟩
    · -- a comma
      refine ⟨text ++ [','], _, (List.append_nil _).symm, .inl (.inr ⟨text, rfl, ?_⟩), htop, rfl, ?_⟩
      · exact hstart.closed hrun hq hd
      · intro x c y hx
        simp at hx
    · -- a brace after a value
      refine ⟨text, _, rfl, .inr ⟨[], rfl⟩, htop, ?_, ?_⟩
      · have hopen : Lexer.step num { s with tokens := s.tokens ++ [t], piece := [] } '\x7b' =
            .ok { s with tokens := s.tokens ++ [t], piece := ['\x7b'], braceDepth := 1 } := by
          rw [Lexer.step, if_neg (by simp [hq]), if_neg (by decide), if_pos rfl,
            if_neg (fun hb => hb.2 rfl), hd]
          rfl
        rw [List.foldlM_cons, hopen]
        rfl
      · intro x c y hx _
        cases x with
        | nil =>
          obtain ⟨rfl, -⟩ := List.cons.inj hx
          exact ⟨by decide, fun _ _ hc => absurd hc List.not_mem_nil⟩
        | cons d x => simp at hx

/-- The invariant of a run: the text is read from some comma on, and a quote within a token comes from
a value that goes on. -/
theorem reading {text : List Char} {s : Lexer}
    (h : text.foldlM (Lexer.step num) Lexer.start = .ok s) :
    (∃ front s0, Reading num text s front s0) ∧
      ∀ x, Token.str x ∈ s.tokens → HasQuote x.toList → GoesOn text := by
  induction text using List.reverseRecOn generalizing s with
  | nil =>
    cases h
    refine ⟨⟨[], Lexer.start, rfl, .inl (.inl rfl), ⟨rfl, rfl, rfl⟩, rfl, ?_⟩, ?_⟩
    · intro x c y hx
      simp [Lexer.start] at hx
    · intro x hx
      cases hx
  | append_singleton text c ih =>
    have hrun := h
    rw [List.foldlM_append, except_bind_eq_ok] at h
    obtain ⟨s1, h1, h⟩ := h
    obtain ⟨s2, hstep, h⟩ := except_bind_eq_ok.mp h
    cases h
    obtain ⟨⟨front, s0, hreading⟩, htokens⟩ := ih h1
    refine ⟨hreading.step h1 hstep, ?_⟩
    intro x hx hquote
    rcases Lexer.step_cases hstep with ⟨-, htok⟩ | ⟨-, -, t, ht, htok, -⟩
    · rw [htok] at hx
      exact (htokens x hx hquote).append [c]
    · rw [htok, List.mem_append, List.mem_singleton] at hx
      rcases hx with hx | rfl
      · exact (htokens x hx hquote).append [c]
      · exact (hreading.goesOn ht hquote).append [c]

/-- **The strings of an accepted text are single strings, without a quote within, exactly when no
value goes on after its closing quote.** -/
theorem strings_whole_iff {text : List Char} {ts : List Token} (h : tokenize num text = .ok ts) :
    (∀ s, Token.str s ∈ ts → ¬ HasQuote s.toList) ↔ ¬ GoesOn text := by
  constructor
  · intro hwhole hgo
    obtain ⟨s, hs, hquote⟩ := hgo.hasQuote h
    exact hwhole s hs hquote
  · intro hno x hx hquote
    obtain ⟨s, t, hs, -, -, ht, rfl⟩ := tokenize_eq_ok.mp h
    obtain ⟨⟨front, s0, hreading⟩, htokens⟩ := reading hs
    apply hno
    split_ifs at hx
    · exact nomatch hx
    · rcases List.mem_append.mp hx with hx | hx
      · exact htokens x hx hquote
      · rw [List.mem_singleton] at hx
        exact hreading.goesOn (hx ▸ ht) hquote

/-- Two labels with a comma between them. -/
theorem strings_whole_iff_twoLabels :
    tokenize 1 "\"CAN\", \"msDroid\"".toList = .ok [.str "CAN", .str "msDroid"] ∧
      ((∀ s, Token.str s ∈ [Token.str "CAN", .str "msDroid"] → ¬ HasQuote s.toList) ↔
        ¬ GoesOn "\"CAN\", \"msDroid\"".toList) :=
  ⟨by decide +kernel, @strings_whole_iff 1 _ _ (by decide +kernel)⟩

/-- The values of `secondarySerialProtocol`, as shipped: a full stop stands where a comma should. -/
def protocolValues : String :=
  "bits,   U08,     0, [3:6], \"Generic (Fixed List)\". \"Generic (ini File)\". \"CAN\", " ++
    "\"msDroid\", \"Real Dash\", \"Tuner Studio\", \"INVALID\", \"INVALID\", \"INVALID\", " ++
    "\"INVALID\", \"INVALID\", \"INVALID\", \"INVALID\", \"INVALID\", \"INVALID\", \"INVALID\""

/-- **The first three labels are one.** -/
theorem protocol_labels_merge :
    ¬ ∀ num text ts, tokenize num text = .ok ts →
      ∀ s, Token.str s ∈ ts → ¬ HasQuote s.toList := by
  intro h
  have hts : ∃ ts, tokenize 836 protocolValues.toList = .ok ts ∧
      Token.str "Generic (Fixed List)\". \"Generic (ini File)\". \"CAN" ∈ ts :=
    ⟨[.bare "bits", .bare "U08", .bare "0", .bare "[3:6]",
      .str "Generic (Fixed List)\". \"Generic (ini File)\". \"CAN", .str "msDroid",
      .str "Real Dash", .str "Tuner Studio"] ++ List.replicate 10 (.str "INVALID"),
      by decide +kernel, by simp⟩
  obtain ⟨ts, hts, hmem⟩ := hts
  refine h 836 _ ts hts _ hmem ⟨"Generic (Fixed List)".toList, _, ?_, rfl⟩
  exact quotable_of_plain (List.all_iff_forall_prop.mp (by decide))

end RustyTune.TsIni
