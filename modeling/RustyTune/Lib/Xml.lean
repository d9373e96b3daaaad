import RustyTune.Lib.Recoding

/-!
# XML, as a pull parser delivers it

A document is a sequence of tags, each with the text that follows it. In the text of a document the
values of attributes and the texts are escaped; a parser delivers them unescaped.

* `Document.render`: the text of a document; `Document.events`: what is delivered of it.
* `Balanced`: a part of a document that closes what it opens.
* **`apply_render`**: the text of a document, recoded, is the text of the recoded document.
* `Reader`: a pull parser, which delivers the events of every well-formed document.
* **`scan_render`**: `scan` does; `scanner` is the reader.
-/

namespace RustyTune.Xml

/-! ## Escapes -/

def escapeChar (c : Char) : List Char :=
  if c = '&' then "&amp;".toList
  else if c = '<' then "&lt;".toList
  else if c = '>' then "&gt;".toList
  else if c = '"' then "&quot;".toList
  else [c]

/-- The text with the standard escapes. -/
def escape (s : List Char) : List Char := s.flatMap escapeChar

/-- What an escaped text stands for, if every `&` begins a standard escape. -/
def unescape : List Char → Option (List Char)
  | [] => some []
  | '&' :: 'a' :: 'm' :: 'p' :: ';' :: s => (unescape s).map ('&' :: ·)
  | '&' :: 'l' :: 't' :: ';' :: s => (unescape s).map ('<' :: ·)
  | '&' :: 'g' :: 't' :: ';' :: s => (unescape s).map ('>' :: ·)
  | '&' :: 'q' :: 'u' :: 'o' :: 't' :: ';' :: s => (unescape s).map ('"' :: ·)
  | c :: s => if c = '&' then none else (unescape s).map (c :: ·)

/-- The character has an escape of its own. -/
def isSpecial (c : Char) : Bool := c == '&' || c == '<' || c == '>' || c == '"'

theorem escapeChar_of_plain {c : Char} (h : isSpecial c = false) : escapeChar c = [c] := by
  simp only [isSpecial, Bool.or_eq_false_iff, beq_eq_false_iff_ne] at h
  simp [escapeChar, h]

theorem escape_of_plain {s : List Char} (h : ∀ c ∈ s, isSpecial c = false) : escape s = s := by
  induction s with
  | nil => rfl
  | cons c s ih =>
    rw [escape, List.flatMap_cons, escapeChar_of_plain (h c List.mem_cons_self)]
    exact congrArg (c :: ·) (ih fun d hd => h d (List.mem_cons_of_mem c hd))

theorem escape_append (s t : List Char) : escape (s ++ t) = escape s ++ escape t :=
  List.flatMap_append

/-- Of the special characters only the ampersand is in an escaped text. -/
theorem mem_escape {s : List Char} {c : Char} (h : c ∈ escape s) : c ≠ '<' ∧ c ≠ '>' ∧ c ≠ '"' := by
  obtain ⟨d, -, hc⟩ := List.mem_flatMap.mp h
  rw [escapeChar] at hc
  split_ifs at hc with h1 h2 h3 h4
  · refine ⟨?_, ?_, ?_⟩ <;> rintro rfl <;> exact absurd hc (by decide)
  · refine ⟨?_, ?_, ?_⟩ <;> rintro rfl <;> exact absurd hc (by decide)
  · refine ⟨?_, ?_, ?_⟩ <;> rintro rfl <;> exact absurd hc (by decide)
  · refine ⟨?_, ?_, ?_⟩ <;> rintro rfl <;> exact absurd hc (by decide)
  · obtain rfl := List.mem_singleton.mp hc
    exact ⟨h2, h3, h4⟩

theorem escape_eq_nil {s : List Char} : escape s = [] ↔ s = [] := by
  cases s with
  | nil => exact iff_of_true rfl rfl
  | cons c s =>
    refine iff_of_false ?_ (List.cons_ne_nil c s)
    rw [escape, List.flatMap_cons, List.append_eq_nil_iff, escapeChar]
    rintro ⟨h, -⟩
    split_ifs at h <;> exact absurd h (by decide)

theorem unescape_cons {c : Char} (hc : c ≠ '&') (s : List Char) :
    unescape (c :: s) = (unescape s).map (c :: ·) := by
  rw [unescape, if_neg hc]
  all_goals
    intros
    contradiction

/-- **An escaped text reads back.** -/
theorem unescape_escape (s : List Char) : unescape (escape s) = some s := by
  induction s with
  | nil => rfl
  | cons c s ih =>
    rw [escape, List.flatMap_cons, ← escape, escapeChar]
    split_ifs with h1 h2 h3 h4
    · rw [h1]
      change (unescape (escape s)).map _ = _
      rw [ih]
      rfl
    · rw [h2]
      change (unescape (escape s)).map _ = _
      rw [ih]
      rfl
    · rw [h3]
      change (unescape (escape s)).map _ = _
      rw [ih]
      rfl
    · rw [h4]
      change (unescape (escape s)).map _ = _
      rw [ih]
      rfl
    · rw [List.singleton_append, unescape_cons h1, ih]
      rfl

/-! ## Documents -/

structure Element where
  name : String
  attributes : List (String × String)
  deriving DecidableEq, Repr

inductive Tag
  /-- `<?xml version="1.0"?>` -/
  | declaration (e : Element)
  | start (e : Element)
  | empty (e : Element)
  | stop (name : String)
  deriving DecidableEq, Repr

/-- Each tag with the text that follows it. -/
abbrev Document : Type := List (Tag × String)

/-- An attribute and the blank before it. -/
def renderAttribute (a : String × String) : List Char :=
  ' ' :: (a.1.toList ++ '=' :: '"' :: (escape a.2.toList ++ ['"']))

def Element.render (e : Element) : List Char := e.name.toList ++ e.attributes.flatMap renderAttribute

/-- What stands between the angle brackets. -/
def Tag.content : Tag → List Char
  | .declaration e => '?' :: (e.render ++ ['?'])
  | .start e => e.render
  | .empty e => e.render ++ ['/']
  | .stop name => '/' :: name.toList

def Tag.render (tag : Tag) : List Char := '<' :: (tag.content ++ ['>'])

def Document.render (d : Document) : List Char :=
  d.flatMap fun (tag, text) => tag.render ++ escape text.toList

/-- What a pull parser delivers; where a value cannot be unescaped, it has none. -/
inductive Event
  | declaration
  | start (name : String) (attributes : List (String × Option String))
  | empty (name : String) (attributes : List (String × Option String))
  | stop (name : String)
  | text (unescaped : Except String String)

def Element.values (e : Element) : List (String × Option String) :=
  e.attributes.map fun (key, value) => (key, some value)

def Tag.event : Tag → Event
  | .declaration _ => .declaration
  | .start e => .start e.name e.values
  | .empty e => .empty e.name e.values
  | .stop name => .stop name

/-- What is delivered of a document. -/
def Document.events (d : Document) : List Event :=
  d.flatMap fun (tag, text) => tag.event :: if text = "" then [] else [.text (.ok text)]

/-- A name of letters and digits. -/
def IsName (s : String) : Prop := s ≠ "" ∧ ∀ c ∈ s.toList, c.isAlphanum = true

/-- Names of letters and digits; no attribute is given twice. -/
structure Element.Proper (e : Element) : Prop where
  name : IsName e.name
  keys : ∀ a ∈ e.attributes, IsName a.1
  distinct : (e.attributes.map Prod.fst).Nodup

instance (s : String) : Decidable (IsName s) :=
  @instDecidableAnd _ _ _ (List.decidableBAll _ s.toList)

theorem Element.Proper.of_keys {e : Element} (keys : List String) (hname : IsName e.name)
    (h : ∀ k ∈ keys, IsName k) (hdistinct : keys.Nodup) (hkeys : e.attributes.map Prod.fst = keys) :
    e.Proper :=
  ⟨hname, fun a ha => h a.1 (hkeys ▸ List.mem_map_of_mem ha), hkeys ▸ hdistinct⟩

def Tag.Proper : Tag → Prop
  | .declaration e | .start e | .empty e => e.Proper
  | .stop name => IsName name

/-- Within the elements that are open the tags close what they open. -/
def Nested : List String → Document → Prop
  | opened, [] => opened = []
  | _, (.declaration _, _) :: _ => False
  | opened, (.start e, _) :: d => e.Proper ∧ Nested (e.name :: opened) d
  | opened, (.empty e, _) :: d => e.Proper ∧ Nested opened d
  | opened, (.stop name, _) :: d => IsName name ∧ ∃ rest, opened = name :: rest ∧ Nested rest d

/-- Proper names, and tags that are nested; a declaration may come first. -/
def Document.WellFormed : Document → Prop
  | (.declaration e, _) :: d => e.Proper ∧ Nested [] d
  | d => Nested [] d

/-! ## Parts of documents -/

theorem render_append (d d' : Document) :
    Document.render (d ++ d') = d.render ++ Document.render d' := List.flatMap_append

theorem events_append (d d' : Document) :
    Document.events (d ++ d') = d.events ++ Document.events d' := List.flatMap_append

/-- The part closes what it opens. -/
def Balanced (d : Document) : Prop := ∀ opened rest, Nested opened rest → Nested opened (d ++ rest)

theorem balanced_nil : Balanced [] := fun _ _ h => h

theorem Balanced.append {d d' : Document} (hd : Balanced d) (hd' : Balanced d') :
    Balanced (d ++ d') := by
  intro opened rest h
  rw [List.append_assoc]
  exact hd _ _ (hd' _ _ h)

theorem balanced_flatMap {α : Type} {f : α → Document} {l : List α} (h : ∀ a ∈ l, Balanced (f a)) :
    Balanced (l.flatMap f) := by
  induction l with
  | nil => exact balanced_nil
  | cons a l ih =>
    rw [List.flatMap_cons]
    exact (h a List.mem_cons_self).append (ih fun b hb => h b (List.mem_cons_of_mem a hb))

theorem balanced_empty {e : Element} (he : e.Proper) (text : String) : Balanced [(.empty e, text)] :=
  fun _ _ h => ⟨he, h⟩

theorem Balanced.enclose {d : Document} (hd : Balanced d) {e : Element} (he : e.Proper)
    (text text' : String) : Balanced ((.start e, text) :: (d ++ [(.stop e.name, text')])) := by
  intro opened rest h
  have hrest := hd (e.name :: opened) ((.stop e.name, text') :: rest) ⟨he.name, opened, rfl, h⟩
  rw [List.cons_append, List.append_assoc]
  exact ⟨he, hrest⟩

/-! ## Recoding -/

section Recode

variable (r : Text.Recoding)

def Element.recode (e : Element) : Element :=
  { e with attributes := e.attributes.map fun (key, value) => (key, r.string value) }

def Tag.recode : Tag → Tag
  | .declaration e => .declaration (e.recode r)
  | .start e => .start (e.recode r)
  | .empty e => .empty (e.recode r)
  | .stop name => .stop name

/-- The document with its values and texts recoded. -/
def Document.recode (d : Document) : Document :=
  d.map fun (tag, text) => (tag.recode r, r.string text)

theorem toNat_of_isSpecial {c : Char} (h : isSpecial c = true) : c.toNat < 128 := by
  simp only [isSpecial, Bool.or_eq_true, beq_iff_eq] at h
  rcases h with ((rfl | rfl) | rfl) | rfl <;> decide

theorem isAscii_escapeChar {c : Char} (h : c.toNat < 128) : Text.IsAscii (escapeChar c) := by
  rw [escapeChar]
  split_ifs
  all_goals first | decide | exact fun d hd => List.mem_singleton.mp hd ▸ h

theorem apply_escape (s : List Char) : r.apply (escape s) = escape (r.apply s) := by
  induction s with
  | nil => rfl
  | cons c s ih =>
    have hsplit : escape (c :: s) = escapeChar c ++ escape s := List.flatMap_cons
    rw [hsplit, r.apply_append, ih]
    by_cases hc : c.toNat < 128
    · rw [r.apply_of_isAscii (isAscii_escapeChar hc), r.apply_cons_of_ascii hc]
      rfl
    · have hplain : ∀ {d : Char}, 128 ≤ d.toNat → isSpecial d = false := fun hd => by
        by_contra hno
        have := toNat_of_isSpecial (eq_true_of_ne_false hno)
        omega
      have hother := r.other c (Nat.le_of_not_lt hc)
      rw [escapeChar_of_plain (hplain (Nat.le_of_not_lt hc))]
      change r.char c ++ [] ++ _ = escape (r.char c ++ r.apply s)
      rw [List.append_nil, escape_append, escape_of_plain fun d hd => hplain (hother d hd)]

theorem isAscii_of_isName {s : String} (h : IsName s) : Text.IsAscii s.toList := by
  intro c hc
  have halnum : ((decide (c.val ≥ 65 ∧ c.val ≤ 90) || (decide (c.val ≥ 97) && decide (c.val ≤ 122))) ||
      (decide (c.val ≥ 48) && decide (c.val ≤ 57))) = true := h.2 c hc
  simp only [Bool.or_eq_true, Bool.and_eq_true, decide_eq_true_eq, ge_iff_le,
    UInt32.le_iff_toNat_le, Char.toNat_val] at halnum
  change ((65 ≤ c.toNat ∧ c.toNat ≤ 90) ∨ (97 ≤ c.toNat ∧ c.toNat ≤ 122)) ∨
    (48 ≤ c.toNat ∧ c.toNat ≤ 57) at halnum
  omega

theorem Element.Proper.recode {e : Element} (he : e.Proper) : (e.recode r).Proper := by
  refine ⟨he.name, fun a ha => ?_, ?_⟩
  · obtain ⟨b, hb, rfl⟩ := List.mem_map.mp ha
    exact he.keys b hb
  · rw [Element.recode, List.map_map]
    exact he.distinct

theorem apply_renderElement {e : Element} (he : e.Proper) :
    r.apply e.render = (e.recode r).render := by
  rw [Element.render, r.apply_append, r.apply_of_isAscii (isAscii_of_isName he.name), Element.render,
    Element.recode, List.flatMap_map]
  congr 1
  obtain ⟨name, as⟩ := e
  obtain ⟨-, has, -⟩ := he
  dsimp only at has ⊢
  induction as with
  | nil => rfl
  | cons a as ih =>
    obtain ⟨ha, has⟩ := List.forall_mem_cons.mp has
    rw [List.flatMap_cons, r.apply_append, ih has, List.flatMap_cons]
    congr 1
    rw [renderAttribute, r.apply_cons_of_ascii (by decide), r.apply_append,
      r.apply_of_isAscii (isAscii_of_isName ha), r.apply_cons_of_ascii (by decide),
      r.apply_cons_of_ascii (by decide), r.apply_append, apply_escape,
      r.apply_cons_of_ascii (by decide), renderAttribute, Text.Recoding.string, String.toList_ofList]
    rfl

theorem apply_renderTag {tag : Tag} (h : tag.Proper) : r.apply tag.render = (tag.recode r).render := by
  have hcontent : r.apply tag.content = (tag.recode r).content := by
    cases tag with
    | declaration e =>
      change r.apply ('?' :: (e.render ++ ['?'])) = '?' :: ((e.recode r).render ++ ['?'])
      rw [r.apply_cons_of_ascii (by decide), r.apply_append, apply_renderElement r h,
        r.apply_of_isAscii (by decide)]
    | start e => exact apply_renderElement r h
    | empty e =>
      change r.apply (e.render ++ ['/']) = (e.recode r).render ++ ['/']
      rw [r.apply_append, apply_renderElement r h, r.apply_of_isAscii (by decide)]
    | stop name =>
      change r.apply ('/' :: name.toList) = '/' :: name.toList
      rw [r.apply_cons_of_ascii (by decide), r.apply_of_isAscii (isAscii_of_isName h)]
  rw [Tag.render, r.apply_cons_of_ascii (by decide), r.apply_append, hcontent,
    r.apply_of_isAscii (by decide)]
  rfl

/-- **A text that is recoded is the text of the recoded document.** -/
theorem apply_render {d : Document} (h : ∀ piece ∈ d, piece.1.Proper) :
    r.apply d.render = (d.recode r).render := by
  induction d with
  | nil => rfl
  | cons piece d ih =>
    obtain ⟨tag, text⟩ := piece
    obtain ⟨htag, hd⟩ := List.forall_mem_cons.mp h
    have hrender : Document.render ((tag, text) :: d) =
        tag.render ++ escape text.toList ++ Document.render d := by simp [Document.render]
    have hrecode : Document.render (Document.recode r ((tag, text) :: d)) =
        (tag.recode r).render ++ escape (r.string text).toList ++ (Document.recode r d).render := by
      simp [Document.render, Document.recode]
    rw [hrender, hrecode, r.apply_append, r.apply_append, ih hd, apply_renderTag r htag, apply_escape,
      Text.Recoding.string, String.toList_ofList]

theorem Nested.recode {opened : List String} {d : Document} (h : Nested opened d) :
    Nested opened (d.recode r) := by
  induction d generalizing opened with
  | nil => exact h
  | cons piece d ih =>
    obtain ⟨tag, text⟩ := piece
    cases tag with
    | declaration e => exact h.elim
    | start e => exact ⟨h.1.recode r, ih h.2⟩
    | empty e => exact ⟨h.1.recode r, ih h.2⟩
    | stop name =>
      obtain ⟨hname, rest, hopened, hrest⟩ := h
      exact ⟨hname, rest, hopened, ih hrest⟩

theorem Document.WellFormed.recode {d : Document} (h : d.WellFormed) : (d.recode r).WellFormed := by
  rcases d with - | ⟨⟨tag, text⟩, d⟩
  · exact h
  · cases tag with
    | declaration e => exact ⟨h.1.recode r, h.2.recode r⟩
    | start e => exact Nested.recode r h
    | empty e => exact Nested.recode r h
    | stop name => exact Nested.recode r h

end Recode

/-- A pull parser: what it delivers up to the end of a text, an error among it. -/
structure Reader where
  read : List Char → List (Except String Event)
  read_render : ∀ d : Document, d.WellFormed → read d.render = d.events.map .ok

/-! ## A reader -/

/-- The attributes of a tag, `fuel` at most. -/
def scanAttributes : ℕ → List Char → List (String × Option String)
  | 0, _ => []
  | _, [] => []
  | fuel + 1, _ :: s =>
    let value := (s.dropWhile (· != '=')).drop 2
    (String.ofList (s.takeWhile (· != '=')),
      (unescape (value.takeWhile (· != '"'))).map String.ofList) ::
      scanAttributes fuel ((value.dropWhile (· != '"')).drop 1)

/-- The name and the attributes of an element. -/
def scanElement (s : List Char) : String × List (String × Option String) :=
  (String.ofList (s.takeWhile (· != ' ')), scanAttributes s.length (s.dropWhile (· != ' ')))

def scanTag (content : List Char) : Event :=
  match content with
  | '?' :: _ => .declaration
  | '/' :: name => .stop (String.ofList name)
  | _ =>
    if content.getLast? = some '/' then
      .empty (scanElement content.dropLast).1 (scanElement content.dropLast).2
    else .start (scanElement content).1 (scanElement content).2

def scanText (s : List Char) : Event :=
  .text (match unescape s with
    | some t => .ok (String.ofList t)
    | none => .error "malformed escape")

/-- The events of a text, `fuel` at most. -/
def scanFrom : ℕ → List Char → List Event
  | 0, _ => []
  | _, [] => []
  | fuel + 1, c :: s =>
    if c = '<' then
      scanTag (s.takeWhile (· != '>')) :: scanFrom fuel ((s.dropWhile (· != '>')).drop 1)
    else
      scanText ((c :: s).takeWhile (· != '<')) :: scanFrom fuel ((c :: s).dropWhile (· != '<'))

/-- A reader that tells tags and texts apart by the angle brackets. -/
def scan (s : List Char) : List Event := scanFrom s.length s

theorem takeWhile_stop {p : Char → Bool} {s : List Char} (hs : ∀ c ∈ s, p c = true) {d : Char}
    (hd : p d = false) (t : List Char) :
    (s ++ d :: t).takeWhile p = s ∧ (s ++ d :: t).dropWhile p = d :: t := by
  rw [List.takeWhile_append_of_pos hs, List.dropWhile_append_of_pos hs]
  simp [hd]

section Scan

variable {e : Element}

theorem IsName.ne {s : String} (h : IsName s) {c d : Char} (hc : c ∈ s.toList)
    (hd : d.isAlphanum = false) : c ≠ d := by
  rintro rfl
  exact absurd (h.2 c hc) (by simp [hd])

theorem scanAttributes_render (as : List (String × String)) (has : ∀ a ∈ as, IsName a.1) {fuel : ℕ}
    (hfuel : as.length ≤ fuel) :
    scanAttributes fuel (as.flatMap renderAttribute) = as.map fun (key, value) => (key, some value) := by
  induction as generalizing fuel with
  | nil => cases fuel <;> rfl
  | cons a as ih =>
    obtain ⟨key, value⟩ := a
    cases fuel with
    | zero => exact absurd hfuel (by simp)
    | succ fuel =>
      have hkey := takeWhile_stop (p := (· != '=')) (d := '=')
        (fun c hc => bne_iff_ne.mpr ((has (key, value) List.mem_cons_self).ne hc (by decide)))
        (by decide) ('"' :: (escape value.toList ++ '"' :: as.flatMap renderAttribute))
      have hvalue := takeWhile_stop (p := (· != '"')) (s := escape value.toList) (d := '"')
        (fun c hc => bne_iff_ne.mpr (mem_escape hc).2.2) (by decide) (as.flatMap renderAttribute)
      have hrender : (((key, value) :: as).flatMap renderAttribute) = ' ' :: (key.toList ++
          '=' :: ('"' :: (escape value.toList ++ '"' :: as.flatMap renderAttribute))) := by
        simp [renderAttribute]
      rw [hrender, scanAttributes, hkey.1, hkey.2, List.drop_succ_cons, List.drop_succ_cons,
        List.drop_zero, hvalue.1, hvalue.2, List.drop_succ_cons, List.drop_zero, unescape_escape,
        ih (fun a ha => has a (List.mem_cons_of_mem _ ha)) (by simpa using hfuel)]
      simp

theorem length_le_flatMap_renderAttribute (as : List (String × String)) :
    as.length ≤ (as.flatMap renderAttribute).length := by
  induction as with
  | nil => exact Nat.le_refl 0
  | cons a as ih =>
    rw [List.flatMap_cons, List.length_append, List.length_cons, renderAttribute, List.length_cons]
    omega

theorem scanElement_render (he : e.Proper) : scanElement e.render = (e.name, e.values) := by
  have hname : ∀ c ∈ e.name.toList, (c != ' ') = true :=
    fun c hc => bne_iff_ne.mpr (he.name.ne hc (by decide))
  have hsplit : e.render.takeWhile (· != ' ') = e.name.toList ∧
      e.render.dropWhile (· != ' ') = e.attributes.flatMap renderAttribute := by
    rw [Element.render]
    cases has : e.attributes with
    | nil =>
      rw [List.flatMap_nil, List.append_nil]
      exact ⟨List.takeWhile_eq_self_iff.mpr hname, List.dropWhile_eq_nil_iff.mpr hname⟩
    | cons a as =>
      rw [List.flatMap_cons, renderAttribute, List.cons_append]
      exact takeWhile_stop hname (by decide) _
  have hlength : e.attributes.length ≤ e.render.length := by
    rw [Element.render, List.length_append]
    exact (length_le_flatMap_renderAttribute _).trans (Nat.le_add_left _ _)
  rw [scanElement, hsplit.1, hsplit.2, scanAttributes_render _ he.keys hlength, String.ofList_toList]
  rfl

theorem notMem_renderAttribute {a : String × String} (ha : IsName a.1) :
    ∀ c ∈ renderAttribute a, c ≠ '>' := by
  intro c hc
  simp only [renderAttribute, List.mem_cons, List.mem_append, List.not_mem_nil, or_false] at hc
  rcases hc with rfl | hc | rfl | rfl | hc | rfl
  · decide
  · exact ha.ne hc (by decide)
  · decide
  · decide
  · exact (mem_escape hc).2.1
  · decide

theorem notMem_render (he : e.Proper) : ∀ c ∈ e.render, c ≠ '>' := by
  intro c hc
  rcases List.mem_append.mp hc with hc | hc
  · exact he.name.ne hc (by decide)
  · obtain ⟨a, ha, hc⟩ := List.mem_flatMap.mp hc
    exact notMem_renderAttribute (he.keys a ha) c hc

theorem render_ne_nil (he : e.Proper) : ∃ c s, e.render = c :: s ∧ c.isAlphanum = true := by
  rcases hname : e.name.toList with - | ⟨c, s⟩
  · exact absurd (String.toList_eq_nil_iff.mp hname) he.name.1
  · refine ⟨c, s ++ e.attributes.flatMap renderAttribute, ?_, he.name.2 c ?_⟩
    · rw [Element.render, hname, List.cons_append]
    · rw [hname]
      exact List.mem_cons_self

/-- A name or a value ends a start tag, not a slash. -/
theorem getLast?_render (he : e.Proper) : e.render.getLast? ≠ some '/' := by
  intro h
  rcases List.eq_nil_or_concat e.attributes with has | ⟨as, a, has⟩
  · rw [Element.render, has, List.flatMap_nil, List.append_nil] at h
    exact he.name.ne (List.mem_of_getLast? h) (by decide) rfl
  · have hend : e.render = (e.name.toList ++ as.flatMap renderAttribute ++ ' ' :: (a.1.toList ++
        '=' :: '"' :: escape a.2.toList)) ++ ['"'] := by
      rw [Element.render, has]
      simp [renderAttribute]
    rw [hend, List.getLast?_concat] at h
    exact absurd (Option.some.inj h) (by decide)

theorem scanTag_content {tag : Tag} (h : tag.Proper) :
    scanTag tag.content = tag.event ∧ ∀ c ∈ tag.content, c ≠ '>' := by
  cases tag with
  | declaration e =>
    refine ⟨rfl, fun c hc => ?_⟩
    rcases List.mem_cons.mp hc with rfl | hc
    · decide
    · rcases List.mem_append.mp hc with hc | hc
      · exact notMem_render h c hc
      · rw [List.mem_singleton.mp hc]
        decide
  | stop name =>
    refine ⟨?_, fun c hc => ?_⟩
    · change Event.stop (String.ofList name.toList) = _
      rw [String.ofList_toList]
      rfl
    · rcases List.mem_cons.mp hc with rfl | hc
      · decide
      · exact h.ne hc (by decide)
  | start e =>
    refine ⟨?_, notMem_render h⟩
    obtain ⟨c, s, hs, hc⟩ := render_ne_nil h
    have hlast := getLast?_render h
    have hscan := scanElement_render h
    change scanTag e.render = _
    rw [hs] at hlast hscan ⊢
    unfold scanTag
    split
    · next heq => exact absurd hc ((List.cons.inj heq).1 ▸ by decide)
    · next heq => exact absurd hc ((List.cons.inj heq).1 ▸ by decide)
    · rw [if_neg hlast, hscan]
      rfl
  | empty e =>
    refine ⟨?_, fun c hc => ?_⟩
    · obtain ⟨c, s, hs, hc⟩ := render_ne_nil h
      have hscan := scanElement_render h
      change scanTag (e.render ++ ['/']) = _
      unfold scanTag
      split
      · next heq =>
        rw [hs, List.cons_append] at heq
        exact absurd hc ((List.cons.inj heq).1 ▸ by decide)
      · next heq =>
        rw [hs, List.cons_append] at heq
        exact absurd hc ((List.cons.inj heq).1 ▸ by decide)
      · rw [if_pos List.getLast?_concat, List.dropLast_concat, hscan]
        rfl
    · rcases List.mem_append.mp hc with hc | hc
      · exact notMem_render h c hc
      · rw [List.mem_singleton.mp hc]
        decide

theorem scanFrom_piece {tag : Tag} {text : String} {rest : List Char} {fuel : ℕ}
    (h : tag.Proper)
    (hrest : ∀ c ∈ rest.head?, c = '<') :
    scanFrom (fuel + 2) (tag.render ++ (escape text.toList ++ rest)) =
      tag.event :: if text = "" then scanFrom (fuel + 1) rest
        else .text (.ok text) :: scanFrom fuel rest := by
  obtain ⟨hevent, hbracket⟩ := scanTag_content h
  have hstop := takeWhile_stop (p := (· != '>')) (d := '>')
    (fun c hc => bne_iff_ne.mpr (hbracket c hc)) (by decide) (escape text.toList ++ rest)
  have hrender : tag.render ++ (escape text.toList ++ rest) =
      '<' :: (tag.content ++ '>' :: (escape text.toList ++ rest)) := by
    simp [Tag.render]
  rw [hrender, scanFrom, if_pos rfl, hstop.1, hstop.2, hevent, List.drop_succ_cons, List.drop_zero]
  congr 1
  split_ifs with htext
  · rw [htext]
    rfl
  · rcases hchars : escape text.toList with - | ⟨c, s⟩
    · exact absurd (String.toList_eq_nil_iff.mp (escape_eq_nil.mp hchars)) htext
    · have hplain : ∀ d ∈ escape text.toList, (d != '<') = true :=
        fun d hd => bne_iff_ne.mpr (mem_escape hd).1
      have hc : c ≠ '<' := (mem_escape (hchars ▸ List.mem_cons_self)).1
      have hsplit : (escape text.toList ++ rest).takeWhile (· != '<') = escape text.toList ∧
          (escape text.toList ++ rest).dropWhile (· != '<') = rest := by
        cases rest with
        | nil =>
          rw [List.append_nil]
          exact ⟨List.takeWhile_eq_self_iff.mpr hplain, List.dropWhile_eq_nil_iff.mpr hplain⟩
        | cons d rest =>
          obtain rfl := hrest d rfl
          exact takeWhile_stop hplain (by decide) rest
      rw [hchars] at hsplit
      rw [List.cons_append, scanFrom, if_neg hc, ← List.cons_append, hsplit.1, hsplit.2, ← hchars,
        scanText, unescape_escape]
      dsimp only
      rw [String.ofList_toList]

end Scan

theorem Nested.proper {opened : List String} {d : Document} (h : Nested opened d) :
    ∀ piece ∈ d, piece.1.Proper := by
  induction d generalizing opened with
  | nil => exact fun _ hp => absurd hp List.not_mem_nil
  | cons piece d ih =>
    obtain ⟨tag, text⟩ := piece
    rw [List.forall_mem_cons]
    cases tag with
    | declaration e => exact h.elim
    | start e => exact ⟨h.1, ih h.2⟩
    | empty e => exact ⟨h.1, ih h.2⟩
    | stop name =>
      obtain ⟨hname, rest, -, hrest⟩ := h
      exact ⟨hname, ih hrest⟩

theorem Document.WellFormed.proper {d : Document} (h : d.WellFormed) :
    ∀ piece ∈ d, piece.1.Proper := by
  rcases d with - | ⟨⟨tag, text⟩, d⟩
  · exact fun _ hp => absurd hp List.not_mem_nil
  · cases tag with
    | declaration e => exact List.forall_mem_cons.mpr ⟨h.1, Nested.proper h.2⟩
    | start e => exact Nested.proper h
    | empty e => exact Nested.proper h
    | stop name => exact Nested.proper h

theorem render_head (d : Document) : ∀ c ∈ d.render.head?, c = '<' := by
  intro c hc
  rcases d with - | ⟨⟨tag, text⟩, d⟩
  · cases hc
  · exact (Option.some.inj hc).symm

theorem scanFrom_render {d : Document} (h : ∀ piece ∈ d, piece.1.Proper) {fuel : ℕ}
    (hfuel : d.render.length ≤ fuel) : scanFrom fuel d.render = d.events := by
  induction d generalizing fuel with
  | nil => cases fuel <;> rfl
  | cons piece d ih =>
    obtain ⟨tag, text⟩ := piece
    have hrender : Document.render ((tag, text) :: d) =
        tag.render ++ (escape text.toList ++ Document.render d) := by
      simp [Document.render]
    have hevents : Document.events ((tag, text) :: d) =
        tag.event :: ((if text = "" then [] else [.text (.ok text)]) ++ Document.events d) := rfl
    have htag : 2 ≤ tag.render.length := by simp [Tag.render]
    rw [hrender, List.length_append, List.length_append] at hfuel
    obtain ⟨fuel, rfl⟩ : ∃ f, fuel = f + 2 := ⟨fuel - 2, by omega⟩
    have hd := fun p hp => h p (List.mem_cons_of_mem _ hp)
    rw [hrender, hevents, scanFrom_piece (h _ List.mem_cons_self) (render_head d)]
    split_ifs with htext
    · rw [ih hd (by omega), List.nil_append]
    · rw [ih hd (by omega), List.singleton_append]

/-- **A well-formed document is delivered.** -/
theorem scan_render {d : Document} (h : d.WellFormed) : scan d.render = d.events :=
  scanFrom_render h.proper (Nat.le_refl _)

def scanner : Reader where
  read s := (scan s).map .ok
  read_render _ h := congrArg _ (scan_render h)

end RustyTune.Xml
