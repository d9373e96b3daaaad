import RustyTune.EcuProto.Command

/-!
# Templates printed and read back

* `PrintsBytes`, `Prints`: a text of the INI syntax prints some parts.
  `prints_print`: parts with proper names have such a text.
* `joined`: the parts with adjacent literals made one.
* **`Prints.parseFrom`**: reading a printed text behind a literal; every part keeps its boundary.
* `Part.bytes`: what a part sends, `build_eq_ok_iff`. Joining changes neither the bytes nor what is
  asked for: `flatMap_joined`, `known_joined`.
* `parse_build_printed`: all of it for a text and what is built from it.
-/

namespace RustyTune.EcuProto

/-! ## The INI syntax -/

/-- The text prints the bytes: each as an ASCII character of its own or as a hexadecimal escape. -/
inductive PrintsBytes : List UInt8 → List Char → Prop
  | nil : PrintsBytes [] []
  | char {c : Char} {bytes : List UInt8} {cs : List Char} (hascii : c.toNat < 128) (hback : c ≠ '\\')
      (hpercent : c ≠ '%') (h : PrintsBytes bytes cs) :
      PrintsBytes (UInt8.ofNat c.toNat :: bytes) (c :: cs)
  | hex {b : UInt8} {hi lo : Char} {bytes : List UInt8} {cs : List Char}
      (hhi : hexDigit hi = some (b.toNat / 16)) (hlo : hexDigit lo = some (b.toNat % 16))
      (h : PrintsBytes bytes cs) : PrintsBytes (b :: bytes) ('\\' :: 'x' :: hi :: lo :: cs)

/-- No letter of a name is the first character. -/
def NameEnds (cs : List Char) : Prop := ∀ c, cs.head? = some c → isNameChar c = false

/-- The text prints the parts one after the other. -/
inductive Prints : List Part → List Char → Prop
  | nil : Prints [] []
  | literal {bytes : List UInt8} {parts : List Part} {cs rest : List Char}
      (hbytes : PrintsBytes bytes cs) (h : Prints parts rest) :
      Prints (.literal bytes :: parts) (cs ++ rest)
  | var {name : String} {parts : List Part} {rest : List Char}
      (hname : ∀ c ∈ name.toList, isNameChar c = true) (hend : NameEnds rest)
      (h : Prints parts rest) : Prints (.var name :: parts) ('\\' :: '$' :: (name.toList ++ rest))
  | pageId {parts : List Part} {rest : List Char} (h : Prints parts rest) :
      Prints (.pageId :: parts) ('%' :: '2' :: 'i' :: rest)
  | offset {parts : List Part} {rest : List Char} (h : Prints parts rest) :
      Prints (.offset :: parts) ('%' :: '2' :: 'o' :: rest)
  | count {parts : List Part} {rest : List Char} (h : Prints parts rest) :
      Prints (.count :: parts) ('%' :: '2' :: 'c' :: rest)
  | value {parts : List Part} {rest : List Char} (h : Prints parts rest) :
      Prints (.value :: parts) ('%' :: 'v' :: rest)

/-- The names of the variables have only letters, digits and underscores. -/
def Named (parts : List Part) : Prop :=
  ∀ name, Part.var name ∈ parts → ∀ c ∈ name.toList, isNameChar c = true

def escape (b : UInt8) : List Char :=
  ['\\', 'x', Nat.digitChar (b.toNat / 16), Nat.digitChar (b.toNat % 16)]

/-- A part with every byte of a literal escaped. -/
def Part.print : Part → List Char
  | .literal bytes => bytes.flatMap escape
  | .var name => '\\' :: '$' :: name.toList
  | .pageId => ['%', '2', 'i']
  | .offset => ['%', '2', 'o']
  | .count => ['%', '2', 'c']
  | .value => ['%', 'v']

theorem hexDigit_digitChar : ∀ n < 16, hexDigit (Nat.digitChar n) = some n := by decide

theorem printsBytes_escape (bytes : List UInt8) : PrintsBytes bytes (bytes.flatMap escape) := by
  induction bytes with
  | nil => exact .nil
  | cons b bytes ih =>
    have hb := b.toNat_lt
    exact .hex (hexDigit_digitChar _ (by omega)) (hexDigit_digitChar _ (by omega)) ih

/-- What follows a name in a text with every byte escaped starts with a backslash or a percent. -/
theorem nameEnds_print (parts : List Part) : NameEnds (parts.flatMap Part.print) := by
  induction parts with
  | nil => exact fun c h => nomatch h
  | cons p parts ih =>
    rw [List.flatMap_cons]
    cases p with
    | literal bytes =>
      cases bytes with
      | nil => exact ih
      | cons b bytes => exact fun c h => by rw [← Option.some.inj h]; decide
    | var name => exact fun c h => by rw [← Option.some.inj h]; decide
    | pageId => exact fun c h => by rw [← Option.some.inj h]; decide
    | offset => exact fun c h => by rw [← Option.some.inj h]; decide
    | count => exact fun c h => by rw [← Option.some.inj h]; decide
    | value => exact fun c h => by rw [← Option.some.inj h]; decide

theorem prints_print {parts : List Part} (h : Named parts) :
    Prints parts (parts.flatMap Part.print) := by
  induction parts with
  | nil => exact .nil
  | cons p parts ih =>
    have hrest := ih fun name hname => h name (List.mem_cons_of_mem p hname)
    rw [List.flatMap_cons]
    cases p with
    | literal bytes => exact .literal (printsBytes_escape bytes) hrest
    | var name => exact .var (h name List.mem_cons_self) (nameEnds_print parts) hrest
    | pageId => exact .pageId hrest
    | offset => exact .offset hrest
    | count => exact .count hrest
    | value => exact .value hrest

/-! ## Adjacent literals -/

/-- A part in front of others; a literal joins the literal behind it, and an empty one goes. -/
def Part.push : Part → List Part → List Part
  | .literal a, .literal b :: parts => .literal (a ++ b) :: parts
  | .literal a, parts => Template.flush a ++ parts
  | p, parts => p :: parts

/-- The parts with adjacent literals joined. -/
def joined (parts : List Part) : List Part := parts.foldr Part.push []

theorem joined_nil : joined [] = [] := rfl

theorem joined_cons (p : Part) (parts : List Part) :
    joined (p :: parts) = p.push (joined parts) := rfl

theorem push_nil (a : List UInt8) : Part.push (.literal a) [] = Template.flush a :=
  List.append_nil _

@[simp] theorem push_literal_nil (parts : List Part) : Part.push (.literal []) parts = parts := by
  cases parts with
  | nil => rfl
  | cons p parts => cases p <;> rfl

/-- What stands in front of the parts: the part itself, nothing, or a longer literal. -/
theorem push_cases (p : Part) (parts : List Part) :
    p.push parts = p :: parts ∨ (p = .literal [] ∧ p.push parts = parts) ∨
    ∃ a b rest, p = .literal a ∧ parts = .literal b :: rest ∧
      p.push parts = .literal (a ++ b) :: rest := by
  cases p with
  | literal a =>
    by_cases ha : a = []
    · exact .inr (.inl ⟨by rw [ha], by rw [ha, push_literal_nil]⟩)
    · cases parts with
      | nil => exact .inl (by rw [push_nil, Template.flush, if_neg ha])
      | cons q parts =>
        cases q with
        | literal b => exact .inr (.inr ⟨a, b, parts, rfl, rfl, rfl⟩)
        | _ => exact .inl (by simp [Part.push, Template.flush, ha])
  | _ => exact .inl rfl

theorem push_literal_push (a b : List UInt8) (parts : List Part) :
    Part.push (.literal a) (Part.push (.literal b) parts) = Part.push (.literal (a ++ b)) parts := by
  by_cases hb : b = []
  · rw [hb, push_literal_nil, List.append_nil]
  · cases parts with
    | nil => simp [Part.push, Template.flush, hb]
    | cons p parts => cases p <;> simp [Part.push, Template.flush, hb]

/-! ## Reading a printed text -/

namespace Template

theorem parseFrom_skip (text : String) (taken literal : _) (rest : List Char) :
    parseFrom text taken.length literal (taken ++ rest) = parseFrom text 0 literal rest := by
  induction taken with
  | nil => rfl
  | cons c taken ih => exact ih

theorem parseFrom_byte {text : String} {c : Char} {taken rest : List Char} {b : UInt8}
    (literal : List UInt8) (h : parsePiece text c (taken ++ rest) = .ok (.byte b, taken.length)) :
    parseFrom text 0 literal (c :: (taken ++ rest)) = parseFrom text 0 (literal ++ [b]) rest := by
  rw [parseFrom, h, ← parseFrom_skip text taken]
  rfl

theorem parseFrom_part {text : String} {literal : List UInt8} {c : Char} (taken : List Char)
    {rest : List Char} {p : Part} {parts : List Part}
    (h : parsePiece text c (taken ++ rest) = .ok (.part p, taken.length))
    (hrest : parseFrom text 0 [] rest = .ok parts) :
    parseFrom text 0 literal (c :: (taken ++ rest)) = .ok (flush literal ++ p :: parts) := by
  rw [← parseFrom_skip text taken] at hrest
  rw [parseFrom, h]
  simp only [bind, Except.bind, hrest]
  rfl

/-- The bytes of a literal are added to the literal being read. -/
theorem parseFrom_bytes {text : String} {bytes : List UInt8} {cs : List Char}
    (h : PrintsBytes bytes cs) (literal : List UInt8) (rest : List Char) :
    parseFrom text 0 literal (cs ++ rest) = parseFrom text 0 (literal ++ bytes) rest := by
  induction h generalizing literal with
  | nil => rw [List.nil_append, List.append_nil]
  | @char c bytes cs hascii hback hpercent h ih =>
    have hpiece : parsePiece text c ([] ++ (cs ++ rest)) =
        .ok (.byte (UInt8.ofNat c.toNat), 0) := by
      rw [parsePiece.eq_def, if_neg hback, if_neg hpercent]
    have hread := parseFrom_byte literal hpiece
    rw [List.nil_append] at hread
    rw [List.cons_append, hread, ih, List.append_assoc, List.singleton_append]
  | @hex b hi lo bytes cs hhi hlo h ih =>
    have hplus : hi ≠ '+' := by
      rintro rfl
      have hnone : hexDigit '+' = none := by decide
      rw [hnone] at hhi
      exact nomatch hhi
    have hbyte : hexByte hi lo = some b := by
      rw [hexByte, if_neg hplus, hhi, hlo]
      simp only [Option.bind_eq_bind, Option.bind_some, Nat.div_add_mod, UInt8.ofNat_toNat, pure]
    have hpiece : parsePiece text '\\' (['x', hi, lo] ++ (cs ++ rest)) = .ok (.byte b, 3) := by
      simp [parsePiece, hbyte]
    have hread := parseFrom_byte literal hpiece
    calc _ = parseFrom text 0 literal ('\\' :: (['x', hi, lo] ++ (cs ++ rest))) := rfl
      _ = _ := by rw [hread, ih, List.append_assoc, List.singleton_append]

/-- The name of a variable ends where the next part starts. -/
theorem takeWhile_name {name rest : List Char} (hname : ∀ c ∈ name, isNameChar c = true)
    (hend : NameEnds rest) : (name ++ rest).takeWhile isNameChar = name := by
  rw [List.takeWhile_append_of_pos hname]
  cases rest with
  | nil => rw [List.takeWhile_nil, List.append_nil]
  | cons c rest => rw [List.takeWhile_cons_of_neg (by simp [hend c rfl]), List.append_nil]

end Template

open Template in
/-- **A printed text behind a literal reads into the literal and the parts, joined.** -/
theorem Prints.parseFrom {text : String} {parts : List Part} {cs : List Char} (h : Prints parts cs)
    (literal : List UInt8) :
    parseFrom text 0 literal cs = .ok (Part.push (.literal literal) (joined parts)) := by
  induction h generalizing literal with
  | nil => rw [Template.parseFrom, joined_nil, push_nil]
  | literal hbytes h ih => rw [parseFrom_bytes hbytes, ih, ← push_literal_push, joined_cons]
  | @var name parts rest hname hend h ih =>
    have hpiece : parsePiece text '\\' (('$' :: name.toList) ++ rest) =
        .ok (.part (.var name), ('$' :: name.toList).length) := by
      simp [parsePiece, takeWhile_name hname hend]
    exact parseFrom_part _ hpiece (by rw [ih, push_literal_nil]; rfl)
  | @pageId parts rest h ih =>
    exact parseFrom_part ['2', 'i'] rfl (by rw [ih, push_literal_nil]; rfl)
  | @offset parts rest h ih =>
    exact parseFrom_part ['2', 'o'] rfl (by rw [ih, push_literal_nil]; rfl)
  | @count parts rest h ih =>
    exact parseFrom_part ['2', 'c'] rfl (by rw [ih, push_literal_nil]; rfl)
  | @value parts rest h ih =>
    exact parseFrom_part ['v'] rfl (by rw [ih, push_literal_nil]; rfl)

/-! ## What the parts send -/

/-- A 16-bit value, the low byte first. -/
def wordBytes (n : UInt16) : List UInt8 := [UInt8.ofNat (n.toNat % 256), UInt8.ofNat (n.toNat / 256)]

/-- The bytes a part sends; nothing for a value that is not given. -/
def Part.bytes (args : Args) : Part → List UInt8
  | .literal bytes => bytes
  | .var _ => [args.canId]
  | .pageId => args.pageId.getD []
  | .offset => (args.offset.map wordBytes).getD []
  | .count => (args.count.map wordBytes).getD []
  | .value => args.value.getD []

theorem leBytes_toNat (n : UInt16) : leBytes 2 n.toNat = wordBytes n := by
  have hlow : UInt8.ofNat n.toNat = UInt8.ofNat (n.toNat % 256) :=
    UInt8.toNat.inj (by simp)
  rw [leBytes, leBytes, leBytes, hlow, wordBytes]

theorem flatMap_push (args : Args) (p : Part) (parts : List Part) :
    (p.push parts).flatMap (Part.bytes args) = p.bytes args ++ parts.flatMap (Part.bytes args) := by
  obtain e | ⟨rfl, e⟩ | ⟨a, b, rest, rfl, rfl, e⟩ := push_cases p parts <;> rw [e]
  · exact List.flatMap_cons
  · rfl
  · rw [List.flatMap_cons, List.flatMap_cons, ← List.append_assoc]
    rfl

theorem flatMap_joined (args : Args) (parts : List Part) :
    (joined parts).flatMap (Part.bytes args) = parts.flatMap (Part.bytes args) := by
  induction parts with
  | nil => rfl
  | cons p parts ih => rw [joined_cons, flatMap_push, ih, List.flatMap_cons]

theorem known_push (args : Args) (p : Part) (parts : List Part) :
    (∀ q ∈ p.push parts, q.Known args) ↔ p.Known args ∧ ∀ q ∈ parts, q.Known args := by
  obtain e | ⟨rfl, e⟩ | ⟨a, b, rest, rfl, rfl, e⟩ := push_cases p parts <;> rw [e]
  · exact List.forall_mem_cons
  · exact (iff_of_eq (true_and _)).symm
  · rw [List.forall_mem_cons, List.forall_mem_cons]
    exact (iff_of_eq (true_and _)).symm

theorem known_joined (args : Args) (parts : List Part) :
    (∀ p ∈ joined parts, p.Known args) ↔ ∀ p ∈ parts, p.Known args := by
  induction parts with
  | nil => rfl
  | cons p parts ih => rw [joined_cons, known_push, ih, List.forall_mem_cons]

namespace Template

theorem buildPart_bytes {args : Args} {p : Part} (h : p.Known args) :
    buildPart args p = .ok (p.bytes args) := by
  cases p with
  | literal bytes => rfl
  | var name => exact if_pos h
  | pageId =>
    obtain ⟨id, hid⟩ := Option.isSome_iff_exists.mp h
    rw [buildPart, Part.bytes, hid, Option.elim_some, Option.getD_some]
  | offset =>
    obtain ⟨n, hn⟩ := Option.isSome_iff_exists.mp h
    rw [buildPart, Part.bytes, hn, Option.elim_some, leBytes_toNat, Option.map_some, Option.getD_some]
  | count =>
    obtain ⟨n, hn⟩ := Option.isSome_iff_exists.mp h
    rw [buildPart, Part.bytes, hn, Option.elim_some, leBytes_toNat, Option.map_some, Option.getD_some]
  | value =>
    obtain ⟨v, hv⟩ := Option.isSome_iff_exists.mp h
    rw [buildPart, Part.bytes, hv, Option.elim_some, Option.getD_some]

theorem buildParts_bytes {args : Args} {parts : List Part} (h : ∀ p ∈ parts, p.Known args) :
    buildParts args parts = .ok (parts.flatMap (Part.bytes args)) := by
  induction parts with
  | nil => rfl
  | cons p parts ih =>
    obtain ⟨hp, hparts⟩ := List.forall_mem_cons.mp h
    exact buildParts_cons_eq_ok.mpr
      ⟨_, _, buildPart_bytes hp, ih hparts, List.flatMap_cons⟩

/-- A template builds into the bytes of its parts, exactly when all of them are given. -/
theorem build_eq_ok_iff {t : Template} {args : Args} {bytes : List UInt8} :
    t.build args = .ok bytes ↔ t.Known args ∧ bytes = t.parts.flatMap (Part.bytes args) := by
  constructor
  · intro h
    have hknown := build_eq_ok.mp ⟨bytes, h⟩
    exact ⟨hknown, Except.ok.inj (h.symm.trans (buildParts_bytes hknown))⟩
  · rintro ⟨hknown, rfl⟩
    exact buildParts_bytes hknown

end Template

/-- **Parts printed in the syntax of the definition parse into the same parts with adjacent literals
joined; the template builds into the bytes of the parts one after the other, and fails exactly when
something it needs is not given or a variable is unknown.** -/
theorem parse_build_printed {parts : List Part} (h : Named parts) :
    (∃ text : String, Prints parts text.toList) ∧
      ∀ text : String, Prints parts text.toList →
        Template.parse text = .ok ⟨joined parts⟩ ∧ ∀ args bytes,
          Template.build ⟨joined parts⟩ args = .ok bytes ↔
            (∀ p ∈ parts, p.Known args) ∧ bytes = parts.flatMap (Part.bytes args) := by
  refine ⟨⟨String.ofList (parts.flatMap Part.print), ?_⟩, fun text htext => ⟨?_, fun args bytes => ?_⟩⟩
  · rw [String.toList_ofList]
    exact prints_print h
  · rw [Template.parse, htext.parseFrom, push_literal_nil]
    rfl
  · rw [Template.build_eq_ok_iff, flatMap_joined]
    exact and_congr_left fun _ => known_joined args parts

/-- A template of a test of the source with a digit behind a variable and two adjacent literals. -/
theorem parse_build_och :
    Named [.literal [0x72], .var "tsCanId", .literal [0x30], .literal [0x31], .offset, .count] ∧
    Template.parse "r\\$tsCanId\\x301%2o%2c" =
      .ok ⟨[.literal [0x72], .var "tsCanId", .literal [0x30, 0x31], .offset, .count]⟩ ∧
    Template.build ⟨[.literal [0x72], .var "tsCanId", .literal [0x30, 0x31], .offset, .count]⟩
      ⟨5, none, some 0, some 127, none⟩ = .ok [0x72, 5, 0x30, 0x31, 0, 0, 127, 0] := by
  have hname : ∀ c ∈ "tsCanId".toList, isNameChar c = true := List.all_eq_true.mp (by decide)
  have hnamed : Named
      [.literal [0x72], .var "tsCanId", .literal [0x30], .literal [0x31], .offset, .count] := by
    intro name hmem
    obtain rfl : name = "tsCanId" := by simpa using hmem
    exact hname
  have htext : Prints
      [.literal [0x72], .var "tsCanId", .literal [0x30], .literal [0x31], .offset, .count]
      "r\\$tsCanId\\x301%2o%2c".toList :=
    .literal (.char (c := 'r') (by decide) (by decide) (by decide) .nil)
      (.var hname (fun c hc => by rw [← Option.some.inj hc]; decide)
        (.literal (@PrintsBytes.hex 0x30 '3' '0' _ _ rfl rfl .nil)
          (.literal (.char (c := '1') (by decide) (by decide) (by decide) .nil)
            (.offset (.count .nil)))))
  obtain ⟨hparse, hbuild⟩ := (parse_build_printed hnamed).2 _ htext
  exact ⟨hnamed, hparse, (hbuild _ _).mpr ⟨by decide, by decide⟩⟩

end RustyTune.EcuProto
