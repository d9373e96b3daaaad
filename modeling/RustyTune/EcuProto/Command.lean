import RustyTune.EcuProto.Pages

/-!
# Command templates

The definition gives every serial command as a template string, and command bytes are always built
from these.

* `Template.parse`, `Template.build`: a template from its text, and its bytes under `Args`.
* `Template.Known`: the template asks only for what `Args` have. **`build_eq_ok`**: then, and only
  then, it builds, and the command has `Template.width` bytes.
* `CommandSet`: the page command set with its templates, `CommandSet.new`: from the header's lists.
-/

namespace RustyTune.EcuProto

/-! ## Templates -/

inductive Part
  | literal (bytes : List UInt8)
  | var (name : String)
  | pageId
  | offset
  | count
  | value
  deriving DecidableEq, Repr

structure Template where
  parts : List Part
  deriving DecidableEq, Repr

/-- Runtime values substituted into a template. -/
structure Args where
  canId : UInt8
  /-- Pre-built page identifier bytes. -/
  pageId : Option (List UInt8)
  offset : Option UInt16
  count : Option UInt16
  value : Option (List UInt8)

/-- The value of a hexadecimal digit. -/
def hexDigit (c : Char) : Option ℕ :=
  if '0' ≤ c ∧ c ≤ '9' then some (c.toNat - 48)
  else if 'a' ≤ c ∧ c ≤ 'f' then some (c.toNat - 87)
  else if 'A' ≤ c ∧ c ≤ 'F' then some (c.toNat - 55)
  else none

/-- `u8::from_str_radix` of two characters; a sign may stand in front of a digit. -/
def hexByte (hi lo : Char) : Option UInt8 :=
  if hi = '+' then (hexDigit lo).map UInt8.ofNat
  else do return UInt8.ofNat (16 * (← hexDigit hi) + (← hexDigit lo))

/-- A letter of a variable's name. -/
def isNameChar (c : Char) : Bool := c.isAlphanum || c == '_'

/-- What stands at one place of a template's text. -/
inductive Piece
  /-- A byte of the literal being read. -/
  | byte (b : UInt8)
  | part (p : Part)

namespace Template

/-- The piece that starts with `c`, and how many characters behind `c` it takes. -/
def parsePiece (text : String) (c : Char) (cs : List Char) : Except ProtoError (Piece × ℕ) :=
  if c = '\\' then
    match cs with
    | 'x' :: hi :: lo :: _ =>
      match hexByte hi lo with
      | some b => .ok (.byte b, 3)
      | none => .error (.template s!"bad \\x{hi}{lo} in `{text}`")
    | 'x' :: _ => .error (.template s!"truncated \\x escape in `{text}`")
    | '$' :: rest =>
      let name := rest.takeWhile isNameChar
      .ok (.part (.var (String.ofList name)), name.length + 1)
    | other :: _ => .ok (.byte (UInt8.ofNat other.toNat), 1)
    | [] => .error (.template s!"trailing backslash in `{text}`")
  else if c = '%' then
    match cs with
    | 'v' :: _ => .ok (.part .value, 1)
    | '2' :: 'i' :: _ => .ok (.part .pageId, 2)
    | '2' :: 'o' :: _ => .ok (.part .offset, 2)
    | '2' :: 'c' :: _ => .ok (.part .count, 2)
    | other =>
      let other := String.ofList (other.take 2)
      .error (.template s!"unknown %{other} in `{text}`")
  else .ok (.byte (UInt8.ofNat c.toNat), 0)

/-- The literal read so far as a part, if there is one. -/
def flush (literal : List UInt8) : List Part := if literal = [] then [] else [.literal literal]

/-- The parts of a text, `skip` characters of which are taken already. -/
def parseFrom (text : String) : ℕ → List UInt8 → List Char → Except ProtoError (List Part)
  | _, literal, [] => .ok (flush literal)
  | skip + 1, literal, _ :: cs => parseFrom text skip literal cs
  | 0, literal, c :: cs => do
    match ← parsePiece text c cs with
    | (.byte b, skip) => parseFrom text skip (literal ++ [b]) cs
    | (.part p, skip) => return flush literal ++ p :: (← parseFrom text skip [] cs)

def parse (text : String) : Except ProtoError Template := do
  return ⟨← parseFrom text 0 [] text.toList⟩

/-- The error of a value the template needs and the caller does not give. -/
def missing (what : String) : ProtoError := .template s!"template needs {what}"

def buildPart (args : Args) : Part → Except ProtoError (List UInt8)
  | .literal bytes => .ok bytes
  | .var name =>
    if name = "tsCanId" then .ok [args.canId] else .error (missing s!"unknown variable ${name}")
  | .pageId => args.pageId.elim (.error (missing "page id")) .ok
  | .offset => args.offset.elim (.error (missing "offset")) fun n => .ok (leBytes 2 n.toNat)
  | .count => args.count.elim (.error (missing "count")) fun n => .ok (leBytes 2 n.toNat)
  | .value => args.value.elim (.error (missing "value")) .ok

/-- The parts one after the other. -/
def buildParts (args : Args) : List Part → Except ProtoError (List UInt8)
  | [] => .ok []
  | p :: parts => do return (← buildPart args p) ++ (← buildParts args parts)

def build (t : Template) (args : Args) : Except ProtoError (List UInt8) := buildParts args t.parts

end Template

/-! ## What a template builds into -/

/-- What the caller gives is what the part asks for. -/
def Part.Known (args : Args) : Part → Prop
  | .literal _ => True
  | .var name => name = "tsCanId"
  | .pageId => args.pageId.isSome
  | .offset => args.offset.isSome
  | .count => args.count.isSome
  | .value => args.value.isSome

def Part.width (args : Args) : Part → ℕ
  | .literal bytes => bytes.length
  | .var _ => 1
  | .pageId => (args.pageId.getD []).length
  | .offset | .count => 2
  | .value => (args.value.getD []).length

instance (args : Args) (p : Part) : Decidable (p.Known args) := by
  cases p <;> unfold Part.Known <;> infer_instance

namespace Template

/-- Everything the template asks for is given. -/
def Known (t : Template) (args : Args) : Prop := ∀ p ∈ t.parts, p.Known args

instance (t : Template) (args : Args) : Decidable (t.Known args) :=
  inferInstanceAs (Decidable (∀ p ∈ t.parts, p.Known args))

/-- The bytes of a command built from the template. -/
def width (t : Template) (args : Args) : ℕ := (t.parts.map (Part.width args)).sum

theorem buildPart_eq_ok {args : Args} {p : Part} :
    (∃ bytes, buildPart args p = .ok bytes) ↔ p.Known args := by
  cases p with
  | literal bytes => simp [buildPart, Part.Known]
  | var name => by_cases h : name = "tsCanId" <;> simp [buildPart, Part.Known, h]
  | pageId => cases h : args.pageId <;> simp [buildPart, Part.Known, h]
  | offset => cases h : args.offset <;> simp [buildPart, Part.Known, h]
  | count => cases h : args.count <;> simp [buildPart, Part.Known, h]
  | value => cases h : args.value <;> simp [buildPart, Part.Known, h]

theorem length_buildPart {args : Args} {p : Part} {bytes : List UInt8}
    (h : buildPart args p = .ok bytes) : bytes.length = p.width args := by
  cases p with
  | literal bytes' => rw [← Except.ok.inj h, Part.width]
  | var name =>
    rw [buildPart] at h
    split_ifs at h
    rw [← Except.ok.inj h]
    rfl
  | pageId =>
    cases hp : args.pageId <;> simp only [buildPart, hp, Option.elim_none, Option.elim_some] at h
    · exact nomatch h
    · rw [← Except.ok.inj h, Part.width, hp, Option.getD_some]
  | offset =>
    cases hp : args.offset <;> simp only [buildPart, hp, Option.elim_none, Option.elim_some] at h
    · exact nomatch h
    · rw [← Except.ok.inj h, Part.width, length_leBytes]
  | count =>
    cases hp : args.count <;> simp only [buildPart, hp, Option.elim_none, Option.elim_some] at h
    · exact nomatch h
    · rw [← Except.ok.inj h, Part.width, length_leBytes]
  | value =>
    cases hp : args.value <;> simp only [buildPart, hp, Option.elim_none, Option.elim_some] at h
    · exact nomatch h
    · rw [← Except.ok.inj h, Part.width, hp, Option.getD_some]

theorem buildParts_cons_eq_ok {args : Args} {p : Part} {parts : List Part} {bytes : List UInt8} :
    buildParts args (p :: parts) = .ok bytes ↔
      ∃ a b, buildPart args p = .ok a ∧ buildParts args parts = .ok b ∧ bytes = a ++ b := by
  rw [buildParts]
  cases buildPart args p with
  | error e => simp [bind, Except.bind]
  | ok a =>
    cases buildParts args parts with
    | error e => simp [bind, Except.bind]
    | ok b => simp [bind, Except.bind, pure, Except.pure, eq_comm]

/-- **A template builds exactly when everything it asks for is given.** -/
theorem build_eq_ok {t : Template} {args : Args} :
    (∃ bytes, t.build args = .ok bytes) ↔ t.Known args := by
  obtain ⟨parts⟩ := t
  unfold build Known
  induction parts with
  | nil => simp [buildParts]
  | cons p parts ih =>
    rw [List.forall_mem_cons, ← buildPart_eq_ok, ← ih]
    constructor
    · rintro ⟨bytes, h⟩
      obtain ⟨a, b, ha, hb, -⟩ := buildParts_cons_eq_ok.mp h
      exact ⟨⟨a, ha⟩, b, hb⟩
    · rintro ⟨⟨a, ha⟩, b, hb⟩
      exact ⟨a ++ b, buildParts_cons_eq_ok.mpr ⟨a, b, ha, hb, rfl⟩⟩

theorem length_build {t : Template} {args : Args} {bytes : List UInt8}
    (h : t.build args = .ok bytes) : bytes.length = t.width args := by
  obtain ⟨parts⟩ := t
  unfold build width at *
  induction parts generalizing bytes with
  | nil =>
    rw [← Except.ok.inj h]
    rfl
  | cons p parts ih =>
    obtain ⟨a, b, ha, hb, rfl⟩ := buildParts_cons_eq_ok.mp h
    rw [List.length_append, length_buildPart ha, ih hb, List.map_cons, List.sum_cons]

end Template

/-! ## The page command set -/

/-- Raw template strings for the page command set, one entry per page in each list. -/
structure PagesConfig where
  identifiers : List String
  pageRead : List String
  chunkWrite : List String
  crcCheck : List String
  burn : List String
  sizes : List UInt32
  blockingFactor : UInt16
  canId : UInt8

structure PageDef where
  /-- Pre-built bytes of the page's identifier. -/
  identifier : List UInt8
  read : Template
  chunkWrite : Template
  crc : Template
  burn : Template
  size : UInt32
  deriving DecidableEq, Repr

/-- The parsed page command set. -/
structure CommandSet where
  pages : List PageDef
  blockingFactor : ℕ
  blockingFactor_pos : 0 < blockingFactor
  canId : UInt8
  deriving DecidableEq, Repr

namespace CommandSet

/-- The template of page `i` in one of the lists. -/
def tpl (list : List String) (i : ℕ) (what : String) : Except ProtoError Template :=
  match list[i]? with
  | none => .error (.template s!"missing {what} for page {i + 1}")
  | some text => Template.parse text

def newPage (cfg : PagesConfig) (size : UInt32) (i : ℕ) : Except ProtoError PageDef := do
  let identifier ← (← tpl cfg.identifiers i "pageIdentifier").build ⟨cfg.canId, none, none, none, none⟩
  let read ← tpl cfg.pageRead i "pageReadCommand"
  let chunkWrite ← tpl cfg.chunkWrite i "pageChunkWrite"
  let crc ← tpl cfg.crcCheck i "crc32CheckCommand"
  let burn ← tpl cfg.burn i "burnCommand"
  return ⟨identifier, read, chunkWrite, crc, burn, size⟩

/-- `PageCommands::new`. -/
def new (cfg : PagesConfig) : Except ProtoError CommandSet := do
  let pages ← cfg.sizes.zipIdx.mapM fun (size, i) => newPage cfg size i
  return ⟨pages, max cfg.blockingFactor.toNat 1, by omega, cfg.canId⟩

/-- The sizes and the blocking factor, without the templates. -/
def commands (set : CommandSet) : PageCommands :=
  ⟨set.pages.map (·.size.toNat), set.blockingFactor, set.blockingFactor_pos⟩

/-- The values a page read gives its template; both numbers are cast to 16 bits. -/
def readArgs (set : CommandSet) (page : PageDef) (offset count : ℕ) : Args :=
  ⟨set.canId, some page.identifier, some (UInt16.ofNat offset), some (UInt16.ofNat count), none⟩

/-- The values a chunk write gives its template. -/
def writeArgs (set : CommandSet) (page : PageDef) (offset : ℕ) (values : List UInt8) : Args :=
  ⟨set.canId, some page.identifier, some (UInt16.ofNat offset), some (UInt16.ofNat values.length),
    some values⟩

end CommandSet

/-- A template of a test of the source. -/
example : Template.parse "r\\$tsCanId\\x30%2o%2c" =
    .ok ⟨[.literal [0x72], .var "tsCanId", .literal [0x30], .offset, .count]⟩ := by decide +kernel

end RustyTune.EcuProto
