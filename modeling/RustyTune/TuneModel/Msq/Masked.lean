import RustyTune.TuneModel.Msq.Restore

/-!
# Which bits a saved file restores

* `Held`: the bits of the constants that a file has.
* `Literal`: literal numbers, and labels that tell their choices apart.
* **`restored_iff`**: all of them are restored exactly when each is in the mask of its field, or set by
  another constant. A mask has the width of its field modulo 64.
-/

namespace RustyTune.TuneModel.Msq

open TsIni Exec XRat

open Text (Recoding)

open Xml (Reader)

variable {m : Machine} {t u : Tune XRat}

/-- The bit is one of a constant that is written: of its number, its elements, or its field in its word. -/
def Held (m : Machine) (t : Tune XRat) (j i : ℕ) : Prop :=
  ∃ name c line, Written m t name c line ∧ Covers c j i ∧ OwnByte c j (i / 8)

/-- Literal scales, greater than the last decimal that is written, and literal translates; arrays of two
elements or more; labels without quotes, each of one choice. -/
structure Literal (t : Tune XRat) : Prop where
  literal : ∀ name c, t.constant name = some c → c.cls = .scalar ∨ c.cls = .array →
    ∃ scale translate, c.scale = .num (fin scale) ∧ c.translate = .num (fin translate) ∧
      1 / 1000000 < |scale|
  arrays : ∀ name c, t.constant name = some c → c.cls = .array → 2 ≤ c.elementCount
  distinct : ∀ name c, t.constant name = some c → c.cls = .bits → ∀ (i k : ℕ) label,
    c.labels[i]? = some label → c.labels[k]? = some label → label ≠ "INVALID" → i = k
  unquoted : ∀ name c, t.constant name = some c → c.cls = .bits → ∀ label ∈ c.labels,
    label ≠ "INVALID" → '"' ∉ label.toList

theorem Literal.readable (h : Literal t) : Readable Recoding.same t where
  literal := h.literal
  arrays := h.arrays
  labels name c hc hcls i label hlabel hvalid := by
    have hmem : label ∈ c.labels := List.mem_of_getElem? hlabel
    refine ⟨⟨Recoding.same_apply _, fun hlast => ?_⟩, ?_⟩
    · exact h.unquoted name c hc hcls label hmem hvalid (List.mem_of_getLast? hlast)
    · exact h.distinct name c hc hcls _ i label (List.getElem?_idxOf hmem) hlabel hvalid

/-- Fields narrower than 64 bits. -/
def Narrow (t : Tune XRat) : Prop :=
  ∀ name c lo hi, t.constant name = some c → c.cls = .bits → c.shape = some (.bits lo hi) →
    lo.toNat ≤ hi.toNat → hi.toNat < lo.toNat + 63

theorem Narrow.reset (h : Narrow t) {j i : ℕ} (hheld : Held m t j i) : Reset m t j i := by
  obtain ⟨name, c, line, hwritten, hcovers, hbyte⟩ := hheld
  refine ⟨name, c, line, hwritten, ?_⟩
  cases hcls : c.cls with
  | scalar | array =>
    simp only [Covers, Sets, hcls] at hcovers ⊢
    exact hcovers
  | string => simp only [Covers, hcls] at hcovers
  | bits =>
    simp only [Covers, Sets, hcls] at hcovers ⊢
    obtain ⟨offset, lo, hi, hloc, hshape, h1, h2⟩ := hcovers
    obtain ⟨offset', hloc', h3, h4⟩ := hbyte
    obtain rfl : offset = offset' := (Prod.mk.inj (Option.some.inj (hloc.symm.trans hloc'))).2
    have hcount : valueCount c = 1 := by simp only [valueCount, hcls]
    have hsize := size_bits_le c.ty
    have hnarrow := h name c lo hi hwritten.1 hcls hshape (by omega)
    rw [hcount, Nat.one_mul] at h4
    refine ⟨offset, lo, hi, hloc, hshape, by omega, by omega, ?_, ?_⟩
    · omega
    · have hwidth : maskWidth lo hi = bitWidth lo hi := maskWidth_eq (by omega) hnarrow
      rw [hwidth, bitWidth]
      omega

/-! ## One bit inverted -/

/-- The tune with the byte of the bit inverted. -/
theorem exists_inverted {p : PageState} {j i : ℕ} (ht : t.Sized) (hp : t.page j = some p)
    (hi : i / 8 < p.data.length) : ∃ u : Tune XRat, u.Sized ∧ u.df = t.df ∧ u.bit j i = !t.bit j i := by
  obtain ⟨raw, hraw⟩ : ∃ raw, readRaw p.data (i / 8) .u08 = some raw :=
    ⟨_, readRaw_of_le (by change i / 8 + 1 ≤ _; omega)⟩
  obtain ⟨hin, rfl⟩ := readRaw_eq_some.mp hraw
  set w : BitVec 64 := ~~~BitVec.ofInt 64 (decodeRaw .u08 (slice p.data (i / 8) DataType.u08.size))
  have hframe : SameFrame t (t.writePage j (i / 8) .u08 w.toInt) := .writePage
  refine ⟨_, hframe.toRewrites.sized ht, hframe.df, ?_⟩
  have hk : i - 8 * (i / 8) < 8 * DataType.u08.size := by
    change _ < 8 * 1
    omega
  have hplace : 8 * (i / 8) ≤ i ∧ i < 8 * (i / 8 + DataType.u08.size) := by
    change _ ∧ i < 8 * (i / 8 + 1)
    omega
  rw [Tune.bit_of_page (Tune.page_writePage_self hp), testBit_writeRaw, if_pos ⟨hin, hplace⟩,
    testBit_rawBytes _ w hk, BitVec.getLsbD_not, getLsbD_decodeRaw _ _ hk, testBit_slice hk,
    Nat.add_sub_cancel' hplace.1, Tune.bit_of_page hp, decide_eq_true (by omega), Bool.true_and]

/-! ## The file -/

/-- The text, read and applied to `u`, restores what it has of `t`. -/
def RestoresHeld (reader : Reader) (m : Machine) (t u : Tune XRat) (text : String) : Prop :=
  ∃ file report u₁, MsqFile.parse reader text.toList = .ok file ∧
    applyConstants m none file.constants.entries (ApplyReport.empty, u) = .ok (report, u₁) ∧
    (∀ report' u', apply m file u none = .ok (report', u') → u'.data = u₁.data) ∧
    ∀ j i, Held m t j i → u₁.bit j i = t.bit j i

section File

variable {symbols : List String} {author writeDate text : String}

/-- A bit that no value sets is as it was before. -/
theorem bit_of_not_reset (reader : Reader) (ht : t.Sized) (hu : u.Sized) (hdf : u.df = t.df)
    (hnames : PlainNames t) (hliteral : Literal t) (hsave : save m t symbols author writeDate = .ok text)
    (h : RestoresHeld reader m t u text) {j i : ℕ} (hheld : Held m t j i) (hno : ¬ Reset m t j i) :
    u.bit j i = t.bit j i := by
  obtain ⟨file, report, u₁, hparse, happ, -, hbits⟩ := h
  obtain ⟨file', report', u₁', hparse', happ', -, hkeep, -⟩ := restore_sets reader ht hu hdf hnames
    (fun name _ _ => Recoding.same_string name) hliteral.readable hsave
  rw [Recoding.same_apply] at hparse'
  obtain rfl := Except.ok.inj (hparse.symm.trans hparse')
  obtain ⟨-, rfl⟩ := Prod.mk.inj (Except.ok.inj (happ.symm.trans happ'))
  rw [← hkeep j i hno, hbits j i hheld]

theorem restoresHeld_of_reset (reader : Reader) (ht : t.Sized) (hu : u.Sized) (hdf : u.df = t.df)
    (hnames : PlainNames t) (hliteral : Literal t) (hsave : save m t symbols author writeDate = .ok text)
    (h : ∀ j i, Held m t j i → Reset m t j i) : RestoresHeld reader m t u text := by
  obtain ⟨file, report, u₁, hparse, happ, hset, -, hwhole⟩ := restore_sets reader ht hu hdf hnames
    (fun name _ _ => Recoding.same_string name) hliteral.readable hsave
  rw [Recoding.same_apply] at hparse
  exact ⟨file, report, u₁, hparse, happ, hwhole, fun j i hheld => hset j i (h j i hheld)⟩

/-- A bit that is held but not set is one of a field, and so on its page. -/
theorem exists_page_of_not_reset {j i : ℕ} (hheld : Held m t j i) (hno : ¬ Reset m t j i) :
    ∃ p, t.page j = some p ∧ i / 8 < p.data.length := by
  obtain ⟨name, c, line, hwritten, hcovers, offset, hloc, h1, h2⟩ := hheld
  have hc := hwritten.1
  cases hcls : c.cls with
  | scalar | array =>
    refine absurd ⟨name, c, line, hwritten, ?_⟩ hno
    simp only [Covers, Sets, hcls] at hcovers ⊢
    exact hcovers
  | string => simp only [Covers, hcls] at hcovers
  | bits =>
    obtain ⟨p, offset', raw, -, -, -, hl, hraw, -, -, -⟩ := lineOf_choice hc hcls hwritten.lineOf
    obtain ⟨pageIdx, hloc', hp⟩ := Tune.located_eq_some.mp hl
    obtain ⟨rfl, rfl⟩ := Prod.mk.inj (Option.some.inj (hloc.symm.trans hloc'))
    have hin := (readRaw_eq_some.mp hraw).1
    have hcount : valueCount c = 1 := by simp only [valueCount, hcls]
    rw [hcount, Nat.one_mul] at h2
    exact ⟨p, hp, by omega⟩

end File

/-- **A saved file restores every bit that it has, in every tune, exactly when each is set by a value.** -/
theorem restored_iff (reader : Reader) (m : Machine) (t : Tune XRat) (symbols : List String)
    (author writeDate text : String) (ht : t.Sized) (hnames : PlainNames t) (hliteral : Literal t)
    (hsave : save m t symbols author writeDate = .ok text) :
    (∀ u : Tune XRat, u.Sized → u.df = t.df → RestoresHeld reader m t u text) ↔
      ∀ j i, Held m t j i → Reset m t j i := by
  constructor
  · intro h j i hheld
    by_contra hno
    obtain ⟨p, hp, hi⟩ := exists_page_of_not_reset hheld hno
    obtain ⟨u, hu, hdf, hbit⟩ := exists_inverted ht hp hi
    have hsame := bit_of_not_reset reader ht hu hdf hnames hliteral hsave (h u hu hdf) hheld hno
    rw [hbit] at hsame
    exact absurd hsame (by cases t.bit j i <;> decide)
  · exact fun h u hu hdf => restoresHeld_of_reset reader ht hu hdf hnames hliteral hsave h

theorem literal_garage (bytes : List UInt8) : Literal (garage bytes) := by
  have hplain := plain_garage bytes
  have hlabels : ∀ name c, (garage bytes).constant name = some c → c.cls = .bits →
      c.labels = ["Off", "On/Off", "PWM"] := by
    intro name c hc hcls
    have hall : ∀ e ∈ garageConstants.map fun c => (c.name, c), e.2.cls = .bits →
        e.2.labels = ["Off", "On/Off", "PWM"] := by decide
    exact hall _ (garage_constant hc) hcls
  refine ⟨hplain.literal, hplain.arrays, fun name c hc hcls i k label hi hk _ => ?_,
    fun name c hc hcls label hmem _ => ?_⟩
  · rw [hlabels name c hc hcls] at hi hk
    have hnodup : ["Off", "On/Off", "PWM"].Nodup := by decide
    exact (List.getElem?_inj (List.getElem?_eq_some_iff.mp hi).1 hnodup).mp (hi.trans hk.symm)
  · rw [hlabels name c hc hcls] at hmem
    have hall : ∀ label ∈ ["Off", "On/Off", "PWM"], '"' ∉ label.toList := by decide
    exact hall label hmem

theorem narrow_garage (bytes : List UInt8) : Narrow (garage bytes) := by
  intro name c lo hi hc hcls hshape hle
  have := (plain_garage bytes).fields name c lo hi hc hcls hshape
  have := size_bits_le c.ty
  omega

theorem restored_iff_garage : ∃ text,
    save ⟨.debug, 8⟩ (garage garageBytes) ["LAMBDA"] "Ann & Bo" "today" = .ok text ∧
      RestoresHeld Xml.scanner ⟨.debug, 8⟩ (garage garageBytes) (garage [9, 9, 9, 9, 9, 9, 9, 9]) text := by
  obtain ⟨text, hsave⟩ := save_garage
  have hsized : (garage garageBytes).Sized := .cons ⟨rfl, rfl, rfl⟩ .nil
  have hrestores := (restored_iff Xml.scanner _ _ _ _ _ _ hsized (garage_names _) (literal_garage _) hsave).mpr
    fun j i => (narrow_garage _).reset
  exact ⟨text, hsave, hrestores _ (.cons ⟨rfl, rfl, rfl⟩ .nil) rfl⟩

/-! ## A field of 64 bits -/

/-- A choice of one byte that is declared with 64 bits. -/
def wideChoice (byte : UInt8) : Tune XRat :=
  plainTune [plainConstant "flags" .bits .u08 0 (some (.bits 0 63)) (.num 1)] [[byte]]

theorem wideChoice_constant {byte : UInt8} {name : String} {c : ConstantDef XRat}
    (h : (wideChoice byte).constant name = some c) :
    name = "flags" ∧ c = plainConstant "flags" .bits .u08 0 (some (.bits 0 63)) (.num 1) := by
  have hmem := IndexMap.get?_eq_some.mp h
  exact Prod.mk.inj (List.mem_singleton.mp hmem)

/-- **The mask of 64 bits is empty**, and nothing of the choice is restored. -/
theorem wideChoice_not_restored : ¬ ∀ (reader : Reader) (m : Machine) (t : Tune XRat)
    (symbols : List String) (author writeDate text : String), t.Sized → PlainNames t → Literal t →
    save m t symbols author writeDate = .ok text →
      ∀ u : Tune XRat, u.Sized → u.df = t.df → RestoresHeld reader m t u text := by
  intro h
  have hok : (save ⟨.release, 8⟩ (wideChoice 5) [] "" "").isOk = true := by decide +kernel
  have hlines : (pageLines ⟨.release, 8⟩ (wideChoice 5) 0).toOption = some [("flags", .index 0)] := by
    decide +kernel
  have hnames : PlainNames (wideChoice 5) := by
    refine ⟨fun name c hc => ?_, fun name c hc => ?_⟩
    · rw [(wideChoice_constant hc).1]
      decide
    · cases hc
  have hliteral : Literal (wideChoice 5) := by
    refine ⟨fun name c hc hcls => ?_, fun name c hc hcls => ?_, fun name c hc _ i k label hi => ?_,
      fun name c hc _ label hmem => ?_⟩
    all_goals obtain ⟨-, rfl⟩ := wideChoice_constant hc
    · rcases hcls with hcls | hcls <;> cases hcls
    · cases hcls
    · cases hi
    · cases hmem
  rcases hsave : save ⟨.release, 8⟩ (wideChoice 5) [] "" "" with e | text
  · rw [hsave] at hok
    cases hok
  rcases hpage : pageLines ⟨.release, 8⟩ (wideChoice 5) 0 with e | lines
  · rw [hpage] at hlines
    cases hlines
  rw [hpage] at hlines
  obtain rfl := Option.some.inj hlines
  have hheld : Held ⟨.release, 8⟩ (wideChoice 5) 0 0 :=
    ⟨"flags", _, .index 0, ⟨rfl, 0, by decide, _, hpage, List.mem_singleton_self _⟩,
      ⟨0, 0, 63, rfl, rfl, by decide, by decide⟩, 0, rfl, by decide, by decide⟩
  have hno : ¬ Reset ⟨.release, 8⟩ (wideChoice 5) 0 0 := by
    rintro ⟨name, c, line, hwritten, hsets⟩
    obtain ⟨-, rfl⟩ := wideChoice_constant hwritten.1
    obtain ⟨offset, lo, hi, -, hshape, -, -, -, hlt⟩ := hsets
    obtain ⟨rfl, rfl⟩ := Shape.bits.inj (Option.some.inj hshape)
    exact absurd hlt (Nat.not_lt.mpr (Nat.zero_le _))
  have hsized : ∀ byte, (wideChoice byte).Sized := fun _ => .cons ⟨rfl, rfl, rfl⟩ .nil
  have hbit := bit_of_not_reset Xml.scanner (hsized 5) (hsized 0) rfl hnames hliteral hsave
    (h Xml.scanner _ _ _ _ _ _ (hsized 5) hnames hliteral hsave (wideChoice 0) (hsized 0) rfl) hheld hno
  exact absurd hbit (by decide +kernel)

end RustyTune.TuneModel.Msq
