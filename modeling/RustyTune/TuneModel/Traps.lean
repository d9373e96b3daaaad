import RustyTune.Lib.XRat
import RustyTune.TsIni.Parse
import RustyTune.TuneModel.Answers
import RustyTune.TuneModel.Edits

/-!
# Where the tune and the telemetry trap

Bit fields overflow where their ends do not fit the word, and writes index a page that may not be
there.

* `NoTrap`: a computation neither overflows nor indexes out of bounds.
* `Fits`: the ends of a bit field fit the word; **`fieldValue_noTrap_iff`**, **`fieldSet_noTrap_iff`**,
  **`bitsOf_noTrap_iff`**: within 63 bits, and **`fieldRaw_noTrap_iff`**: with a sign within 62.
* `Tune.Safe`: the bit fields that are read fit, and the pages that are written are there. Nothing that
  is done to a safe tune traps: `Safe.constantValue`, `Safe.arrayValues`, `Safe.table`,
  `Safe.setConstantImpl`, `Safe.setArrayElementImpl`, `Safe.setTableCell`.
-/

namespace RustyTune.TuneModel

open TsIni Exec

/-- Aborts that are neither an overflow nor an index out of bounds. -/
def NotTrap (e : Abort) : Prop := e ≠ .overflow ∧ e ≠ .indexOutOfBounds

/-- The computation neither overflows nor indexes out of bounds. -/
def NoTrap {α : Type} (x : Exec α) : Prop := AbortsOnly NotTrap x

theorem notTrap_expression : NotTrap .expression := ⟨by decide, by decide⟩

theorem notTrap_stackOverflow : NotTrap .stackOverflow := ⟨by decide, by decide⟩

theorem usize_noTrap (m : Machine) (n : ℕ) : NoTrap (m.usize n) := by
  by_cases hn : n < 2 ^ 64
  · rw [m.usize_of_lt hn]
    exact abortsOnly_ok n
  · cases hd : m.build with
    | debug =>
      rw [m.usize_debug hd (Nat.not_lt.mp hn)]
      exact abortsOnly_error ⟨by decide, by decide⟩
    | release =>
      rw [m.usize_release hd]
      exact abortsOnly_ok _

/-! ## Bit fields -/

/-- The ends of the field are in order, it has no more than so many bits, and it starts within the
word. -/
def Fits (bits : ℕ) (lo hi : UInt8) : Prop :=
  lo.toNat ≤ hi.toNat ∧ hi.toNat < lo.toNat + bits ∧ lo.toNat < 64

instance (bits : ℕ) (lo hi : UInt8) : Decidable (Fits bits lo hi) :=
  inferInstanceAs (Decidable (_ ∧ _ ∧ _))

theorem Fits.mono {bits bits' : ℕ} {lo hi : UInt8} (h : Fits bits lo hi) (hle : bits ≤ bits') :
    Fits bits' lo hi := ⟨h.1, by have := h.2.1; omega, h.2.2⟩

section Fields

variable {m : Machine} {lo hi : UInt8} {α : Type}

theorem checked_bind_noTrap_iff {β : Type} {ok : Bool} {wrapped : α} {f : α → Exec β} :
    NoTrap (m.checked ok wrapped >>= f) ↔
      (m.build = .debug → ok = true) ∧ NoTrap (f wrapped) := by
  unfold Machine.checked NoTrap
  split_ifs with h
  · exact ⟨fun hx => absurd rfl (hx _ rfl).1, fun hx => absurd (hx.1 h.1) (by simp [h.2])⟩
  · exact ⟨fun hx => ⟨fun hd => by cases ok <;> simp_all, hx⟩, fun hx => hx.2⟩

theorem width_iff {bits : ℕ} (hbits : bits < 64) :
    Fits bits lo hi ↔ (lo.toNat ≤ hi.toNat ∧ (hi - lo).toNat + (1 : UInt8).toNat < 2 ^ 8) ∧
      (hi - lo + 1).toNat < bits + 1 ∧ lo.toNat < 64 := by
  have hhi := hi.toNat_lt
  have hlo := lo.toNat_lt
  have hsub (h : lo.toNat ≤ hi.toNat) : (hi - lo).toNat = hi.toNat - lo.toNat := by
    rw [UInt8.toNat_sub]
    omega
  have hadd (h : lo.toNat ≤ hi.toNat) (h' : hi.toNat - lo.toNat + 1 < 256) :
      (hi - lo + 1).toNat = hi.toNat - lo.toNat + 1 := by
    rw [UInt8.toNat_add, hsub h]
    exact Nat.mod_eq_of_lt h'
  unfold Fits
  constructor
  · rintro ⟨h1, h2, h3⟩
    rw [hadd h1 (by omega), hsub h1]
    exact ⟨⟨h1, by change _ + 1 < 256; omega⟩, by omega, h3⟩
  · rintro ⟨⟨h1, h2⟩, h3, h4⟩
    rw [hsub h1] at h2
    rw [hadd h1 h2] at h3
    exact ⟨h1, by omega, h4⟩

theorem one_shiftLeft_ne_zero (n : ℕ) : (1 : BitVec 64) <<< (n % 64) ≠ 0 := by
  intro h
  have hn : n % 64 < 64 := Nat.mod_lt _ (by decide)
  have hbit := congrArg (fun w : BitVec 64 => w.getLsbD (n % 64)) h
  simp [hn] at hbit

theorem one_shiftLeft_eq_intMin_iff {n : ℕ} (hn : n < 64) :
    (1 : BitVec 64) <<< (n % 64) = BitVec.intMin 64 ↔ n = 63 := by
  rw [Nat.mod_eq_of_lt hn]
  constructor
  · intro h
    have hbit := congrArg (fun w : BitVec 64 => w.getLsbD n) h
    have hone : ((1 : BitVec 64) <<< n).getLsbD n = true := by simp [hn]
    rw [hone, BitVec.getLsbD_intMin] at hbit
    have := of_decide_eq_true hbit.symm
    omega
  · rintro rfl
    decide

theorem noTrap_pure (a : α) : NoTrap (pure a) := abortsOnly_ok a

theorem fieldValue_noTrap_iff {raw : BitVec 64} :
    NoTrap (fieldValue m lo hi raw) ↔ (m.build = .debug → Fits 63 lo hi) := by
  simp only [fieldValue, onesU64, fieldWidth, Machine.subU8, Machine.addU8, Machine.shlU64,
    Machine.predU64, Machine.shrU64, bind_assoc, checked_bind_noTrap_iff, decide_eq_true_eq,
    width_iff (show 63 < 64 by decide), one_shiftLeft_ne_zero, ne_eq, not_false_eq_true, noTrap_pure]
  tauto

theorem bitsOf_noTrap_iff {raw : BitVec 64} :
    NoTrap (Telemetry.bitsOf m lo hi raw) ↔ (m.build = .debug → Fits 63 lo hi) := by
  simp only [Telemetry.bitsOf, Machine.subU8, Machine.addU8, Machine.shlU64, Machine.predU64,
    Machine.shrU64, checked_bind_noTrap_iff, decide_eq_true_eq, width_iff (show 63 < 64 by decide),
    one_shiftLeft_ne_zero, ne_eq, not_false_eq_true, noTrap_pure]
  tauto

theorem fieldSet_noTrap_iff {current index : BitVec 64} :
    NoTrap (fieldSet m lo hi current index) ↔ (m.build = .debug → Fits 63 lo hi) := by
  simp only [fieldSet, fieldMask, onesU64, fieldWidth, Machine.subU8, Machine.addU8, Machine.shlU64,
    Machine.predU64, bind_assoc, checked_bind_noTrap_iff, decide_eq_true_eq,
    width_iff (show 63 < 64 by decide), one_shiftLeft_ne_zero, ne_eq, not_false_eq_true, noTrap_pure]
  tauto

/-- With a sign the mask has a bit less to it. -/
theorem fieldRaw_noTrap_iff {raw : BitVec 64} :
    NoTrap (fieldRaw m lo hi raw) ↔ (m.build = .debug → Fits 62 lo hi) := by
  have hmask : (hi - lo + 1).toNat < 62 + 1 ↔ (hi - lo + 1).toNat < 64 ∧
      ¬ (1 : BitVec 64) <<< ((hi - lo + 1).toNat % 64) = BitVec.intMin 64 := by
    constructor
    · intro h
      have h64 : (hi - lo + 1).toNat < 64 := by omega
      refine ⟨h64, ?_⟩
      rw [one_shiftLeft_eq_intMin_iff h64]
      omega
    · rintro ⟨h64, h⟩
      rw [one_shiftLeft_eq_intMin_iff h64] at h
      omega
  simp only [fieldRaw, onesI64, fieldWidth, Machine.subU8, Machine.addU8, Machine.shlI64,
    Machine.shlU64, Machine.predI64, Machine.shrI64, bind_assoc, checked_bind_noTrap_iff,
    decide_eq_true_eq, width_iff (show 62 < 64 by decide), hmask, ne_eq, noTrap_pure]
  by_cases hd : m.build = .debug
  · simp only [hd, true_imp_iff, and_true, and_assoc]
  · simp only [hd, false_imp_iff, and_true]

end Fields

/-! ## Accesses -/

/-- A write of a value to the constant reaches its page; for a scalar or an element its scale and
translate have to evaluate. -/
def Writes {F : Type} (c : ConstantDef F) (codes : Prop) : Prop :=
  match c.cls with
  | .scalar => codes
  | .array => 0 < c.elementCount ∧ codes
  | .bits => ∃ lo hi, c.shape = some (.bits lo hi)
  | .string => False

theorem Writes.mono {F : Type} {c : ConstantDef F} {p q : Prop} (h : p → q) (hw : Writes c p) : Writes c q := by
  unfold Writes at hw ⊢
  split at hw
  · exact h hw
  · exact ⟨hw.1, h hw.2⟩
  · exact hw
  · exact hw

variable {F : Type} [F64 F] {m : Machine}

/-- Scale and translate of the constant evaluate. -/
def Tune.Codes (m : Machine) (t : Tune F) (c : ConstantDef F) : Prop :=
  ∃ s, (t.coding m c).run = .ok (.ok s)

/-- The bit fields that lie in their pages fit. -/
def Tune.FieldsFit (m : Machine) (t : Tune F) : Prop :=
  m.build = .debug → ∀ name c p offset raw lo hi, t.constant name = some c → c.cls = .bits →
    c.shape = some (.bits lo hi) → t.located c = some (p, offset) →
    readRaw p.data offset c.ty = some raw → Fits 62 lo hi

/-- What keeps the accesses to a tune from trapping. -/
structure Tune.Safe (m : Machine) (t : Tune F) : Prop where
  symbols : (t.symbols m).AbortsOnly NotTrap
  fields : t.FieldsFit m
  /-- The pages that are written are there. -/
  pages : ∀ name c pageIdx offset, t.constant name = some c → location c = some (pageIdx, offset) →
    Writes c (t.Codes m c) → ∃ p, t.page pageIdx = some p

namespace Tune

variable {t : Tune F} {c : ConstantDef F}

theorem codes_of_encode {user : F} {clamp : Bool} {raw : ℤ}
    (h : (t.encodeImpl m c user clamp).run = .ok (.ok raw)) : t.Codes m c := by
  rw [encodeImpl_eq_bind, attempt_bind_eq_ok] at h
  obtain ⟨s, hs, -⟩ := h
  exact ⟨s, hs⟩

omit [F64 F] in
theorem FieldsFit.abortsOnly (ht : t.FieldsFit m) : t.FieldsAbortOnly m NotTrap :=
  fun name c p offset raw lo hi hc hcls hsh hl hraw => fieldValue_noTrap_iff.mpr fun hd =>
    (ht hd name c p offset raw lo hi hc hcls hsh hl hraw).mono (by decide)

omit [F64 F] in
theorem orError_noTrap {α : Type} (e : TuneError) (o : Option α) : NoTrap (orError e o).run := by
  cases o <;> exact abortsOnly_ok _

/-- The cells of a table are as many as its rows and columns say. -/
theorem length_arrayValues {table : TableDef F} {nx ny : ℕ} {flat : List F}
    (hdims : t.tableDims table = some (nx, ny))
    (hflat : t.arrayValues m table.zBins = .ok (some flat)) : flat.length = ny * nx := by
  unfold tableDims at hdims
  unfold Tune.arrayValues at hflat
  cases hsh : (t.constant table.zBins).bind ConstantDef.shape with
  | none => simp [hsh] at hdims
  | some shape =>
    rw [hsh] at hdims hflat
    have hlen := (collect_eq_some.mp hflat).length_eq.symm.trans List.length_range
    cases shape with
    | bits lo hi => exact nomatch hdims
    | array1D n =>
      obtain ⟨rfl, rfl⟩ := Prod.mk.inj (Option.some.inj hdims)
      rw [hlen, Nat.one_mul]
      rfl
    | array2D x y =>
      obtain ⟨rfl, rfl⟩ := Prod.mk.inj (Option.some.inj hdims)
      rw [hlen, Nat.mul_comm]
      rfl

omit [F64 F] in
theorem rows_noTrap {flat : List F} {nx ny : ℕ} (h : flat.length = ny * nx) :
    NoTrap (rows flat nx ny) := by
  refine abortsOnly_mapM fun row hrow => ?_
  have hle : row * nx + nx ≤ flat.length := by
    rw [h, ← Nat.succ_mul]
    exact Nat.mul_le_mul_right nx (List.mem_range.mp hrow)
  unfold sliceAt
  rw [slice?, if_pos hle]
  exact abortsOnly_ok _

namespace Safe

variable (hs : t.Safe m)
include hs

theorem eval (field : NumOrExpr F) : NoTrap (field.eval m (t.symbols m)).run :=
  field.eval_abortsOnly notTrap_expression hs.symbols

theorem constantValue (name : String) : NoTrap (t.constantValue m name) :=
  constantValueWith_abortsOnly notTrap_expression hs.fields.abortsOnly hs.symbols name

theorem arrayElement (name : String) (index : ℕ) : NoTrap (t.arrayElement m name index) :=
  arrayElementWith_abortsOnly notTrap_expression hs.symbols name index

theorem arrayValues (name : String) : NoTrap (t.arrayValues m name) := by
  have hcollect (is : List ℕ) : NoTrap (collect (t.arrayElement m name) is) := by
    induction is with
    | nil => exact noTrap_pure _
    | cons i is ih =>
      refine AbortsOnly.bind (hs.arrayElement name i) fun a _ => ?_
      cases a with
      | none => exact noTrap_pure _
      | some a => exact ih.bind fun _ _ => noTrap_pure _
  unfold Tune.arrayValues
  split
  · exact noTrap_pure _
  · exact hcollect _

theorem limit (l : Option (NumOrExpr F)) : NoTrap (t.limit m l) := by
  cases l with
  | none => exact noTrap_pure _
  | some l => exact evalOk_abortsOnly (hs.eval l)

theorem fieldOr (l : Option (NumOrExpr F)) (default : F) : NoTrap (t.fieldOr m l default) :=
  AbortsOnly.bind (hs.limit l) fun _ _ => noTrap_pure _

theorem evalField (field : NumOrExpr F) (what : String) : NoTrap (t.evalField m field what).run := by
  unfold Tune.evalField
  refine AbortsOnly.attempt_bind (AbortsOnly.lift (hs.eval field)) fun r _ => ?_
  cases r <;> exact abortsOnly_ok _

theorem clampUser (c : ConstantDef F) (user : F) : NoTrap (t.clampUser m c user) :=
  AbortsOnly.bind (hs.limit c.lo) fun _ _ => AbortsOnly.bind (hs.limit c.hi) fun _ _ => noTrap_pure _

theorem coding (c : ConstantDef F) : NoTrap (t.coding m c).run := by
  unfold Tune.coding
  refine AbortsOnly.attempt_bind (hs.evalField _ _) fun scale _ => ?_
  refine AbortsOnly.attempt_bind (hs.evalField _ _) fun translate _ => ?_
  split_ifs <;> exact abortsOnly_ok _

theorem encodeImpl (c : ConstantDef F) (user : F) (clamp : Bool) :
    NoTrap (t.encodeImpl m c user clamp).run := by
  rw [encodeImpl_eq_bind]
  refine AbortsOnly.attempt_bind (hs.coding c) fun s _ => AbortsOnly.attempt_bind ?_ fun user _ =>
    abortsOnly_ok _
  split_ifs
  · exact (hs.clampUser c user).lift
  · exact abortsOnly_ok _

/-! ### Writes -/

theorem pageAt {name : String} {pageIdx offset : ℕ} (hc : t.constant name = some c)
    (hloc : location c = some (pageIdx, offset)) (hw : Writes c (t.Codes m c)) :
    NoTrap (t.pageAt pageIdx) := by
  obtain ⟨p, hp⟩ := hs.pages name c pageIdx offset hc hloc hw
  rw [pageAt_eq_ok.mpr hp]
  exact noTrap_pure p

theorem setConstantImpl (name : String) (user : F) (clamp : Bool) :
    NoTrap (t.setConstantImpl m name user clamp).run := by
  unfold Tune.setConstantImpl
  refine AbortsOnly.attempt_bind (orError_noTrap _ _) fun c hc => ?_
  refine AbortsOnly.attempt_bind (orError_noTrap _ _) fun ⟨pageIdx, offset⟩ hloc => ?_
  rw [orError_eq_ok] at hc hloc
  dsimp only
  split
  · next hcls =>
    refine AbortsOnly.attempt_bind (hs.encodeImpl c user clamp) fun raw hraw => ?_
    have hw : Writes c (t.Codes m c) := by
      rw [Writes, hcls]
      exact codes_of_encode hraw
    exact AbortsOnly.attempt_bind (hs.pageAt hc hloc hw).lift fun _ _ => abortsOnly_ok _
  · next lo hi hcls hsh =>
    have hw : Writes c (t.Codes m c) := by
      rw [Writes, hcls]
      exact ⟨lo, hi, hsh⟩
    refine AbortsOnly.attempt_bind (hs.pageAt hc hloc hw).lift fun page hpage => ?_
    refine AbortsOnly.attempt_bind (orError_noTrap _ _) fun current hcur => ?_
    rw [lift_eq_ok, pageAt_eq_ok] at hpage
    rw [orError_eq_ok] at hcur
    have hl : t.located c = some (page, offset) := located_eq_some.mpr ⟨pageIdx, hloc, hpage⟩
    have hset (index : BitVec 64) : NoTrap (fieldSet m lo hi (BitVec.ofInt 64 current) index) :=
      fieldSet_noTrap_iff.mpr fun hd =>
        (hs.fields hd name c page offset current lo hi hc hcls hsh hl hcur).mono (by decide)
    exact AbortsOnly.attempt_bind (hset _).lift fun _ _ => abortsOnly_ok _
  · exact abortsOnly_ok _
  · exact abortsOnly_ok _

theorem setArrayElementImpl (name : String) (index : ℕ) (user : F) (clamp : Bool) :
    NoTrap (t.setArrayElementImpl m name index user clamp).run := by
  unfold Tune.setArrayElementImpl
  refine AbortsOnly.attempt_bind (orError_noTrap _ _) fun c hc => ?_
  rw [orError_eq_ok] at hc
  dsimp only
  split
  · exact abortsOnly_ok _
  · next hcls =>
    split
    · exact abortsOnly_ok _
    · next hindex =>
      refine AbortsOnly.attempt_bind (orError_noTrap _ _) fun ⟨pageIdx, offset⟩ hloc => ?_
      rw [orError_eq_ok] at hloc
      refine AbortsOnly.attempt_bind (hs.encodeImpl c user clamp) fun raw hraw => ?_
      have hw : Writes c (t.Codes m c) := by
        rw [Writes, not_not.mp hcls]
        exact ⟨by omega, codes_of_encode hraw⟩
      exact AbortsOnly.attempt_bind (hs.pageAt hc hloc hw).lift fun _ _ => abortsOnly_ok _

/-! ### Tables -/

theorem axisMeta (name : String) (expectedLen : ℕ) : NoTrap (t.axisMeta m name expectedLen) := by
  unfold Tune.axisMeta
  split
  · exact noTrap_pure _
  · split
    · exact noTrap_pure _
    · split_ifs
      · exact noTrap_pure _
      · refine AbortsOnly.bind (evalOk_abortsOnly (hs.eval _)) fun scale _ => ?_
        cases scale with
        | none => exact noTrap_pure _
        | some scale =>
          dsimp only
          split_ifs
          · exact noTrap_pure _
          · refine AbortsOnly.bind (hs.limit _) fun _ _ => AbortsOnly.bind (hs.limit _) fun _ _ =>
              AbortsOnly.bind (hs.fieldOr _ _) fun _ _ => ?_
            refine AbortsOnly.bind (evalOk_abortsOnly (hs.eval _)) fun translate _ => ?_
            cases translate <;> exact noTrap_pure _

theorem table (id : String) : NoTrap (t.table m id) := by
  unfold Tune.table
  split
  · exact noTrap_pure _
  · next table _ =>
    split
    · next nx ny zDef hdims hz =>
      refine AbortsOnly.bind (hs.arrayValues _) fun x _ => ?_
      cases x with
      | none => exact noTrap_pure _
      | some x =>
        refine AbortsOnly.bind (hs.arrayValues _) fun y _ => ?_
        cases y with
        | none => exact noTrap_pure _
        | some y =>
          refine AbortsOnly.bind (hs.arrayValues _) fun flat hflat => ?_
          cases flat with
          | none => exact noTrap_pure _
          | some flat =>
            refine AbortsOnly.bind (rows_noTrap (length_arrayValues hdims hflat)) fun _ _ => ?_
            refine AbortsOnly.bind (hs.fieldOr _ _) fun _ _ => AbortsOnly.bind (hs.fieldOr _ _)
              fun _ _ => AbortsOnly.bind (hs.fieldOr _ _) fun _ _ => AbortsOnly.bind (hs.fieldOr _ _)
              fun _ _ => AbortsOnly.bind (hs.fieldOr _ _) fun _ _ => ?_
            exact AbortsOnly.bind (hs.axisMeta _ _) fun _ _ => AbortsOnly.bind (hs.axisMeta _ _)
              fun _ _ => noTrap_pure _
    · exact noTrap_pure _

theorem setTableCell (id : String) (row col : ℕ) (value : F) :
    NoTrap (t.setTableCell m id row col value).run := by
  unfold Tune.setTableCell
  refine AbortsOnly.attempt_bind (orError_noTrap _ _) fun table _ => ?_
  refine AbortsOnly.attempt_bind (orError_noTrap _ _) fun ⟨nx, ny⟩ _ => ?_
  dsimp only
  split_ifs
  · refine AbortsOnly.attempt_bind (AbortsOnly.lift ?_) fun _ _ => abortsOnly_ok _
    exact (usize_noTrap m _).bind fun _ _ => usize_noTrap m _
  · exact hs.setArrayElementImpl _ _ value true

end Safe

end Tune

end RustyTune.TuneModel
