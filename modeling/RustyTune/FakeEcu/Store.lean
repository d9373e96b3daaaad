import Mathlib.Logic.Function.Basic
import RustyTune.EcuProto.Pages
import RustyTune.EcuProto.Templates
import RustyTune.Lib.Decimal

/-!
# The simulator's pages

The working and the burned copies of the tune pages, the calibration table, and the file that keeps
what is burned.

* `PageStore.read`, `write`, `crc`, `burn`: the page operations; `receive`: one part of a
  calibration.
* `PageStore.persist`: the file is written; `PageStore.new`: a simulator that starts, from its file.
* **`load_document`**: what is written is what the next start loads.
-/

namespace RustyTune.FakeEcu

open EcuProto

/-! ## Pages -/

/-- The sizes of the pages, page 1 first. -/
def PAGE_SIZES : List ℕ :=
  [128, 288, 288, 128, 288, 128, 240, 384, 192, 192, 288, 192, 128, 288, 256]

/-- A page; the number on the line is one more. -/
abbrev PageNum := Fin PAGE_SIZES.length

def PageNum.size (n : PageNum) : ℕ := PAGE_SIZES.get n

/-- `valid`: the page of a number on the line. -/
def valid (pageNum : UInt8) : Option PageNum :=
  if h : 1 ≤ pageNum.toNat ∧ pageNum.toNat ≤ PAGE_SIZES.length then
    some ⟨pageNum.toNat - 1, by omega⟩
  else none

/-- The contents of all pages, each of its size. -/
@[ext] structure Memory where
  page : PageNum → List UInt8
  size : ∀ n, (page n).length = n.size

namespace Memory

def set (m : Memory) (n : PageNum) (p : List UInt8) (h : p.length = n.size) : Memory where
  page := Function.update m.page n p
  size := by
    intro k
    by_cases hk : k = n
    · rw [hk, Function.update_self, h]
    · rw [Function.update_of_ne hk, m.size]

@[simp] theorem page_set_self (m : Memory) (n : PageNum) (p : List UInt8) (h : p.length = n.size) :
    (m.set n p h).page n = p := Function.update_self ..

theorem page_set_of_ne (m : Memory) {n k : PageNum} (p : List UInt8) (h : p.length = n.size)
    (hk : k ≠ n) : (m.set n p h).page k = m.page k := Function.update_of_ne hk ..

end Memory

/-- The deterministic content of a page. -/
def defaultPage (n : PageNum) : List UInt8 :=
  (List.range n.size).map fun i => UInt8.ofNat ((n.val + 1) * 31 + i)

def defaultMemory : Memory := ⟨defaultPage, fun n => by simp [defaultPage]⟩

/-! ## The file -/

/-- `bytes.hex`. -/
def hex (bs : List UInt8) : String :=
  String.ofList (bs.flatMap fun b => [Nat.digitChar (b.toNat / 16), Nat.digitChar (b.toNat % 16)])

/-- White space that `fromhex` skips between two bytes. -/
def isSpace (c : Char) : Bool := c = ' ' || ('\t' ≤ c && c ≤ '\r')

/-- `bytearray.fromhex`; none where it raises an error. -/
def fromHex : List Char → Option (List UInt8)
  | [] => some []
  | [c] => if isSpace c then some [] else none
  | c :: d :: cs =>
    if isSpace c then fromHex (d :: cs)
    else do return UInt8.ofNat (16 * (← hexDigit c) + (← hexDigit d)) :: (← fromHex cs)

/-- The document of the file. -/
structure Saved where
  pages : Option (List (String × String))
  afrCalibration : Option String
  deriving DecidableEq

/-! ## The store -/

/-- Working ("RAM") and burned ("EEPROM") copies of every page, and the calibration table. -/
structure PageStore where
  calibration : List UInt8
  calibrationPending : List UInt8
  calibrationOffset : ℕ
  burned : Memory
  working : Memory
  /-- A path for the file was given. -/
  storagePath : Bool
  /-- What stands there. -/
  file : Option Saved

/-- The table a new simulator has: `round((10 + i * 10 / 1023) * 10)`, where nothing lies half-way. -/
def defaultCalibration : List UInt8 :=
  (List.range 1024).map fun i => UInt8.ofNat (100 + (200 * i + 1023) / 2046)

namespace PageStore

def read (s : PageStore) (n : PageNum) (offset count : ℕ) : Option (List UInt8) :=
  slice? (s.working.page n) offset count

theorem length_overwrite_page {m : Memory} {n : PageNum} {offset : ℕ} {data : List UInt8}
    (h : offset + data.length ≤ n.size) : (overwrite (m.page n) offset data).length = n.size := by
  rw [length_overwrite (by rwa [m.size]), m.size]

def write (s : PageStore) (n : PageNum) (offset : ℕ) (data : List UInt8) : Option PageStore :=
  if h : offset + data.length ≤ n.size then
    some { s with
      working := s.working.set n (overwrite (s.working.page n) offset data) (length_overwrite_page h) }
  else none

def crc (s : PageStore) (n : PageNum) : UInt32 := crc32 (s.working.page n)

/-- What `persist` writes. -/
def document (s : PageStore) : Saved where
  pages := some ((List.finRange PAGE_SIZES.length).map fun n =>
    (toString (n.val + 1), hex (s.burned.page n)))
  afrCalibration := some (hex s.calibration)

def persist (s : PageStore) : PageStore :=
  if s.storagePath then { s with file := some s.document } else s

def burn (s : PageStore) (n : PageNum) : PageStore :=
  persist { s with burned := s.burned.set n (s.working.page n) (s.working.size n) }

/-- Where the next part of a calibration starts; at zero it starts anew. -/
def expected (s : PageStore) (offset : ℕ) : ℕ := if offset = 0 then 0 else s.calibrationOffset

/-- A calibration that is complete is taken over. -/
def complete (s : PageStore) : PageStore :=
  if s.calibrationOffset = 1024 then persist { s with calibration := s.calibrationPending } else s

/-- A part of the calibration table; none where it does not follow the part before. -/
def receive (s : PageStore) (offset count : ℕ) (data : List UInt8) : Option PageStore :=
  if count ≠ data.length ∨ offset + count > 1024 ∨ count % 32 ≠ 0 then none
  else if offset ≠ s.expected offset then none
  else
    some (complete { s with
      calibrationPending := overwrite s.calibrationPending offset data
      calibrationOffset := s.expected offset + count })

/-! ## Starting -/

/-- One page of the file; a number that is no page, or another size, is passed over. -/
def loadPage (m : Memory) (entry : String × String) : Option Memory := do
  let num ← parseWhole entry.1.toList
  let data ← fromHex entry.2.toList
  if h : 1 ≤ num ∧ num ≤ PAGE_SIZES.length then
    let n : PageNum := ⟨num.toNat - 1, by omega⟩
    if hsize : data.length = n.size then return m.set n data hsize else return m
  else return m

/-- The burned pages and the calibration of a file; none where it is not what `persist` writes. -/
def load (file : Option Saved) : Option (Memory × List UInt8) :=
  match file with
  | none => some (defaultMemory, defaultCalibration)
  | some saved => do
    let afr := saved.afrCalibration.getD ""
    let calibration ← if afr.length = 2048 then fromHex afr.toList else some defaultCalibration
    let burned ← (saved.pages.getD []).foldlM loadPage defaultMemory
    return (burned, calibration)

/-- The working copy starts from the burned state, like a real power-on. -/
def new (storagePath : Bool) (file : Option Saved) : Option PageStore := do
  let (burned, calibration) ← load (if storagePath then file else none)
  return ⟨calibration, calibration, 0, burned, burned, storagePath, file⟩

end PageStore

/-! ## What is written is loaded -/

theorem isSpace_digitChar : ∀ n < 16, isSpace (Nat.digitChar n) = false := by decide

theorem fromHex_hex (bs : List UInt8) : fromHex (hex bs).toList = some bs := by
  rw [hex, String.toList_ofList]
  induction bs with
  | nil => rfl
  | cons b bs ih =>
    have hb := b.toNat_lt
    have hhi : b.toNat / 16 < 16 := by omega
    have hlo : b.toNat % 16 < 16 := Nat.mod_lt _ (by decide)
    have hbyte : UInt8.ofNat (16 * (b.toNat / 16) + b.toNat % 16) = b := by
      rw [Nat.div_add_mod, UInt8.ofNat_toNat]
    rw [List.flatMap_cons, List.cons_append, List.cons_append, List.nil_append, fromHex,
      isSpace_digitChar _ hhi, if_neg Bool.false_ne_true, hexDigit_digitChar _ hhi,
      hexDigit_digitChar _ hlo, ih]
    exact congrArg some (congrArg (· :: bs) hbyte)

theorem length_hex (bs : List UInt8) : (hex bs).length = 2 * bs.length := by
  rw [hex, String.length_ofList]
  induction bs with
  | nil => rfl
  | cons b bs ih =>
    rw [List.flatMap_cons, List.length_append, ih, List.length_cons]
    simp only [List.length_cons, List.length_nil]
    omega

namespace PageStore

theorem loadPage_document (m : Memory) (n : PageNum) (p : List UInt8) (hp : p.length = n.size) :
    loadPage m (toString (n.val + 1), hex p) = some (m.set n p hp) := by
  have hnum : ∀ n : PageNum, parseWhole (toString (n.val + 1)).toList = some ((n.val + 1 : ℕ) : ℤ) := by
    decide
  have hpage : 1 ≤ ((n.val + 1 : ℕ) : ℤ) ∧ ((n.val + 1 : ℕ) : ℤ) ≤ PAGE_SIZES.length := by omega
  have hsize : p.length = PageNum.size ⟨((n.val + 1 : ℕ) : ℤ).toNat - 1, by omega⟩ := hp
  rw [loadPage, hnum, Option.bind_eq_bind, Option.bind_some, fromHex_hex, Option.bind_eq_bind,
    Option.bind_some, dif_pos hpage, dif_pos hsize]
  rfl

/-- The pages that are written, over those of a simulator that starts. -/
theorem foldlM_loadPage (b : Memory) (l : List PageNum) (m : Memory) :
    ∃ m' : Memory, (l.map fun n => (toString (n.val + 1), hex (b.page n))).foldlM loadPage m = some m' ∧
      (∀ n ∈ l, m'.page n = b.page n) ∧ ∀ n ∉ l, m'.page n = m.page n := by
  induction l generalizing m with
  | nil => exact ⟨m, rfl, fun n hn => absurd hn List.not_mem_nil, fun n _ => rfl⟩
  | cons k l ih =>
    obtain ⟨m', hm', hin, hout⟩ := ih (m.set k (b.page k) (b.size k))
    refine ⟨m', ?_, fun n hn => ?_, fun n hn => ?_⟩
    · rw [List.map_cons, List.foldlM_cons, loadPage_document m k (b.page k) (b.size k)]
      exact hm'
    · by_cases hl : n ∈ l
      · exact hin n hl
      · obtain rfl : n = k := (List.mem_cons.mp hn).resolve_right hl
        rw [hout n hl, Memory.page_set_self]
    · rw [List.mem_cons, not_or] at hn
      rw [hout n hn.2, Memory.page_set_of_ne m _ _ hn.1]

/-- **What is written is what the next start loads.** -/
theorem load_document (s : PageStore) (hcal : s.calibration.length = 1024) :
    load (some s.document) = some (s.burned, s.calibration) := by
  have hlen : (hex s.calibration).length = 2048 := by rw [length_hex, hcal]
  obtain ⟨m, hm, hpage, -⟩ := foldlM_loadPage s.burned (List.finRange PAGE_SIZES.length) defaultMemory
  have hburned : m = s.burned := by
    ext n : 2
    exact hpage n (List.mem_finRange n)
  change (do
    let calibration ← if (hex s.calibration).length = 2048 then fromHex (hex s.calibration).toList
      else some defaultCalibration
    let burned ← ((List.finRange PAGE_SIZES.length).map fun n : PageNum =>
      (toString (n.val + 1), hex (s.burned.page n))).foldlM loadPage defaultMemory
    return (burned, calibration)) = _
  rw [if_pos hlen, fromHex_hex, hm, hburned]
  rfl

end PageStore

end RustyTune.FakeEcu
