import RustyTune.Lib.Slice
import RustyTune.Lib.Text
import RustyTune.TsIni.Model

/-!
# The tune in memory

Each page is kept three times: the local data, what the ECU's RAM has as far as we know, and what
its EEPROM has.

* `PageState`, `Tune`, and the operations on whole pages: `loadPage`, `syncShadows`, `resyncEcu`.
* `Tune.new`: pages of zeros, variables from the definition's defaults.
-/

namespace RustyTune.TuneModel

open TsIni

variable {F : Type}

/-- One tune page: desired bytes, what the ECU RAM has, what EEPROM has. -/
structure PageState where
  data : List UInt8
  ecu : List UInt8
  burned : List UInt8
  deriving DecidableEq, Repr

structure Tune (F : Type) where
  df : IniDef F
  pages : List PageState
  /-- Values of the tuning application's variables, which are on no page. -/
  pcValues : IndexMap String F
  loaded : Bool

namespace Tune

/-- Pages of the definition's sizes, all zero, and the variables that have a numeric default. -/
def new [F64 F] (df : IniDef F) : Tune F where
  df
  pages := df.header.pageSizes.map fun size =>
    let zeros := List.replicate size.toNat 0
    ⟨zeros, zeros, zeros⟩
  pcValues := IndexMap.ofList (df.defaultValues.filterMap fun (name, text) =>
    (F64.parse (String.ofList (Text.trim text.toList))).map fun v => (name, v))
  loaded := false

def setLoaded (t : Tune F) (loaded : Bool) : Tune F := { t with loaded }

def pageCount (t : Tune F) : ℕ := t.pages.length

def page (t : Tune F) (pageIdx : ℕ) : Option PageState := t.pages[pageIdx]?

/-- A change of one page; nothing happens when there is no such page. -/
def modifyPage (t : Tune F) (pageIdx : ℕ) (f : PageState → PageState) : Tune F :=
  { t with pages := t.pages.modify pageIdx f }

/-- Install a page downloaded from the ECU: all three copies agree. -/
def loadPage (t : Tune F) (pageIdx : ℕ) (bytes : List UInt8) : Tune F :=
  t.modifyPage pageIdx fun _ => ⟨bytes, bytes, bytes⟩

/-- Make the shadows agree with the local data on every page. -/
def syncShadows (t : Tune F) : Tune F :=
  { t with pages := t.pages.map fun p => { p with ecu := p.data, burned := p.data } }

/-- Resync the shadow of the ECU's RAM; pending edits stay pending. -/
def resyncEcu (t : Tune F) (pageIdx : ℕ) (bytes : List UInt8) : Tune F :=
  t.modifyPage pageIdx fun p => { p with ecu := bytes }

/-! ## What stays -/

@[simp] theorem pages_modifyPage (t : Tune F) (i : ℕ) (f : PageState → PageState) :
    (t.modifyPage i f).pages = t.pages.modify i f := rfl

@[simp] theorem df_modifyPage (t : Tune F) (i : ℕ) (f : PageState → PageState) :
    (t.modifyPage i f).df = t.df := rfl

@[simp] theorem loaded_modifyPage (t : Tune F) (i : ℕ) (f : PageState → PageState) :
    (t.modifyPage i f).loaded = t.loaded := rfl

@[simp] theorem pcValues_modifyPage (t : Tune F) (i : ℕ) (f : PageState → PageState) :
    (t.modifyPage i f).pcValues = t.pcValues := rfl

@[simp] theorem page_modifyPage (t : Tune F) (i : ℕ) (f : PageState → PageState) (j : ℕ) :
    (t.modifyPage i f).page j = if i = j then (t.page j).map f else t.page j := by
  simp only [page, pages_modifyPage, List.getElem?_modify]
  split_ifs <;> simp

end Tune

end RustyTune.TuneModel
