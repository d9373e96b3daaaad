import RustyTune.Lib.Xml
import RustyTune.TuneModel.Msq.File

/-!
# Reading a tune file

The file is read through a pull parser. Entries of numbered pages are constants; the text of an
element is put together from its pieces, with a blank after each.

* `ParseState.event`: what an event does; `MsqFile.parse`: the file of a text.
-/

namespace RustyTune.TuneModel.Msq

open Xml (Event Reader)

inductive MsqError
  | xml (text : String)
  deriving DecidableEq, Repr

structure ParseState (F : Type) where
  file : MsqFile F
  /-- Tag and name of the element that is open. -/
  element : Option (String × String)
  body : List Char
  inNumberedPage : Bool

variable {F : Type}

/-- The value of an attribute, if it can be unescaped. -/
def attrOf (attributes : List (String × Option String)) (key : String) : Option String :=
  attributes.findSome? fun (k, value) => if k = key then value else none

namespace ParseState

def init : ParseState F := ⟨MsqFile.empty, none, [], false⟩

/-- A start tag, or an empty element. -/
def opening (s : ParseState F) (tag : String) (attributes : List (String × Option String)) :
    ParseState F :=
  match tag with
  | "bibliography" => { s with file := { s.file with
      author := attrOf attributes "author"
      writeDate := attrOf attributes "writeDate" } }
  | "versionInfo" => { s with file := { s.file with
      signature := attrOf attributes "signature"
      firmwareInfo := attrOf attributes "firmwareInfo" } }
  | "page" => { s with inNumberedPage := (attrOf attributes "number").isSome }
  | "setting" =>
    match attrOf attributes "name" with
    | some name => { s with file := { s.file with settings := s.file.settings ++ [name] } }
    | none => s
  | "constant" | "pcVariable" =>
    match attrOf attributes "name" with
    | some name => { s with element := some (tag, name), body := [] }
    | none => s
  | _ => s

variable [F64 F]

def closing (s : ParseState F) (tag : String) : ParseState F :=
  if tag = "constant" ∨ tag = "pcVariable" then
    match s.element with
    | none => s
    | some (tag, name) =>
      let value := parseBody s.body
      let s := { s with element := none }
      if tag = "pcVariable" then
        { s with file := { s.file with pcVariables := s.file.pcVariables.insert name value } }
      else if s.inNumberedPage then
        { s with file := { s.file with constants := s.file.constants.insert name value } }
      else s
  else s

/-- What an event does, or the error it is. -/
def event (s : ParseState F) : Except String Event → Except MsqError (ParseState F)
  | .error e => .error (.xml e)
  | .ok (.start tag attributes) => .ok (s.opening tag attributes)
  | .ok (.empty tag attributes) => .ok (s.opening tag attributes)
  | .ok (.text text) =>
    if s.element.isSome then
      match text with
      | .error e => .error (.xml e)
      | .ok text => .ok { s with body := s.body ++ text.toList ++ [' '] }
    else .ok s
  | .ok (.stop tag) => .ok (s.closing tag)
  | .ok .declaration => .ok s

end ParseState

/-- The file that a text stands for, as the reader reads it. -/
def MsqFile.parse [F64 F] (reader : Reader) (src : List Char) : Except MsqError (MsqFile F) :=
  ((reader.read src).foldlM ParseState.event ParseState.init).map ParseState.file

end RustyTune.TuneModel.Msq
