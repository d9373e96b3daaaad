import RustyTune.Server.Api

/-!
# Dialogs as forms

A dialog of the definition is flattened into rows, and the dialogs that its panels name stand in it
as rows of their own. Any dialog may name any other, and itself.

* `Readings`, `constantJson`: what the tune answers, and one constant as it is served.
* `FormRow`, `dialogItems`: the rows of a dialog, behind a chain of ancestors; recursion stops at a
  depth. `tuneDialog`: the whole answer.
* `HasPanel`: a panel in the rows, with the panels around it. `FreshPanels`: all of them have names of
  their own.
* **`dialogItems_yields`**: at a depth beyond the number of dialogs there are always rows, and the
  chain is as it was. `dialog_flattens`: the same for a whole answer.
-/

namespace RustyTune.Server

open TsIni

variable {F : Type}

/-! ## What the tune answers -/

/-- The values of expressions, constants and variables at the time of the request. -/
structure Readings (F : Type) where
  eval : Expr F → Except String (Value F)
  constantValue : String → Option (Value F)
  pcValue : String → Option F
  requiresPowerCycle : String → Bool

namespace Readings

variable [F64 F] (r : Readings F)

/-- A condition; without one, and when it cannot be evaluated, it holds. -/
def truthy : Option (Expr F) → Bool
  | none => true
  | some e =>
    match r.eval e with
    | .ok v => v.truthy
    | .error _ => true

/-- `NumOrExpr::eval`, `.ok()`. -/
def number : NumOrExpr F → Option F
  | .num n => some n
  | .expr e => (r.eval e).toOption.bind Value.asNum

/-- `StrOrExpr::eval`, `.ok()`. -/
def text : StrOrExpr F → Option String
  | .str s => some s
  | .expr e =>
    (r.eval e).toOption.map fun
      | .str s => s
      | .num n => F64.display n

/-- The value of a constant that is a number. -/
def constantNumber (name : String) : Option F := (r.constantValue name).bind Value.asNum

end Readings

structure ConstantJson (F : Type) where
  name : String
  value : Value F
  units : Option String
  digits : UInt8
  lo : Option F
  hi : Option F
  /-- Labels of a bits constant. -/
  labels : List String
  requiresPowerCycle : Bool

/-- A constant of a page or a variable of the application, with its value. -/
def constantJson [F64 F] (d : IniDef F) (r : Readings F) (name : String) : Option (ConstantJson F) := do
  let (c, value, requiresPowerCycle) ←
    match d.constants.get? name with
    | some c => do
      let value ← r.constantValue name
      some (c, value, r.requiresPowerCycle name)
    | none => do
      let c ← d.pcVariables.get? name
      let value ← r.pcValue name
      some (c, .num value, false)
  return {
    name := name
    value := value
    units := c.units.bind r.text
    digits := F64.toU8 ((c.digits.bind r.number).getD 0)
    lo := c.lo.bind r.number
    hi := c.hi.bind r.number
    labels := c.labels
    requiresPowerCycle := requiresPowerCycle }

/-! ## Rows -/

/-- One entry of a form. -/
inductive FormRow (F : Type)
  | header (label : String)
  | constant (label : String) (enabled : Bool) (constant : ConstantJson F)
  | displayOnly (label : String) (enabled : Bool) (constant : ConstantJson F)
  /-- A name with nothing to edit behind it. -/
  | unsupported (label name : String)
  | panel (name title : String) (enabled : Bool) (items : List (FormRow F))
  | curve (name title : String)
  | table (name title : String)
  | requiredFuel (constant : ConstantJson F) (cylinders afr : Option F)

def FormRow.isPanel : FormRow F → Bool
  | .panel .. => true
  | _ => false

/-- A panel, unless there is nothing in it. -/
def panelRows (name title : String) (enabled : Bool) (items : List (FormRow F)) : List (FormRow F) :=
  if items.isEmpty then [] else [.panel name title enabled items]

/-- A label without the marks of a bold header or a red note. -/
def headerText (label : String) : String :=
  let marked := Text.trim (Text.trimStartWhere (fun c => c == '#' || c == '!') label.toList)
  let quoted := Text.trimEndWhere (· == '"') (Text.trimStartWhere (· == '"') marked)
  String.ofList (Text.trim quoted)

section Rows

variable [F64 F] (d : IniDef F) (r : Readings F)

/-- What a field shows when it is visible. -/
def fieldRows (label : String) (constant : Option String) (enable : Option (Expr F)) :
    List (FormRow F) :=
  match constant with
  | none => if (headerText label).isEmpty then [] else [.header (headerText label)]
  | some name =>
    match constantJson d r name with
    | some c => [.constant label (r.truthy enable) c]
    | none => [.unsupported label name]

/-- What a read-only field shows when it is visible. -/
def displayRows (label : String) (constant : Option String) (enable : Option (Expr F)) :
    List (FormRow F) :=
  match constant with
  | some name =>
    match constantJson d r name with
    | some c => [.displayOnly label (r.truthy enable) c]
    | none => [.unsupported label name]
  | none => if (Text.trim label.toList).isEmpty then [] else [.header label]

/-- The constants of the standard dialog of the injection, with their labels. -/
def injection : List (String × String) := [
  ("Control algorithm", "algorithm"),
  ("Squirts per engine cycle", "divider"),
  ("Injector staging", "alternate"),
  ("Engine stroke", "twoStroke"),
  ("Number of cylinders", "nCylinders"),
  ("Injector port type", "injType"),
  ("Number of injectors", "nInjectors"),
  ("Engine type", "engineType")]

/-- The standard dialog of the injection, which no definition has. -/
def injectionItems : List (FormRow F) :=
  let required :=
    match constantJson d r "reqFuel" with
    | some c => [FormRow.requiredFuel c (r.constantNumber "nCylinders") (r.constantNumber "stoich")]
    | none => []
  required ++ injection.filterMap fun (label, name) =>
    (constantJson d r name).map fun c => .constant label true c

/-- What a panel shows that names no dialog. -/
def editorRows (target : String) : List (FormRow F) :=
  match d.curves.get? target with
  | some curve => [.curve target curve.title]
  | none =>
    match d.tables.get? target with
    | some table => [.table target table.title]
    | none =>
      if target = "std_injection" then panelRows target "Injection" true (injectionItems d r) else []

/-- The rows of an item; `sub` flattens the dialog of a panel. -/
def itemRows (sub : DialogDef F → List String → Option (List (FormRow F) × List String))
    (visited : List String) : DialogItem F → Option (List (FormRow F) × List String)
  | .field label constant enable visible =>
    some (if r.truthy visible then fieldRows d r label constant enable else [], visited)
  | .displayOnly label constant enable visible =>
    some (if r.truthy visible then displayRows d r label constant enable else [], visited)
  | .panel target enable =>
    if target ∈ visited then some ([], visited)
    else
      match d.dialogs.get? target with
      | some dialog => do
        let (items, visited) ← sub dialog (visited ++ [target])
        some (panelRows target dialog.title (r.truthy enable) items, visited.dropLast)
      | none => some (editorRows d r target, visited)

/-- The rows of an item behind the rows so far. -/
def addRows (sub : DialogDef F → List String → Option (List (FormRow F) × List String))
    (acc : List (FormRow F) × List String) (item : DialogItem F) :
    Option (List (FormRow F) × List String) := do
  let (rows, visited) ← itemRows d r sub acc.2 item
  some (acc.1 ++ rows, visited)

/-- The rows of a dialog and the chain of ancestors afterwards; none when the recursion goes deeper
than `depth`. -/
def dialogItems : ℕ → DialogDef F → List String → Option (List (FormRow F) × List String)
  | 0, _, _ => none
  | depth + 1, dialog, visited => dialog.items.foldlM (addRows d r (dialogItems depth)) ([], visited)

end Rows

/-- The label a menu gives a target. -/
def menuLabel (d : IniDef F) (target : String) : Option String :=
  (d.menus.flatMap (·.items)).findSome? fun
    | .entry e => if e.target = target then some e.label else none
    | .group _ children => (children.find? (·.target = target)).map (·.label)
    | .separator => none

/-- The title of a dialog; without one, the label that opens it, or its name. -/
def dialogTitle (d : IniDef F) (name : String) (dialog : DialogDef F) : String :=
  if dialog.title.isEmpty then (menuLabel d name).getD dialog.name else dialog.title

structure DialogJson (F : Type) where
  name : String
  title : String
  help : Option String
  items : List (FormRow F)

/-- The answer to a request for a dialog; none when the recursion goes deeper than `depth`. -/
def tuneDialog [F64 F] (s : AppState F) (r : Readings F) (depth : ℕ) (name : String) :
    Option (Except ApiError (DialogJson F)) :=
  if !s.tune.loaded then some (.error ⟨.conflict, "tune not loaded"⟩)
  else
    match s.df.dialogs.get? name with
    | none => some (.error ⟨.notFound, s!"no dialog `{name}`"⟩)
    | some dialog => do
      let (items, _) ← dialogItems s.df r depth dialog [name]
      some (.ok ⟨dialog.name, dialogTitle s.df name dialog, dialog.topicHelp, items⟩)

/-! ## Panels in the rows -/

/-- A panel of the name stands in the rows, in panels of the names of the path, outermost first. -/
inductive HasPanel : List (FormRow F) → List String → String → Prop
  | here {rows : List (FormRow F)} {name title : String} {enabled : Bool} {items : List (FormRow F)}
      (h : FormRow.panel name title enabled items ∈ rows) : HasPanel rows [] name
  | inside {rows : List (FormRow F)} {name title : String} {enabled : Bool} {items : List (FormRow F)}
      {path : List String} {inner : String} (h : FormRow.panel name title enabled items ∈ rows)
      (hinner : HasPanel items path inner) : HasPanel rows (name :: path) inner

/-- Names that are different, and none of which is taken. -/
def Fresh (taken names : List String) : Prop := names.Nodup ∧ ∀ x ∈ names, x ∉ taken

/-- Every panel in the rows, with the panels around it, has a fresh name. -/
def FreshPanels (taken : List String) (rows : List (FormRow F)) : Prop :=
  ∀ path name, HasPanel rows path name → Fresh taken (path ++ [name])

theorem freshPanels_of_flat {taken : List String} {rows : List (FormRow F)}
    (h : ∀ row ∈ rows, row.isPanel = false) : FreshPanels taken rows := by
  intro path name hpanel
  cases hpanel with
  | here hmem => exact nomatch h _ hmem
  | inside hmem => exact nomatch h _ hmem

theorem FreshPanels.append {taken : List String} {a b : List (FormRow F)} (ha : FreshPanels taken a)
    (hb : FreshPanels taken b) : FreshPanels taken (a ++ b) := by
  intro path name hpanel
  cases hpanel with
  | here hmem =>
    obtain hmem | hmem := List.mem_append.mp hmem
    · exact ha _ _ (.here hmem)
    · exact hb _ _ (.here hmem)
  | inside hmem hinner =>
    obtain hmem | hmem := List.mem_append.mp hmem
    · exact ha _ _ (.inside hmem hinner)
    · exact hb _ _ (.inside hmem hinner)

/-- A name pushed on the chain is fresh, and so is what is fresh behind it. -/
theorem Fresh.cons {taken names : List String} {x : String} (hx : x ∉ taken)
    (h : Fresh (taken ++ [x]) names) : Fresh taken (x :: names) := by
  refine ⟨List.nodup_cons.mpr ⟨fun hmem => h.2 x hmem (by simp), h.1⟩, ?_⟩
  refine List.forall_mem_cons.mpr ⟨hx, fun y hy hmem => h.2 y hy ?_⟩
  exact List.mem_append_left _ hmem

theorem freshPanels_panelRows {taken : List String} {name title : String} {enabled : Bool}
    {items : List (FormRow F)} (hname : name ∉ taken) (h : FreshPanels (taken ++ [name]) items) :
    FreshPanels taken (panelRows name title enabled items) := by
  unfold panelRows
  split_ifs
  · exact freshPanels_of_flat fun row hrow => nomatch hrow
  · intro path inner hpanel
    cases hpanel with
    | here hmem =>
      obtain ⟨rfl, -⟩ := FormRow.panel.inj (List.mem_singleton.mp hmem)
      exact Fresh.cons hname ⟨List.nodup_nil, fun x hx => nomatch hx⟩
    | inside hmem hinner =>
      obtain ⟨rfl, -, -, rfl⟩ := FormRow.panel.inj (List.mem_singleton.mp hmem)
      exact Fresh.cons hname (h _ _ hinner)

/-! ## Dialogs that may still be entered -/

/-- The dialogs whose names are not taken. -/
def untaken (d : IniDef F) (taken : List String) : List String := d.dialogs.keys.filter (· ∉ taken)

theorem untaken_push {d : IniDef F} {taken : List String} {name : String} {dialog : DialogDef F}
    (hname : d.dialogs.get? name = some dialog) (h : name ∉ taken) :
    (untaken d (taken ++ [name])).length < (untaken d taken).length := by
  have hkey : name ∈ d.dialogs.keys :=
    List.mem_map.mpr ⟨_, IndexMap.get?_eq_some.mp hname, rfl⟩
  have hfilter : untaken d (taken ++ [name]) = (untaken d taken).filter (· ≠ name) := by
    unfold untaken
    rw [List.filter_filter]
    refine List.filter_congr fun x _ => ?_
    simp [and_comm]
  rw [hfilter]
  exact List.length_filter_lt_length_iff_exists.mpr ⟨name, by simp [untaken, hkey, h], by simp⟩

/-! ## Rows of an item -/

section Items

variable [F64 F] {d : IniDef F} {r : Readings F}

theorem fieldRows_flat {label : String} {constant : Option String} {enable : Option (Expr F)} :
    ∀ row ∈ fieldRows d r label constant enable, row.isPanel = false := by
  intro row hrow
  unfold fieldRows at hrow
  split at hrow
  · split_ifs at hrow
    · exact nomatch hrow
    · rw [List.mem_singleton.mp hrow]
      rfl
  · split at hrow <;> rw [List.mem_singleton.mp hrow] <;> rfl

theorem displayRows_flat {label : String} {constant : Option String} {enable : Option (Expr F)} :
    ∀ row ∈ displayRows d r label constant enable, row.isPanel = false := by
  intro row hrow
  unfold displayRows at hrow
  split at hrow
  · split at hrow <;> rw [List.mem_singleton.mp hrow] <;> rfl
  · split_ifs at hrow
    · exact nomatch hrow
    · rw [List.mem_singleton.mp hrow]
      rfl

theorem injectionItems_flat : ∀ row ∈ injectionItems d r, row.isPanel = false := by
  intro row hrow
  obtain hrow | hrow := List.mem_append.mp hrow
  · split at hrow
    · rw [List.mem_singleton.mp hrow]
      rfl
    · exact nomatch hrow
  · obtain ⟨e, -, he⟩ := List.mem_filterMap.mp hrow
    obtain ⟨c, -, rfl⟩ := Option.map_eq_some_iff.mp he
    rfl

theorem freshPanels_editorRows {taken : List String} {target : String} (h : target ∉ taken) :
    FreshPanels taken (editorRows d r target) := by
  unfold editorRows
  split
  · exact freshPanels_of_flat fun row hrow => by rw [List.mem_singleton.mp hrow]; rfl
  · split
    · exact freshPanels_of_flat fun row hrow => by rw [List.mem_singleton.mp hrow]; rfl
    · split_ifs
      · exact freshPanels_panelRows h (freshPanels_of_flat injectionItems_flat)
      · exact freshPanels_of_flat fun row hrow => nomatch hrow

/-- The dialog has rows at every depth from `depth` on; the chain is as it was, and the panels have
fresh names. -/
def Yields (d : IniDef F) (r : Readings F) (depth : ℕ) (dialog : DialogDef F)
    (visited : List String) : Prop :=
  ∃ items, (∀ n, depth ≤ n → dialogItems d r n dialog visited = some (items, visited)) ∧
    FreshPanels visited items

/-- An item, when the dialogs that are not ancestors have rows. -/
theorem itemRows_yields {depth : ℕ} {visited : List String} (item : DialogItem F)
    (hsub : ∀ target dialog, d.dialogs.get? target = some dialog → target ∉ visited →
      Yields d r depth dialog (visited ++ [target])) :
    ∃ rows, (∀ n, depth ≤ n → itemRows d r (dialogItems d r n) visited item = some (rows, visited)) ∧
      FreshPanels visited rows := by
  cases item with
  | field label constant enable visible =>
    refine ⟨_, fun n _ => rfl, ?_⟩
    split_ifs
    · exact freshPanels_of_flat fieldRows_flat
    · exact freshPanels_of_flat fun row hrow => nomatch hrow
  | displayOnly label constant enable visible =>
    refine ⟨_, fun n _ => rfl, ?_⟩
    split_ifs
    · exact freshPanels_of_flat displayRows_flat
    · exact freshPanels_of_flat fun row hrow => nomatch hrow
  | panel target enable =>
    by_cases hmem : target ∈ visited
    · exact ⟨[], fun n _ => by rw [itemRows, if_pos hmem],
        freshPanels_of_flat fun row hrow => nomatch hrow⟩
    · cases hdialog : d.dialogs.get? target with
      | none =>
        refine ⟨editorRows d r target, fun n _ => ?_, freshPanels_editorRows hmem⟩
        simp only [itemRows, if_neg hmem, hdialog]
      | some dialog =>
        obtain ⟨items, hitems, hfresh⟩ := hsub target dialog hdialog hmem
        refine ⟨panelRows target dialog.title (r.truthy enable) items, fun n hn => ?_,
          freshPanels_panelRows hmem hfresh⟩
        simp only [itemRows, if_neg hmem, hdialog, hitems n hn, Option.bind_eq_bind,
          Option.bind_some, List.dropLast_concat]

/-- The items one after the other, behind the rows so far. -/
theorem items_yield {depth : ℕ} {visited : List String}
    (hsub : ∀ target dialog, d.dialogs.get? target = some dialog → target ∉ visited →
      Yields d r depth dialog (visited ++ [target])) (items : List (DialogItem F))
    (out : List (FormRow F)) (hout : FreshPanels visited out) :
    ∃ rows, (∀ n, depth ≤ n →
        items.foldlM (addRows d r (dialogItems d r n)) (out, visited) = some (rows, visited)) ∧
      FreshPanels visited rows := by
  induction items generalizing out with
  | nil => exact ⟨out, fun n _ => rfl, hout⟩
  | cons item items ih =>
    obtain ⟨rows, hrows, hfresh⟩ := itemRows_yields item hsub
    obtain ⟨all, hall, hallFresh⟩ := ih (out ++ rows) (hout.append hfresh)
    refine ⟨all, fun n hn => ?_, hallFresh⟩
    rw [List.foldlM_cons, addRows, hrows n hn]
    exact hall n hn

/-- **Flattening a dialog ends, whatever the dialogs refer to**: a panel is entered only while its
dialog is not on the chain, and the chain cannot grow beyond the dialogs there are. -/
theorem dialogItems_yields (dialog : DialogDef F) (visited : List String) :
    Yields d r ((untaken d visited).length + 1) dialog visited := by
  induction h : (untaken d visited).length using Nat.strong_induction_on
    generalizing dialog visited with
  | _ free ih =>
    subst h
    have hsub : ∀ target dialog, d.dialogs.get? target = some dialog → target ∉ visited →
        Yields d r (untaken d visited).length dialog (visited ++ [target]) := by
      intro target dialog hdialog hmem
      have hlt := untaken_push hdialog hmem
      obtain ⟨items, hitems, hfresh⟩ := ih _ hlt dialog (visited ++ [target]) rfl
      exact ⟨items, fun n hn => hitems n (by omega), hfresh⟩
    obtain ⟨rows, hrows, hfresh⟩ := items_yield hsub dialog.items []
      (freshPanels_of_flat fun row hrow => nomatch hrow)
    refine ⟨rows, fun n hn => ?_, hfresh⟩
    obtain ⟨n, rfl⟩ : ∃ k, n = k + 1 := ⟨n - 1, by omega⟩
    exact hrows n (by omega)

end Items

/-- **A dialog is flattened from any starting point and with any values, and never nests in itself**:
`dialog_items` returns with the ancestors it was given, and no panel has the name of an ancestor or of
a panel around it; in an answer, neither has it the name of the dialog itself. -/
theorem dialog_flattens [F64 F] (s : AppState F) (r : Readings F) :
    (∀ dialog visited, ∃ items,
      (∀ depth, s.df.dialogs.keys.length < depth →
        dialogItems s.df r depth dialog visited = some (items, visited)) ∧
      ∀ path name, HasPanel items path name →
        (path ++ [name]).Nodup ∧ ∀ x ∈ path ++ [name], x ∉ visited) ∧
    ∀ name, ∃ answer,
      (∀ depth, s.df.dialogs.keys.length < depth → tuneDialog s r depth name = some answer) ∧
      ∀ json, answer = .ok json → ∀ path inner, HasPanel json.items path inner →
        (name :: (path ++ [inner])).Nodup := by
  have hitems : ∀ dialog visited, Yields s.df r (s.df.dialogs.keys.length + 1) dialog visited := by
    intro dialog visited
    obtain ⟨items, hitems, hfresh⟩ := dialogItems_yields (d := s.df) (r := r) dialog visited
    have hle : (untaken s.df visited).length ≤ s.df.dialogs.keys.length := List.length_filter_le ..
    exact ⟨items, fun n hn => hitems n (by omega), hfresh⟩
  refine ⟨hitems, fun name => ?_⟩
  unfold tuneDialog
  split_ifs
  · exact ⟨_, fun _ _ => rfl, fun _ h => by cases h⟩
  · cases s.df.dialogs.get? name with
    | none => exact ⟨_, fun _ _ => rfl, fun _ h => by cases h⟩
    | some dialog =>
      obtain ⟨items, hitems, hfresh⟩ := hitems dialog [name]
      refine ⟨.ok ⟨dialog.name, dialogTitle s.df name dialog, dialog.topicHelp, items⟩,
        fun depth hdepth => ?_, fun json hjson path inner hpanel => ?_⟩
      · simp only [hitems depth hdepth, Option.bind_eq_bind, Option.bind_some]
      obtain rfl := Except.ok.inj hjson
      obtain ⟨hnodup, hnot⟩ := hfresh path inner hpanel
      exact List.nodup_cons.mpr ⟨fun hmem => hnot name hmem (by simp), hnodup⟩

/-- Two dialogs that refer to each other and to themselves. -/
example : dialogItems
    { dialogs := IndexMap.ofList [
        ("a", ⟨"a", "A", [.panel "a" none, .panel "b" none], none, 1⟩),
        ("b", ⟨"b", "B", [.field "x" (some "c") none none, .panel "b" none, .panel "a" none],
          none, 5⟩)] }
    (⟨fun _ => .error "", fun _ => none, fun _ => none, fun _ => false⟩ : Readings XRat) 3
    ⟨"a", "A", [.panel "a" none, .panel "b" none], none, 1⟩ ["a"] =
    some ([.panel "b" "B" true [.unsupported "x" "c"]], ["a"]) := rfl

end RustyTune.Server
