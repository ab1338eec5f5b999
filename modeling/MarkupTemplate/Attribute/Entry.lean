import MarkupTemplate.Failure

/-!
# Attribute entries

The entries of an attribute list are read as attributes before they are regrouped; an entry that is
no attribute is a failure. `groups` collects the values of each name in the order in which the names
first appear. `staticText?` is the text of a value that is known before the template is rendered,
with the escaping that it asks for already done.
-/

namespace MarkupTemplate.Attribute

/-- An attribute of a tag. -/
structure Entry where
  isShortcut : Bool
  name : Text
  value : Node
deriving DecidableEq

namespace Entry

/-- Reads a node as an attribute. -/
def ofNode : Node → Except Failure Entry
  | .frame (.attr name) value => .ok ⟨false, name, value⟩
  | .frame (.shortcut name) value => .ok ⟨true, name, value⟩
  | n => .error (.notAttribute n)

/-- The node for an attribute. -/
def node (e : Entry) : Node :=
  if e.isShortcut then .shortcut e.name e.value else .attr e.name e.value

/-- Reads nodes as attributes. -/
def ofNodes : List Node → Except Failure (List Entry)
  | [] => .ok []
  | n :: ns => do
    let e ← ofNode n
    let es ← ofNodes ns
    return e :: es

end Entry

/-- Adds a value to those of its name; a new name comes last. -/
def addTo {α : Type} (name : Text) (value : α) : List (Text × List α) → List (Text × List α)
  | [] => [(name, [value])]
  | (key, values) :: groups =>
    if key = name then (key, values ++ [value]) :: groups
    else (key, values) :: addTo name value groups

/-- The values of each name, in the order in which the names first appear. -/
def groups (entries : List Entry) : List (Text × List Node) :=
  entries.foldl (fun found e => addTo e.name e.value found) []

mutual

/-- The text of a value without code. -/
def staticText? : Node → Option Text
  | .leaf (.static text) => some text
  | .leaf .newline => some []
  | .leaf _ => none
  | .frame (.escape on) inner =>
    (staticText? inner).map fun text => if on then Text.escape text else text
  | .frame _ _ => none
  | .group .seq children => staticTexts? children
  | .group .attrs _ => none
  | .tag _ _ _ => none

/-- The text of values without code, one after the other. -/
def staticTexts? : List Node → Option Text
  | [] => some []
  | n :: ns =>
    match staticText? n, staticTexts? ns with
    | some text, some texts => some (text ++ texts)
    | _, _ => none

end

end MarkupTemplate.Attribute
