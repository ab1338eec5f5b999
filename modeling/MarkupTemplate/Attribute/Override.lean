import MarkupTemplate.Attribute.Entry

/-!
# Overridden and sorted attributes

Of some attributes only the last value counts. Shortcuts come first and are never overridden; the
other attributes follow, those of one name together. Then attributes of some names are moved to the
end of their list and sorted by value, where those with equal values stay in order.
-/

namespace MarkupTemplate

/-! ## Sorted attributes -/

namespace Attribute

/-- The text by which a value is sorted: its code, or its text as far as it is known. -/
def sortKey : Node → Text
  | .leaf (.value _ source) => source
  | n => (staticText? n).getD []

/-- The attributes with those of the given names at the end, sorted by value. -/
def sortEntries (keys : List Text) (entries : List Entry) : List Entry :=
  entries.filter (fun e => !keys.contains e.name)
    ++ (entries.filter fun e => keys.contains e.name).mergeSort
      fun a b => Text.le (sortKey a.value) (sortKey b.value)

/-- Sorts the nodes of an attribute list. -/
def sortList (keys : List Text) (entries : List Node) : Except Failure (List Node) := do
  let entries ← Entry.ofNodes entries
  return (sortEntries keys entries).map Entry.node

end Attribute

namespace Node

mutual

/-- The tree with its attributes sorted. -/
def sorted (keys : List Text) : Node → Except Failure Node
  | .leaf .unknown => .error .unknownNode
  | .leaf l => .ok (.leaf l)
  | .frame f inner => do
    let inner ← sorted keys inner
    return .frame f inner
  | .group .seq children => do
    let children ← sortedAll keys children
    return .group .seq children
  | .group .attrs entries => do
    let entries ← Attribute.sortList keys entries
    return .group .attrs entries
  | .tag name entries none => do
    let entries ← Attribute.sortList keys entries
    return .tag name entries none
  | .tag name entries (some body) => do
    let entries ← Attribute.sortList keys entries
    let body ← sorted keys body
    return .tag name entries (some body)

/-- The same for a list of trees. -/
def sortedAll (keys : List Text) : List Node → Except Failure (List Node)
  | [] => .ok []
  | n :: ns => do
    let n ← sorted keys n
    let ns ← sortedAll keys ns
    return n :: ns

end

end Node

/-! ## Overridden attributes -/

namespace Attribute

/-- What is kept of the attributes so far: the shortcuts, and the values of each name. -/
structure Kept where
  shortcuts : List Node := []
  values : List (Text × List Node) := []

/-- Leaves a name one value only. -/
def resetTo {α : Type} (name : Text) (value : α) : List (Text × List α) → List (Text × List α)
  | [] => []
  | (key, values) :: groups =>
    if key = name then (key, [value]) :: groups else (key, values) :: resetTo name value groups

/-- Goes on to the next attribute. A value that overrides others takes their place. -/
def Kept.add (overridden : List Text) (k : Kept) (e : Entry) : Kept :=
  if e.isShortcut then { k with shortcuts := k.shortcuts ++ [e.node] }
  else if (k.values.lookup e.name).isSome && overridden.contains e.name then
    { k with values := resetTo e.name e.value k.values }
  else { k with values := addTo e.name e.value k.values }

/-- The attributes that count: shortcuts first, then those of one name together. -/
def overrideEntries (overridden : List Text) (entries : List Entry) : List Node :=
  let kept := entries.foldl (Kept.add overridden) {}
  kept.shortcuts ++ kept.values.flatMap fun (name, values) => values.map (Node.attr name)

/-- The attributes that count in a list of nodes. -/
def overrideList (overridden : List Text) (entries : List Node) : Except Failure (List Node) := do
  let entries ← Entry.ofNodes entries
  return overrideEntries overridden entries

end Attribute

namespace Node

mutual

/-- A tree whose lists of attributes hold only those that count. -/
def overridden (names : List Text) : Node → Except Failure Node
  | .leaf .unknown => .error .unknownNode
  | .leaf l => .ok (.leaf l)
  | .frame f inner => do
    let inner ← overridden names inner
    return .frame f inner
  | .group .seq children => do
    let children ← overriddenAll names children
    return .group .seq children
  | .group .attrs entries => do
    let entries ← Attribute.overrideList names entries
    return .group .attrs entries
  | .tag name entries none => do
    let entries ← Attribute.overrideList names entries
    return .tag name entries none
  | .tag name entries (some body) => do
    let entries ← Attribute.overrideList names entries
    let body ← overridden names body
    return .tag name entries (some body)

/-- Trees whose lists of attributes hold only those that count. -/
def overriddenAll (names : List Text) : List Node → Except Failure (List Node)
  | [] => .ok []
  | n :: ns => do
    let n ← overridden names n
    let ns ← overriddenAll names ns
    return n :: ns

end

end Node

end MarkupTemplate
