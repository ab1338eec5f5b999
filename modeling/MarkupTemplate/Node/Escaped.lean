import MarkupTemplate.Failure

/-!
# Trees with escaping applied

Where escaping is switched on, static text is escaped at once and dynamic output is put through the
escaping helper of the program. Where the tree does not say, static text stays as it is and dynamic
output follows the options. Captured output is markup of its own, so the switch around a capture
does not reach into it.
-/

namespace MarkupTemplate.Node

/-- A static text under a switch. -/
def escapedText (on? : Option Bool) (text : Text) : Text :=
  if on? = some true then Text.escape text else text

/-- The code of a dynamic output under a switch; `byDefault` is what the options say. -/
def escapedCode (byDefault : Bool) (on? : Option Bool) (source : Text) : Text :=
  if on?.getD byDefault then "_hamlc_escape((" ++ source ++ "))" else source

mutual

/-- The tree with escaping applied, under the switch around it. -/
def escaped (byDefault : Bool) : (on? : Option Bool) → Node → Except Failure Node
  | _, .leaf .unknown => .error .unknownNode
  | on?, .leaf (.static text) => .ok (.static (escapedText on? text))
  | on?, .leaf (.dynamic source) => .ok (.dynamic (escapedCode byDefault on? source))
  | _, .leaf l => .ok (.leaf l)
  | _, .frame (.escape on) inner => escaped byDefault (some on) inner
  | _, .frame (.capture name) body => do
    let body ← escaped byDefault none body
    return .capture name body
  | on?, .frame f inner => do
    let inner ← escaped byDefault on? inner
    return .frame f inner
  | on?, .group g children => do
    let children ← escapedAll byDefault on? children
    return .group g children
  | on?, .tag name entries none => do
    let entries ← escapedAll byDefault on? entries
    return .tag name entries none
  | on?, .tag name entries (some body) => do
    let entries ← escapedAll byDefault on? entries
    let body ← escaped byDefault on? body
    return .tag name entries (some body)

/-- The same for a list of trees. -/
def escapedAll (byDefault : Bool) : (on? : Option Bool) → List Node → Except Failure (List Node)
  | _, [] => .ok []
  | on?, n :: ns => do
    let n ← escaped byDefault on? n
    let ns ← escapedAll byDefault on? ns
    return n :: ns

end

end MarkupTemplate.Node
