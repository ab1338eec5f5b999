import MarkupTemplate.Failure
import MarkupTemplate.Interpolation

/-!
# Trees with interpolated text expanded

Text that may hold code is replaced by a sequence of static texts and outputs. Code between braces
of its own is put out without escaping. The step fails exactly when some code is not closed or a
node is unknown.
-/

namespace MarkupTemplate

/-- The node of a segment: static text, or an output with nothing nested below it. -/
def Interpolation.Segment.node : Interpolation.Segment → Node
  | .literal text => .static text
  | .code text =>
    match Interpolation.unescaped? text with
    | some inside => .output false inside (.seq [])
    | none => .output true text (.seq [])

namespace Node

/-- The nodes for a text that may hold code. -/
def ofInterpolated (text : Text) : Except Failure Node :=
  match Interpolation.segments? text with
  | some segments => .ok (.seq (segments.map Interpolation.Segment.node))
  | none => .error .unclosedInterpolation

mutual

/-- The tree with its texts expanded. -/
def interpolated : Node → Except Failure Node
  | .leaf .unknown => .error .unknownNode
  | .leaf (.interpolate text) => ofInterpolated text
  | .leaf l => .ok (.leaf l)
  | .frame f inner => do
    let inner ← interpolated inner
    return .frame f inner
  | .group g children => do
    let children ← interpolatedAll children
    return .group g children
  | .tag name entries none => do
    let entries ← interpolatedAll entries
    return .tag name entries none
  | .tag name entries (some body) => do
    let entries ← interpolatedAll entries
    let body ← interpolated body
    return .tag name entries (some body)

/-- The same for a list of trees. -/
def interpolatedAll : List Node → Except Failure (List Node)
  | [] => .ok []
  | n :: ns => do
    let n ← interpolated n
    let ns ← interpolatedAll ns
    return n :: ns

end

end Node

end MarkupTemplate
