import MarkupTemplate.Failure

/-!
# Flat trees

Two steps make a tree smaller without changing what it puts out. `flattened` puts the children of a
sequence inside a sequence in its place. `joined` makes one static text of those that only line
marks separate, and moves these marks behind it, so that their number stays the same.
-/

namespace MarkupTemplate.Node

/-- What a node becomes inside a sequence. -/
def spliced : Node → List Node
  | .group .seq children => children
  | n => [n]

mutual

/-- The tree without sequences directly inside sequences. -/
def flattened : Node → Except Failure Node
  | .leaf .unknown => .error .unknownNode
  | .leaf l => .ok (.leaf l)
  | .frame f inner => do
    let inner ← flattened inner
    return .frame f inner
  | .group .seq children => do
    let children ← flattenedAll children
    return .group .seq (children.flatMap spliced)
  | .group .attrs entries => do
    let entries ← flattenedAll entries
    return .group .attrs entries
  | .tag name entries none => do
    let entries ← flattenedAll entries
    return .tag name entries none
  | .tag name entries (some body) => do
    let entries ← flattenedAll entries
    let body ← flattened body
    return .tag name entries (some body)

/-- The same for a list of trees. -/
def flattenedAll : List Node → Except Failure (List Node)
  | [] => .ok []
  | n :: ns => do
    let n ← flattened n
    let ns ← flattenedAll ns
    return n :: ns

end

/-- A static text that is being collected, and the line marks after its first part. -/
structure Run where
  text? : Option Text := none
  marks : Nat := 0
deriving DecidableEq, Repr

/-- Adds a text to a run. -/
def Run.addText (r : Run) (text : Text) : Run :=
  { r with text? := some (r.text?.getD [] ++ text) }

/-- The nodes for a run. -/
def Run.nodes (r : Run) : List Node :=
  (match r.text? with
    | none => []
    | some [] => []
    | some text => [.static text])
  ++ List.replicate r.marks .newline

mutual

/-- The tree with neighbouring static texts joined. -/
def joined : Node → Except Failure Node
  | .leaf .unknown => .error .unknownNode
  | .leaf l => .ok (.leaf l)
  | .frame f inner => do
    let inner ← joined inner
    return .frame f inner
  | .group .seq children => do
    let children ← joinedSeq {} children
    return .group .seq children
  | .group .attrs entries => do
    let entries ← joinedAll entries
    return .group .attrs entries
  | .tag name entries none => do
    let entries ← joinedAll entries
    return .tag name entries none
  | .tag name entries (some body) => do
    let entries ← joinedAll entries
    let body ← joined body
    return .tag name entries (some body)

/-- Joins the texts of a sequence behind a run. -/
def joinedSeq : Run → List Node → Except Failure (List Node)
  | r, [] => .ok r.nodes
  | r, n :: ns =>
    match n with
    | .leaf (.static text) => joinedSeq (r.addText text) ns
    | .leaf .newline =>
      if r.text?.isSome then joinedSeq { r with marks := r.marks + 1 } ns
      else do
        let ns ← joinedSeq {} ns
        return r.nodes ++ .newline :: ns
    | n => do
      let n ← joined n
      let ns ← joinedSeq {} ns
      return r.nodes ++ n :: ns

/-- The same for a list of trees. -/
def joinedAll : List Node → Except Failure (List Node)
  | [] => .ok []
  | n :: ns => do
    let n ← joined n
    let ns ← joinedAll ns
    return n :: ns

end

end MarkupTemplate.Node
