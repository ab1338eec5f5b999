import MarkupTemplate.Node.Basic
import MarkupTemplate.Line.Fault

/-!
# Layout

A layout holds the tree built from the lines so far, with the containers that are still open,
innermost first, and the indentations under which they were opened.

A line that is indented deeper than the one before is the first child of the block that line opened;
without such a block it is a fault. A line that is not indented deeper closes blocks until the
indentation of an open block is its own; if there is none it is a fault too. `enter` always gives a
layout, also when it reports a fault.
-/

namespace MarkupTemplate

/-! ## Containers -/

/-- A node around a container whose children are still to come. -/
inductive Opener where
  | plain
  | frame (f : Frame) (inner : Opener)
  | tag (name : Text) (entries : List Node)
deriving DecidableEq

/-- The node once its children are known. -/
def Opener.fill : Opener → List Node → Node
  | .plain, children => .seq children
  | .frame f inner, children => .frame f (inner.fill children)
  | .tag name entries, children => .tag name entries (some (.seq children))

/-- An open container and what is around. -/
structure Level where
  before : List Node
  opener : Opener
  after : List Node := []
deriving DecidableEq

/-- Closes a container. -/
def Level.close (v : Level) (children : List Node) : List Node :=
  v.before ++ v.opener.fill children :: v.after

/-! ## Layouts -/

/-- The tree so far and what is open in it. -/
structure Layout where
  /-- The indentations of the open blocks inside the outermost one, innermost first. -/
  widths : List Nat := []
  inner : List Node := []
  outer : List Level := []
deriving DecidableEq

namespace Layout

/-- The indentation of the innermost block. -/
def width (l : Layout) : Nat :=
  l.widths.headD 0

/-- The indentations of the open blocks, outermost first; the outermost one has none. -/
def indents (l : Layout) : List Nat :=
  0 :: l.widths.reverse

/-- How many containers are open. -/
def depth (l : Layout) : Nat :=
  l.outer.length + 1

/-- Whether a block was opened that has no line yet. -/
def expecting (l : Layout) : Bool :=
  l.widths.length < l.outer.length

/-- Adds nodes to the innermost container. -/
def append (l : Layout) (nodes : List Node) : Layout :=
  { l with inner := l.inner ++ nodes }

/-- Adds a node whose container stays open, with the children that the container starts with and
the nodes that follow the node. -/
def push (l : Layout) (opener : Opener) (start : List Node) (after : List Node) : Layout :=
  { l with inner := start, outer := ⟨l.inner, opener, after⟩ :: l.outer }

/-- Closes the innermost container. -/
def close (l : Layout) : Layout :=
  match l.outer with
  | [] => l
  | v :: outer => { l with inner := v.close l.inner, outer }

/-- Closes the blocks of the indentations `widths` that are deeper than `w`. -/
def closeDeeper (w : Nat) : (widths : List Nat) → Layout → Layout
  | [], l => { l with widths := [] }
  | d :: widths, l =>
    if w < d then closeDeeper w widths l.close else { l with widths := d :: widths }

/-- Makes room for a line of an indentation. -/
def enter (l : Layout) (w : Nat) : Option Cause × Layout :=
  if l.width < w then
    if l.expecting then (none, { l with widths := w :: l.widths })
    else (some .unexpectedIndent, l)
  else
    let l' := closeDeeper w l.widths (if l.expecting then l.close else l)
    if l'.width = w then (none, l') else (some .malformedIndent, l')

/-- The tree with all containers closed. -/
def tree (l : Layout) : Node :=
  .seq (l.outer.foldl (fun children v => v.close children) l.inner)

end Layout

end MarkupTemplate
