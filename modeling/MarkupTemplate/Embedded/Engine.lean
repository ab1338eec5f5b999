import MarkupTemplate.Node.Interpolated
import MarkupTemplate.Value.Basic

/-!
# Embedded engines

An embedded block is rendered by the engine it names. An engine is one of nine kinds with settings
of its own. What becomes of Markdown is decided by a function that an engine is given.

The element kinds put the block into an element. They may have another kind render the content
first, which then has no settings of its own. An element kind that is not told the name of its
element fails, but only after its content is rendered.
-/

namespace MarkupTemplate

/-! ## Protected output

Output is only known when the program runs. While a text is rendered, a numbered stand-in takes the
place of each output. The stand-ins have to come out in order.
-/

namespace Protected

/-- A part of a block: text, or an output that is to be kept. -/
inductive Piece where
  | text (t : Text)
  | output (node : Node)
deriving DecidableEq

mutual

/-- The parts of a block from left to right. What is nested below an output belongs to it. -/
def pieces : Node → Except Failure (List Piece)
  | .leaf .unknown => .error .unknownNode
  | .leaf (.static text) => .ok [.text text]
  | .leaf _ => .ok []
  | .frame (.output escaped source) body => .ok [.output (.output escaped source body)]
  | .frame _ inner => pieces inner
  | .group _ children => piecesOf children
  | .tag _ entries none => piecesOf entries
  | .tag _ entries (some body) => do
    let first ← piecesOf entries
    let rest ← pieces body
    return first ++ rest

/-- The parts of several blocks. -/
def piecesOf : List Node → Except Failure (List Piece)
  | [] => .ok []
  | n :: ns => do
    let first ← pieces n
    let rest ← piecesOf ns
    return first ++ rest

end

/-- The text of a block with stand-ins, numbered from `i`, for its outputs. -/
def textFrom : (i : Nat) → List Piece → Text
  | _, [] => []
  | i, .text t :: pieces => t ++ textFrom i pieces
  | i, .output _ :: pieces => Failure.standIn i ++ textFrom (i + 1) pieces

/-- The text of parts, with stand-ins. -/
def text (pieces : List Piece) : Text :=
  textFrom 0 pieces

/-- The outputs among parts. -/
def outputs : List Piece → List Node
  | [] => []
  | .text _ :: pieces => outputs pieces
  | .output node :: pieces => node :: outputs pieces

/-- The node for a text, unless it is empty. -/
def staticNodes (t : Text) : List Node :=
  if t.isEmpty then [] else [.static t]

/-- Puts outputs back from a number on. -/
def restoreFrom : (i : Nat) → List Node → Text → Except Failure (List Node)
  | _, [], t => .ok (staticNodes t)
  | i, output :: outputs, t =>
    match Text.cut? (Failure.standIn i) t with
    | none => .error (.lostOutput i)
    | some (head, rest) => do
      let nodes ← restoreFrom (i + 1) outputs rest
      return staticNodes head ++ output :: nodes

/-- Puts the outputs of parts back into a text. -/
def restore (pieces : List Piece) (t : Text) : Except Failure Node := do
  let nodes ← restoreFrom 0 (outputs pieces) t
  return .seq nodes

end Protected

/-! ## What a block holds

An engine works on the text of its block and puts back the line marks, so that the lines below keep
their numbers. Only an unknown node is a failure.
-/

namespace Node

mutual

/-- Whether an unknown node is in a tree. -/
def hasUnknown : Node → Bool
  | .leaf l => l == .unknown
  | .frame _ inner => hasUnknown inner
  | .group _ children => anyUnknown children
  | .tag _ entries none => anyUnknown entries
  | .tag _ entries (some body) => anyUnknown entries || hasUnknown body

/-- Whether one is in some tree. -/
def anyUnknown : List Node → Bool
  | [] => false
  | n :: ns => hasUnknown n || anyUnknown ns

end

mutual

/-- The text of a block. -/
def rawText : Node → Text
  | .leaf (.interpolate text) => text
  | .leaf _ => []
  | .frame _ inner => rawText inner
  | .group _ children => rawTexts children
  | .tag _ entries none => rawTexts entries
  | .tag _ entries (some body) => rawTexts entries ++ rawText body

/-- The texts of blocks. -/
def rawTexts : List Node → Text
  | [] => []
  | n :: ns => rawText n ++ rawTexts ns

end

mutual

/-- The line marks in a tree. -/
def marks : Node → Nat
  | .leaf l => if l == .newline then 1 else 0
  | .frame _ inner => marks inner
  | .group _ children => marksOf children
  | .tag _ entries none => marksOf entries
  | .tag _ entries (some body) => marksOf entries + marks body

/-- The line marks in trees. -/
def marksOf : List Node → Nat
  | [] => 0
  | n :: ns => marks n + marksOf ns

end

/-- Refuses a tree with an unknown node. -/
def known (n : Node) : Except Failure Node :=
  if n.hasUnknown then .error .unknownNode else .ok n

/-- The text of a block. -/
def collectText (n : Node) : Except Failure Text := do
  let n ← n.known
  return n.rawText

/-- The line marks of a block. -/
def collectMarks (n : Node) : Except Failure Node := do
  let n ← n.known
  return .seq (List.replicate n.marks .newline)

end Node

namespace Embedded

/-- What an engine does with its block. -/
inductive Kind where
  /-- Fails. -/
  | abstract
  /-- Renders Markdown at once; interpolated code is kept. -/
  | markdown
  /-- Puts the text into the program as a template that is rendered each time. -/
  | deferred
  /-- Puts the text into the program as statements. -/
  | host
  /-- Puts the text out with its interpolated code. -/
  | plain
  /-- Puts the text out escaped, with its line breaks as entities. -/
  | preserve
  /-- Puts the text out as it is, marked as character data. -/
  | cdata
  /-- Puts the block into an element. -/
  | element
  /-- Puts the block into an element, marked as character data in the closed format. -/
  | script
deriving DecidableEq, Repr

/-- What an engine was registered with. -/
structure Settings where
  /-- The name of the element around the block. -/
  tag? : Option Text := none
  /-- The attributes of the element. -/
  attributes : List (Text × Text) := []
  /-- The kind that renders the content of the element first. -/
  content? : Option Kind := none
  /-- Whether a text is put out escaped. -/
  escape : Bool := false
  /-- All other settings; only what renders Markdown looks at them. -/
  more : List (Text × Value) := []

/-- What renders Markdown: the markup for a text, under some settings. -/
abbrev Renderer := Settings → Text → Text

/-- An embedded engine. -/
structure Engine where
  kind : Kind
  settings : Settings := {}
  /-- What renders Markdown for it. -/
  markdown : Renderer

/-! ## Rendering -/

/-- Nodes with the line marks of a block behind them. -/
def withMarks (nodes : List Node) (body : Node) : Except Failure Node := do
  let marks ← body.collectMarks
  return .seq (nodes ++ [marks])

/-- Renders a block of Markdown with `markdown`, which does not see the code in it. -/
def renderMarkdown (markdown : Text → Text) (body : Node) : Except Failure Node := do
  let expanded ← body.interpolated
  let pieces ← Protected.pieces expanded
  let restored ← Protected.restore pieces (markdown (Protected.text pieces))
  withMarks [restored] body

/-- The code that fills in a template between double braces when the program runs. -/
def deferredCode (text : Text) : Text :=
  "_hamlc_render_jinja(" ++ Text.quote text ++ ", globals())"

/-- The lines of a preserved text, with entities between them for the line breaks. -/
def preservedNodes : List Text → List Node
  | [] => []
  | [line] => [.escape true (.interpolate line)]
  | line :: lines =>
    .escape true (.interpolate line) :: .static "&#x000A;" :: preservedNodes lines

/-- Renders a block as a kind does that puts it into no element. -/
def renderContent (markdown : Text → Text) (kind : Kind) (escape : Bool) (body : Node) :
    Except Failure Node :=
  match kind with
  | .abstract => .error .engineAbstract
  | .markdown => renderMarkdown markdown body
  | .deferred => do
    let text ← body.collectText
    withMarks [.escape false (.dynamic (deferredCode text))] body
  | .host => do
    let text ← body.collectText
    withMarks [.code text] body
  | .plain => do
    let text ← body.collectText
    withMarks [.escape escape (.interpolate text)] body
  | .preserve => do
    let text ← body.collectText
    withMarks (preservedNodes (Text.split '\n' text)) body
  | .cdata => do
    let text ← body.collectText
    withMarks [.static "<![CDATA[\n", .static text, .static "\n]]>"] body
  | .element | .script => .error .engineWithoutTag

/-- The content of an element, marked as character data where the kind and the format ask for it. -/
def wrapped (kind : Kind) (format : Format) (content : Node) : Node :=
  match kind, format with
  | .script, .xhtml =>
    .seq [.static "\n//<![CDATA[\n", content, .static "\n//]]>\n"]
  | _, _ => content

/-- Puts a block into an element. -/
def Engine.renderElement (e : Engine) (format : Format) (body : Node) : Except Failure Node := do
  let content ← match e.settings.content? with
    | some kind => renderContent (e.markdown {}) kind false body
    | none => .ok body
  match e.settings.tag? with
  | none => .error .engineWithoutTag
  | some tag =>
    return .tag tag (e.settings.attributes.map fun (name, value) => .attr name (.static value))
      (some (wrapped e.kind format content))

/-- Renders a block. -/
def Engine.render (e : Engine) (format : Format) (body : Node) : Except Failure Node :=
  match e.kind with
  | .element | .script => e.renderElement format body
  | kind => renderContent (e.markdown e.settings) kind e.settings.escape body

end Embedded

end MarkupTemplate
