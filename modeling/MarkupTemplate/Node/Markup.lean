import MarkupTemplate.Doctype
import MarkupTemplate.Element
import MarkupTemplate.Failure

/-!
# Trees with markup as text

Tags, attributes, comments and document types become static text around what they hold.

With line breaks asked for, elements that are not inline, comments and document types start on a
line of their own, indented by their nesting. The closing tag of such an element stands on a line of
its own if another such element or a comment is inside. No line break is written before the first
output, nor right behind a tag whose outer breaks are trimmed. A trim of the inner breaks of a tag
turns line breaks off inside it. A `Progress` of what has been written so far goes through the tree.
-/

namespace MarkupTemplate

namespace Markup

/-- What has been written so far, as far as line breaks depend on it. -/
structure Progress where
  started : Bool := false
  /-- Whether the element under way holds something that starts a line. -/
  hasBlock : Bool := false
  trimInner : Bool := false
  trimOuter : Bool := false
  /-- Whether a tag with trimmed outer breaks has just ended. -/
  trimNext : Bool := false
deriving DecidableEq, Repr

/-- Where markup is written. -/
structure Place where
  pretty : Bool
  /-- How many elements and conditional comments are around. -/
  level : Nat
deriving DecidableEq, Repr

/-- One level deeper. -/
def Place.deeper (p : Place) : Place :=
  { p with level := p.level + 1 }

namespace Progress

/-- Something has been written. -/
def written (s : Progress) : Progress :=
  { s with started := true, trimNext := false }

/-- A text has been written. -/
def wrote (s : Progress) (text : Text) : Progress :=
  if text.isEmpty then s else s.written

/-- A trim waits for the next tag. -/
def trimming (s : Progress) : Trim → Progress
  | .inner => { s with trimInner := true }
  | .outer | .other _ => { s with trimOuter := true }

/-- An element has been closed. -/
def closedBlock (s : Progress) (pretty : Bool) : Progress :=
  { s with hasBlock := s.hasBlock || pretty }

end Progress

/-- The line break and indentation in front of something that starts a line. It is empty where
nothing is written yet and right behind a tag with trimmed outer breaks. -/
def lineBreak (indent : Nat) (p : Place) (s : Progress) : Text × Progress :=
  if !s.started || s.trimNext then ([], s.written)
  else ('\n' :: Text.spaces (indent * p.level), s)

/-- The nodes of a line break, which there are none of where `wanted` is false. -/
def breakNodes (wanted : Bool) (indent : Nat) (p : Place) (s : Progress) : List Node × Progress :=
  if wanted then
    let (text, s) := lineBreak indent p s
    ([.static text], s)
  else ([], s)

/-- The end of a tag without content. -/
def emptyEnd : Format → Text
  | .xhtml => " />"
  | .html5 | .html4 => ">"

/-- Whether a tag has no content, so that it is not closed. -/
def isContentless (name : Text) : Option Node → Bool
  | none => true
  | some body => Element.isVoid name && body.isEmpty

/-- The start of an attribute. -/
def attrStart (quote : AttrQuote) (name : Text) : Text :=
  " " ++ name ++ "=" ++ [quote.char]

end Markup

namespace Node

open Markup

mutual

/-- The tree with its markup as text. -/
def markup (o : Options) (p : Place) : Progress → Node → Except Failure (Node × Progress)
  | _, .leaf .unknown => .error .unknownNode
  | s, .leaf (.static text) => .ok (.static text, s.wrote text)
  | s, .leaf (.dynamic source) => .ok (.dynamic source, s.written)
  | s, .leaf (.doctype kind) =>
    match Doctype.declaration? o.format kind with
    | none => .error (.invalidDoctype o.format kind)
    | some declaration =>
      let (start, s) := breakNodes p.pretty o.indent p s
      .ok (.seq (start ++ [.static declaration]), { s with started := true })
  | s, .leaf (.trim side) => .ok (.seq [], s.trimming side)
  | s, .leaf l => .ok (.leaf l, s)
  | s, .frame (.attr name) content => do
    let (content, s) ← markup o p s content
    return (.seq [.static (attrStart o.attrQuote name), content, .static [o.attrQuote.char]], s)
  | s, .frame (.shortcut name) content => do
    let (content, s) ← markup o p s content
    return (.seq [.static (attrStart o.attrQuote name), content, .static [o.attrQuote.char]], s)
  | s, .frame .comment inner => do
    let (start, s) := breakNodes p.pretty o.indent p s
    let (inner, s) ← markup o p { s with started := true } inner
    return (.seq (start ++ [.static "<!--", inner, .static "-->"]),
      s.closedBlock p.pretty)
  | s, .frame (.condComment condition) inner => do
    let (start, s) := breakNodes p.pretty o.indent p s
    let (inner, s) ← markup o p.deeper { s with started := true } inner
    return (.seq (start
        ++ [.static ("<!--[" ++ condition ++ "]>"), inner,
            .static "<![endif]-->"]),
      s.closedBlock p.pretty)
  | s, .frame (.trim side) inner => markup o p (s.trimming side) inner
  | s, .frame f inner => do
    let (inner, s) ← markup o p s inner
    return (.frame f inner, s)
  | s, .group .seq children => do
    let (children, s) ← markupAll o p s children
    return (.seq children, s)
  | s, .group .attrs entries => do
    let (entries, s) ← markupAll o p s entries
    return (.seq entries, s)
  | before, .tag name entries none => do
    let pretty := p.pretty && !Element.isInline name
    let (start, s) := breakNodes (pretty && !before.trimOuter) o.indent p
      { before with trimInner := false, trimOuter := false }
    let (entries, s) ← markupAll o p s.written entries
    return (.seq (start ++ [.static ("<" ++ name), .seq entries,
        .static (emptyEnd o.format)]),
      { s.closedBlock pretty with trimNext := before.trimOuter })
  | before, .tag name entries (some body) => do
    let pretty := p.pretty && !Element.isInline name
    let (start, s) := breakNodes (pretty && !before.trimOuter) o.indent p
      { before with trimInner := false, trimOuter := false }
    let (entries, s) ← markupAll o p s.written entries
    if Element.isVoid name && body.isEmpty then
      let (body, s) ← markup o p s body
      return (.seq (start ++ [.static ("<" ++ name), .seq entries,
          .static (emptyEnd o.format), body]),
        { s.closedBlock pretty with trimNext := before.trimOuter })
    else
      let outerBlock := s.hasBlock
      let inside := { p.deeper with pretty := p.pretty && !before.trimInner }
      let (body, s) ← markup o inside { s with hasBlock := false } body
      let (close, s) := breakNodes (pretty && s.hasBlock && !before.trimInner) o.indent p s
      return (.seq (start
          ++ [.static ("<" ++ name), .seq entries, .static ">", body]
          ++ close ++ [.static ("</" ++ name ++ ">")]),
        { s with hasBlock := outerBlock || pretty, trimNext := before.trimOuter })

/-- The same for a list of trees. -/
def markupAll (o : Options) (p : Place) :
    Progress → List Node → Except Failure (List Node × Progress)
  | s, [] => .ok ([], s)
  | s, n :: ns => do
    let (n, s) ← markup o p s n
    let (ns, s) ← markupAll o p s ns
    return (n :: ns, s)

end

end Node

end MarkupTemplate
