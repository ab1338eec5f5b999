import MarkupTemplate.CommandLine.Markdown.Emphasis
import MarkupTemplate.CommandLine.Markdown.Block
import MarkupTemplate.Embedded.Engine

/-!
# Markdown

The part of Markdown that embedded blocks use: paragraphs, headings, rules, lists, link definitions,
emphasis, code and tags.

Blocks are found first (`blocks`), and then the markup of the text in each of them (`inline`).
`render` writes the result, every block on lines of its own. In an item of a list, text that stands
in it directly shares its line with the ends of the item.
-/

namespace MarkupTemplate.Markdown

mutual

/-- The markup of a block. -/
def Block.markup : Block → Text
  | .paragraph text => element "p" (inline text)
  | .bare text => inline text
  | .heading level text => element ('h' :: Text.ofNat level) (inline text)
  | .rule => "<hr />"
  | .item parts => element "li" (partsMarkup true parts)
  | .list ordered items =>
    element (if ordered then "ol" else "ul") (partsMarkup true items)

/-- The markup of the parts of a block, of which `first` tells whether they start it. A block starts
and ends a line; text that stands directly in an item starts a line unless it comes first. -/
def partsMarkup : (first : Bool) → List Block → Text
  | _, [] => []
  | first, b :: parts =>
    match b with
    | .bare text => (if first then [] else ['\n']) ++ inline text ++ partsMarkup false parts
    | b =>
      let gap := match parts with
        | .bare _ :: _ => []
        | _ => ['\n']
      (if first then ['\n'] else []) ++ b.markup ++ gap ++ partsMarkup false parts

end

/-- A line with its tabs replaced by spaces up to tab stops four columns apart. -/
def expandTabs : (col : Nat) → Text → Text
  | _, [] => []
  | col, c :: t =>
    if c = '\t' then Text.spaces (4 - col % 4) ++ expandTabs (col + (4 - col % 4)) t
    else c :: expandTabs (col + 1) t

/-- A text with line feeds for line ends. -/
def normalEnds : Text → Text
  | '\r' :: '\n' :: t => '\n' :: normalEnds t
  | '\r' :: t => '\n' :: normalEnds t
  | c :: t => c :: normalEnds t
  | [] => []

/-- The markup for a text. -/
def render (t : Text) : Text :=
  let lines := (Text.split '\n' (normalEnds t)).map (expandTabs 0)
  Text.trim (partsMarkup true (blocks lines))

/-- Renders Markdown in the same way under all settings. -/
def renderer : Embedded.Renderer :=
  fun _ t => render t

end MarkupTemplate.Markdown
