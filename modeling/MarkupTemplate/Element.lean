import MarkupTemplate.Text.Basic

/-!
# Elements

Two classes of elements are treated apart. Void elements never have content, so they have no
closing tag. Inline elements stay on the line of the text around them when markup is laid out over
several lines.
-/

namespace MarkupTemplate.Element

/-- The void elements. -/
def voids : List Text :=
  ["area", "base", "br", "col", "embed", "hr", "img", "input", "keygen", "link", "meta", "param",
   "source", "track", "wbr"].map String.toList

/-- Whether an element is void. -/
def isVoid (name : Text) : Bool :=
  voids.contains name

/-- The elements that do not start a line of their own. -/
def inlines : List Text :=
  ["a", "abbr", "acronym", "b", "bdo", "big", "br", "button", "cite", "code", "dfn", "em", "i",
   "img", "input", "kbd", "label", "q", "samp", "select", "small", "span", "strong", "sub", "sup",
   "textarea", "tt", "var"].map String.toList

/-- Whether an element is inline. -/
def isInline (name : Text) : Bool :=
  inlines.contains name

end MarkupTemplate.Element
