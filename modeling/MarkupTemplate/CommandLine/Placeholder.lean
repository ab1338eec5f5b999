import MarkupTemplate.Host.Eval

/-!
# Placeholders

A text template holds names between double braces. Rendering replaces each by the text of the
value that has the name, or by nothing if there is none. Line ends are written as line feeds.
-/

namespace MarkupTemplate.Placeholder

/-- Names that have values of their own. -/
def constants : List (Text × Value) :=
  [("none", .none), ("None", .none), ("true", .bool true),
   ("True", .bool true), ("false", .bool false), ("False", .bool false)]

/-- The text that a name is replaced by. -/
def valueText (scope : List (Text × Value)) (name : Text) : Text :=
  match constants.lookup name with
  | some v => v.toText
  | none =>
    match scope.lookup name with
    | some v => v.toText
    | none => []

/-- What is being read: plain text, or a name whose characters so far are given. -/
inductive Mode where
  | plain
  | inside (soFar : Text)
deriving DecidableEq, Repr

/-- The text behind a place in a template. -/
def renderFrom (scope : List (Text × Value)) : Mode → Text → Text
  | .plain, [] => []
  | .inside soFar, [] => "\x7b\x7b" ++ soFar
  | .plain, '\x7b' :: '\x7b' :: t => renderFrom scope (.inside []) t
  | .plain, '\r' :: '\n' :: t => '\n' :: renderFrom scope .plain t
  | .plain, c :: t => (if c = '\r' then '\n' else c) :: renderFrom scope .plain t
  | .inside soFar, '\x7d' :: '\x7d' :: t =>
    valueText scope (Text.trim soFar) ++ renderFrom scope .plain t
  | .inside soFar, c :: t => renderFrom scope (.inside (soFar ++ [c])) t

/-- The text of a template. -/
def render (scope : List (Text × Value)) (template : Text) : Text :=
  renderFrom scope .plain template

/-- Fills in templates that hold nothing but names. -/
def filler : Host.Filler :=
  fun scope template => .ok (render scope template)

end MarkupTemplate.Placeholder
