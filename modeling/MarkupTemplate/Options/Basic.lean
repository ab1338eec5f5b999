import MarkupTemplate.Text.Basic

/-!
# Compiler options

One record of options goes through every step from reading a template to writing its program.
-/

namespace MarkupTemplate

/-- The formats of markup. -/
inductive Format where
  | html5
  | html4
  /-- The form in which every element is closed. -/
  | xhtml
deriving DecidableEq, Repr

/-- How a program collects its output. -/
inductive Strategy where
  /-- In a list of parts that is joined at the end. -/
  | array
  /-- In one text that grows. -/
  | string
deriving DecidableEq, Repr

/-- The quotes around values. -/
inductive AttrQuote where
  | double
  | single
deriving DecidableEq, Repr

/-- The options of a compilation. -/
structure Options where
  file : Option Text := none
  format : Format := .html5
  /-- Whether output is escaped where the template does not say. -/
  escapeHtml : Bool := false
  /-- The distance between tab stops; zero acts like one. -/
  tabSize : Nat := 4
  encoding : Text := "utf-8"
  pretty : Bool := false
  indent : Nat := 2
  attrQuote : AttrQuote := .double
  /-- Whether the attributes named in `sortAttrKeys` are sorted by value. -/
  sortAttrs : Bool := true
  sortAttrKeys : List Text := ["class"]
  overrideAttrs : List Text := ["id"]
  mergeAttrs : List (Text × Text) := [("id", "_"), ("class", " ")]
  enableEngines : Option (List Text) := none
  disableEngines : Option (List Text) := none
  /-- Whether output with nested lines puts these out in place instead of capturing them. -/
  disableCapture : Bool := false
  /-- Whether neighbouring texts stay separate statements. -/
  streaming : Bool := false
  generator : Strategy := .array
deriving DecidableEq, Repr

/-- The word for a format. -/
def Format.word : Format → Text
  | .html5 => "html5"
  | .html4 => "html4"
  | .xhtml => "xhtml"

/-- The word for a strategy. -/
def Strategy.word : Strategy → Text
  | .array => "array"
  | .string => "string"

/-- The quote itself. -/
def AttrQuote.char : AttrQuote → Char
  | .double => '"'
  | .single => '\''

namespace Options

/-- The label of a template that has no name, or an empty one. -/
def unnamed : Text := "(__TEMPLATE__)"

/-- The name of a template in its program. -/
def label (o : Options) : Text :=
  match o.file with
  | none => unnamed
  | some [] => unnamed
  | some file => file

/-- The delimiter of a joined attribute. -/
def delimiter? (o : Options) (name : Text) : Option Text :=
  o.mergeAttrs.lookup name

end Options

end MarkupTemplate
