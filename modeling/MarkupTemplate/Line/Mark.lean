import MarkupTemplate.Line.Scan
import MarkupTemplate.Text.Word

/-!
# Marks

What a line of a template means is told by the mark it starts with: `%` for a tag, `=` for output,
`-` for control, and so on. Some marks are longer than others that they start with, so their order
matters: a comment line is tried after a conditional comment and a control line after a silent
comment. `Indicator.read` fixes that order. A line without a mark is text.
-/

namespace MarkupTemplate

open Scan (andThen exactly)

namespace Mark

/-! ## Marks at the start of a line -/

/-- The mark of a document type. -/
def doctype : Scan Unit :=
  Scan.map (fun _ => ()) (andThen (exactly "!!!") Scan.blanks)

/-- A conditional comment `/[condition]`, which fills its line. -/
def condComment : Scan Text := fun t =>
  match Text.after? "/[" t with
  | none => none
  | some inside =>
    let filled := Text.trimRight inside
    let condition := Text.trim filled.dropLast
    if Text.endsWith ']' filled && !condition.contains '\n' then some (condition, []) else none

/-- The mark of a comment. -/
def comment : Scan Unit :=
  exactly "/"

/-- The mark and the name of a tag. -/
def tag : Scan Text :=
  Scan.map (fun found => found.2) (andThen (exactly "%") (Scan.run Text.isNameChar))

/-- A shortcut such as `.menu` or `#main` ahead, of which nothing is taken. -/
def shortcutAhead : Scan Unit
  | c :: d :: t =>
    if (c == '.' || c == '#') && Text.isShortcutChar d then some ((), c :: d :: t) else none
  | _ => none

/-- The mark of a silent comment. -/
def silent : Scan Unit :=
  exactly "-#"

/-- One or two equal signs behind a modifier: the modifier, and whether there are two. -/
def equals (modifier : Option Char) : Scan (Option Char × Bool)
  | '=' :: '=' :: t => some ((modifier, true), t)
  | '=' :: t => some ((modifier, false), t)
  | _ => none

/-- The mark of an output line, `=` or `==`, perhaps with `&` or `!` in front. -/
def output : Scan (Option Char × Bool)
  | '&' :: t => equals (some '&') t
  | '!' :: t => equals (some '!') t
  | t => equals none t

/-- The mark of a control line. -/
def control : Scan Unit :=
  exactly "-"

/-- The mark and the name of an embedded block. -/
def embedded : Scan Text :=
  Scan.map (fun found => found.2.1)
    (andThen (exactly ":") (andThen (Scan.run Text.isWord) Scan.blankEnd))

/-- A backslash that only keeps the line from being read as a mark. One that belongs to an
interpolation or doubles another is left to the text. -/
def escapedLine : Scan Unit
  | '\\' :: '#' :: _ => none
  | '\\' :: '\\' :: _ => none
  | '\\' :: t => some ((), t)
  | _ => none

/-! ## Marks after a tag -/

/-- The mark of an output behind a tag. -/
def tagOutput : Scan (Option Char × Bool) := fun t =>
  output (Text.trimLeft t)

/-- The mark of a closed tag. -/
def tagClosed : Scan Unit := fun t =>
  match Text.trimLeft t with
  | '/' :: rest => some ((), Text.trimLeft rest)
  | _ => none

/-- The space in front of the text of a tag. -/
def tagText : Scan Unit
  | ' ' :: t => some ((), t)
  | t => some ((), t)

/-- Whether a character asks for a trim. -/
def isAngle (c : Char) : Bool :=
  c == '<' || c == '>'

/-- The angle brackets behind a tag. -/
def angles : Scan Text
  | c :: d :: t =>
    if isAngle c then (if isAngle d then some ([c, d], t) else some ([c], d :: t)) else none
  | [c] => if isAngle c then some ([c], []) else none
  | [] => none

/-- A comma at the end of a line. -/
def trailingComma : Scan Unit :=
  Scan.map (fun _ => ()) (andThen (exactly ",") Scan.blankEnd)

end Mark

/-- How an output is escaped. -/
inductive OutputMark where
  /-- Escaped if the options say so: `=`. -/
  | byDefault
  /-- Escaped always: `&=`. -/
  | escaped
  /-- Never escaped: `!=` and `==`. -/
  | raw
deriving DecidableEq, Repr

/-- The mark that is made of some characters. -/
def OutputMark.ofParts (modifier : Option Char) (doubled : Bool) : OutputMark :=
  if modifier = some '&' then .escaped
  else if modifier = some '!' || doubled then .raw
  else .byDefault

/-! ## Indicators -/

/-- What a line is by its mark. -/
inductive Indicator where
  | doctype
  | condComment (condition : Text)
  | comment
  | tag (name : Text)
  | shortcut
  /-- A tag mark without a name. -/
  | stray
  | silent
  | output (mark : OutputMark)
  | control
  | embedded (name : Text)
  | text
deriving DecidableEq, Repr

/-- The marks in the order they are tried. -/
def Indicator.scans : List (Scan Indicator) :=
  [Scan.map (fun _ => .doctype) Mark.doctype,
   Scan.map .condComment Mark.condComment,
   Scan.map (fun _ => .comment) Mark.comment,
   Scan.map .tag Mark.tag,
   Scan.map (fun _ => .shortcut) Mark.shortcutAhead,
   fun t => if t.head? = some '%' then some (.stray, t) else none,
   Scan.map (fun _ => .silent) Mark.silent,
   Scan.map (fun found => .output (.ofParts found.1 found.2)) Mark.output,
   Scan.map (fun _ => .control) Mark.control,
   Scan.map .embedded Mark.embedded,
   Scan.map (fun _ => .text) Mark.escapedLine]

/-- Reads the mark of a line. -/
def Indicator.read : Scan Indicator := fun t =>
  (scans.findSome? (· t)).orElse fun _ => some (.text, t)

end MarkupTemplate
