import MarkupTemplate.Line.Spot
import MarkupTemplate.Options.Basic

/-!
# Faults in a template

A template that cannot be read is reported with what is wrong and where. The report shows the
line without its indentation and marks the column under it.
-/

namespace MarkupTemplate

/-- What can be wrong with a template. -/
inductive Cause where
  /-- A line is indented deeper than the line before it, which opens no block. -/
  | unexpectedIndent
  /-- A line goes back to an indentation that no open block has. -/
  | malformedIndent
  /-- A tag mark has no name. -/
  | unknownIndicator
  | missingCode
  /-- The template ends where a line has to follow. -/
  | unexpectedEnd
  | textAfterClosedTag
  | unclosedInterpolation
  /-- A line of a text block is indented less than the first one. -/
  | shallowText
  | unclosedList (delimiter : Char)
  | unclosedQuote (quote : Char)
  | missingValue
deriving DecidableEq, Repr

/-- The message for a cause. -/
def Cause.message : Cause → Text
  | .unexpectedIndent => "Unexpected indentation"
  | .malformedIndent => "Malformed indentation"
  | .unknownIndicator => "Unknown line indicator"
  | .missingCode => "Expected code after output marker"
  | .unexpectedEnd => "Unexpected end of file"
  | .textAfterClosedTag => "Unexpected text after closed tag"
  | .unclosedInterpolation => "Text interpolation: Expected closing \x7d"
  | .shallowText =>
    ("Text line not indented deep enough.\n" ++
      "The first text line defines the necessary text indentation.").toList
  | .unclosedList delimiter => "Expected closing delimiter " ++ [delimiter]
  | .unclosedQuote quote => "Expected closing quote " ++ [quote]
  | .missingValue => "Expected attribute value"

/-- Something wrong at a place. -/
structure Fault where
  cause : Cause
  spot : Spot
deriving DecidableEq, Repr

/-- The report of something wrong in a line, with the column marked under the line. The name of
the template may be missing or empty, and so may the line. -/
structure Report where
  message : Text
  file : Text
  line : Text
  /-- The number of the line, counted from one. -/
  number : Nat
  /-- The column, counted from zero. -/
  column : Nat
deriving DecidableEq, Repr

/-- A report in which a missing name or line has been filled in. -/
def Report.make (message : Text) (file line : Option Text) (number column : Nat) : Report :=
  { message, file := { file : Options }.label, line := line.getD [], number, column }

/-- The report as a text of four lines. The caret stands under the column, counted from the first
character of the line that is not blank. -/
def Report.text (r : Report) : Text :=
  let shown := Text.trimLeft r.line
  r.message ++ "\n  " ++ r.file ++ ", Line " ++ Text.ofNat r.number
    ++ ", Column " ++ Text.ofNat r.column ++ "\n    " ++ shown ++ "\n    "
    ++ Text.spaces (r.column + shown.length - r.line.length) ++ "^\n"

/-- The report of a fault. -/
def Fault.report (f : Fault) (o : Options) : Report :=
  Report.make f.cause.message o.file (some f.spot.line) f.spot.number f.spot.column

end MarkupTemplate
