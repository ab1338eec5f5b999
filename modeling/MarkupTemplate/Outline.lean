import MarkupTemplate.Attribute.List
import MarkupTemplate.Doctype
import MarkupTemplate.Element
import MarkupTemplate.Interpolation
import MarkupTemplate.Layout
import MarkupTemplate.Line.Mark

/-!
# Outlines

A template is read line by line. Most lines are complete in themselves: their mark says what they
are and their indentation where in the tree they belong, and they add a few nodes there and perhaps
open a block.

Four things run over several lines: a text block, a silent comment, a list of attributes, and a code
that is broken after a comma. What such a thing has so far is kept as *pending*, and each line is
offered to it first. A list and a broken code take it in any case; a text block and a silent comment
take it if it is blank or indented deeper than the line they started in, and are finished otherwise.
At the end of the template a list or a code that is still pending is a fault.
-/

namespace MarkupTemplate

open Text (trim allBlank)

/-! ## Lines of a source -/

namespace Source

/-- A line without the return at its end. -/
def dropReturn (line : Text) : Text :=
  if Text.endsWith '\r' line then line.dropLast else line

/-- Lines without carriage returns at their ends; the last line keeps its own. -/
def dropReturns : List Text → List Text
  | [] => []
  | [line] => [line]
  | line :: lines => dropReturn line :: dropReturns lines

/-- Lines without empty ones at the end. -/
def dropEmptyEnd : List Text → List Text
  | [] => []
  | line :: lines =>
    match dropEmptyEnd lines with
    | [] => if line.isEmpty then [] else [line]
    | rest => line :: rest

/-- A source without byte order mark. -/
def dropOrderMark : Text → Text
  | c :: t => if c.toNat = 0xFEFF then t else c :: t
  | [] => []

/-- The lines of a source. -/
def lines (source : Text) : List Text :=
  dropEmptyEnd (dropReturns (Text.split '\n' (dropOrderMark source)))

end Source

namespace Outline

/-! ## What can be pending -/

/-- A tag up to its content. -/
structure TagHead where
  name : Text
  entries : List Node
  /-- The trims around the tag, outermost first. -/
  trims : List Trim := []
  /-- How many lines its list of attributes took up after the first. -/
  extraLines : Nat := 0
deriving DecidableEq

namespace TagHead

/-- The line marks of a tag. -/
def marks (h : TagHead) : List Node :=
  List.replicate h.extraLines .newline

/-- The tag as a container. -/
def opener (h : TagHead) : Opener :=
  h.trims.foldr (fun side inner => .frame (.trim side) inner) (.tag h.name h.entries)

/-- The tag without content. -/
def closed (h : TagHead) : Node :=
  h.trims.foldr (fun side inner => .trim side inner) (.tag h.name h.entries none)

end TagHead

/-- The container of an output line. -/
def outputOpener : OutputMark → (code : Text) → Opener
  | .byDefault, code => .frame (.output true code) .plain
  | .escaped, code => .frame (.escape true) (.frame (.output true code) .plain)
  | .raw, code => .frame (.output false code) .plain

/-- What a code is for. -/
inductive CodeUse where
  | control
  | output (mark : OutputMark)
  | tagOutput (mark : OutputMark) (head : TagHead)
deriving DecidableEq

/-- What a text block is for. -/
inductive TextUse where
  | embedded (name : Text)
  | comment
  | tag (head : TagHead)
deriving DecidableEq

/-- Whether code in a text block is interpolated while it is read, and not by an engine. -/
def TextUse.interpolated : TextUse → Bool
  | .embedded _ => false
  | .comment | .tag _ => true

/-- A text block so far. -/
structure TextBlock where
  /-- The indentation of its first line below the line it started in. -/
  indent? : Option Nat := none
  hasText : Bool := false
  /-- How many blank lines follow the last line with text. -/
  gaps : Nat := 0
  nodes : List Node := []
deriving DecidableEq

/-- What a line may go on with. -/
inductive Pending where
  | nothing
  | silent
  | text (block : TextBlock) (use : TextUse)
  /-- A list of attributes of a tag, with the lines it has taken up after the first and the place
  where the last of them was left. -/
  | attributes (form : Attribute.ListForm) (entries : List Node) (left : Spot) (name : Text)
      (extraLines : Nat)
  | code (text : Text) (use : CodeUse)
deriving DecidableEq

/-- What has been read of a template. -/
structure State where
  number : Nat := 0
  layout : Layout := {}
  pending : Pending := .nothing
deriving DecidableEq

/-! ## Finishing a line -/

namespace State

/-- Ends a line that adds nodes and opens no block. -/
def close (s : State) (nodes : List Node) : State :=
  { s with layout := s.layout.append (nodes ++ [.newline]), pending := .nothing }

/-- Ends a line that opens a block, whose container starts with some nodes. -/
def openBlock (s : State) (opener : Opener) (start : List Node) (after : List Node) : State :=
  { s with layout := s.layout.push opener (start ++ [.newline]) after, pending := .nothing }

/-- Ends a code. -/
def finishCode (s : State) (code : Text) : CodeUse → State
  | .control => s.openBlock (.frame (.control code) .plain) [] []
  | .output mark => s.openBlock (outputOpener mark code) [] []
  | .tagOutput mark head => s.openBlock head.opener [(outputOpener mark code).fill []] head.marks

/-- Ends a text block. -/
def finishText (s : State) (block : TextBlock) : TextUse → State
  | .embedded name => s.close [.embedded name (.seq block.nodes)]
  | .comment =>
    s.close [.comment (.seq [.static " ", .seq block.nodes, .static " "])]
  | .tag head => s.openBlock head.opener block.nodes head.marks

end State

/-- Takes a code as far as it goes: a code that ends in a comma goes on in the next line. -/
def takeCode (s : State) (code : Text) (use : CodeUse) : State :=
  if Text.endsWith ',' (Text.trimRight code) then { s with pending := .code code use }
  else s.finishCode code use

/-! ## Text -/

/-- Refuses a text with code that is not closed. -/
def checkText (spot : Spot) : Except Fault Unit :=
  match Interpolation.unclosed? spot.rest with
  | some offset => .error ⟨.unclosedInterpolation, spot.advance offset⟩
  | none => .ok ()

namespace TextBlock

/-- A text block with a first text. -/
def startingWith (text : Text) : TextBlock :=
  if text.isEmpty then {} else { hasText := true, nodes := [.interpolate text] }

/-- A block with one more blank line. -/
def addBlank (b : TextBlock) : TextBlock :=
  { b with
    nodes := b.nodes ++ [.newline],
    gaps := if b.indent?.isSome then b.gaps + 1 else b.gaps }

/-- The nodes of a line with text: the blank lines in front of it, the mark of the line, and its
text behind a line feed and the spaces it is indented by more than the first line. -/
def lineNodes (b : TextBlock) (indent : Nat) (text : Text) : List Node :=
  (if b.gaps = 0 then [] else [.interpolate (List.replicate b.gaps '\n')])
    ++ [.newline,
        .interpolate ((if b.hasText then ['\n'] else [])
          ++ Text.spaces (indent - b.indent?.getD indent) ++ text)]

/-- A block with one more line, indented `indent` columns; `spot` is behind the indentation. -/
def addLine (b : TextBlock) (interpolated : Bool) (indent : Nat) (spot : Spot) :
    Except Fault TextBlock :=
  if indent < b.indent?.getD indent then .error ⟨.shallowText, spot⟩
  else
    match (if interpolated then checkText spot else .ok ()) with
    | .error fault => .error fault
    | .ok () =>
      .ok {
        indent? := some (b.indent?.getD indent)
        hasText := true
        gaps := 0
        nodes := b.nodes ++ b.lineNodes indent spot.rest }

end TextBlock

/-! ## Tags -/

/-- The trims that angle brackets ask for. -/
def trimsOf (angles : Text) : List Trim :=
  (if angles.contains '>' then [Trim.outer] else [])
    ++ (if angles.contains '<' then [Trim.inner] else [])

/-- Ends a tag whose attributes are complete, from the place behind its trims. -/
def tagContent (s : State) (head : TagHead) (spot : Spot) : Except Fault State :=
  if Element.isVoid head.name && !spot.atEnd && (Mark.tagClosed spot.rest).isNone then
    .error ⟨.textAfterClosedTag, spot.skipBlanks⟩
  else
    match spot.scan? Mark.tagOutput with
    | some ((modifier, doubled), after) =>
      if after.atEnd then .error ⟨.missingCode, after⟩
      else .ok (takeCode s (trim after.rest) (.tagOutput (.ofParts modifier doubled) head))
    | none =>
      if spot.atEnd then .ok (s.openBlock head.opener [] head.marks)
      else
        match spot.scan? Mark.tagClosed with
        | some (_, after) =>
          if after.rest.isEmpty then .ok (s.close (head.closed :: head.marks))
          else .error ⟨.textAfterClosedTag, after⟩
        | none =>
          let text := match spot.scan? Mark.tagText with
            | some (_, after) => after
            | none => spot
          match checkText text with
          | .error fault => .error fault
          | .ok () =>
            .ok { s with pending := .text (.startingWith text.rest) (.tag head) }

/-- Reads a tag behind its attributes. -/
def tagEnd (s : State) (name : Text) (entries : List Node) (extraLines : Nat) (spot : Spot) :
    Except Fault State :=
  match spot.scan? Mark.angles with
  | some (angles, after) =>
    tagContent s { name, entries, trims := trimsOf angles, extraLines } after
  | none => tagContent s { name, entries, extraLines } spot

/-- Goes on with a tag behind a reading. -/
def tagAttributes (s : State) (name : Text) (extraLines : Nat) :
    Attribute.Reading → Except Fault State
  | .complete entries spot => tagEnd s name entries extraLines spot
  | .continues form entries spot =>
    .ok { s with pending := .attributes form entries spot name extraLines }

/-- Reads a tag behind its name. -/
def tag (s : State) (name : Text) (spot : Spot) : Except Fault State :=
  match Attribute.read spot with
  | .error fault => .error fault
  | .ok reading => tagAttributes s name 0 reading

/-! ## Lines -/

/-- Reads a comment line. -/
def comment (s : State) (spot : Spot) : Except Fault State :=
  if spot.atEnd then .ok (s.openBlock (.frame .comment .plain) [] [])
  else
    match checkText spot with
    | .error fault => .error fault
    | .ok () => .ok { s with pending := .text (.startingWith (trim spot.rest)) .comment }

/-- Reads a line behind its mark. -/
def marked (o : Options) (s : State) (spot : Spot) : Indicator → Except Fault State
  | .doctype => .ok (s.close [Doctype.node o.format spot.rest])
  | .condComment condition => .ok (s.openBlock (.frame (.condComment condition) .plain) [] [])
  | .comment => comment s spot
  | .tag name => tag s name spot
  | .shortcut => tag s "div" spot
  | .stray => .error ⟨.unknownIndicator, spot⟩
  | .silent => .ok { s.close [] with pending := .silent }
  | .output mark =>
    if spot.atEnd then .error ⟨.missingCode, spot⟩
    else .ok (takeCode s (trim spot.rest) (.output mark))
  | .control => .ok (takeCode s (trim spot.rest) .control)
  | .embedded name => .ok { s with pending := .text {} (.embedded name) }
  | .text =>
    match checkText spot with
    | .error fault => .error fault
    | .ok () => .ok (s.close [.interpolate spot.rest])

/-- Reads a line whose indentation has been dealt with. -/
def dispatch (o : Options) (s : State) (spot : Spot) : Except Fault State :=
  match spot.scan? Indicator.read with
  | some (indicator, after) => marked o s after indicator
  | none => marked o s spot .text

/-- Reads a line that stands for itself. -/
def fresh (o : Options) (s : State) (line : Text) : Except Fault State :=
  if allBlank line then .ok (s.close [])
  else
    let spot := (Spot.start s.number line).skipBlanks
    match s.layout.enter (Indent.width o.tabSize line) with
    | (some cause, _) => .error ⟨cause, spot⟩
    | (none, layout) => dispatch o { s with layout, pending := .nothing } spot

/-- Whether a line is blank or indented deeper than the innermost open block, so that it belongs to
what the last line of the block started. -/
def nested (o : Options) (s : State) (line : Text) : Bool :=
  allBlank line || s.layout.width < Indent.width o.tabSize line

/-- Reads a line in a text block. -/
def textLine (o : Options) (s : State) (block : TextBlock) (use : TextUse) (line : Text) :
    Except Fault State :=
  if allBlank line then .ok { s with pending := .text block.addBlank use }
  else if nested o s line then
    match block.addLine use.interpolated (Indent.width o.tabSize line)
        (Spot.start s.number line).skipBlanks with
    | .error fault => .error fault
    | .ok block => .ok { s with pending := .text block use }
  else fresh o (s.finishText block use) line

/-- Reads one more line. -/
def step (o : Options) (before : State) (line : Text) : Except Fault State :=
  let s := { before with number := before.number + 1 }
  match s.pending with
  | .nothing => fresh o s line
  | .silent =>
    if nested o s line then .ok { s.close [] with pending := .silent } else fresh o s line
  | .text block use => textLine o s block use line
  | .attributes form entries _ name extraLines =>
    match Attribute.resume form entries s.number line with
    | .error fault => .error fault
    | .ok reading => tagAttributes s name (extraLines + 1) reading
  | .code code use => .ok (takeCode s (code ++ '\n' :: trim line) use)

/-- The tree at the end of a template. -/
def finish (s : State) : Except Fault Node :=
  match s.pending with
  | .nothing => .ok s.layout.tree
  | .silent => .ok s.layout.tree
  | .text block use => .ok (s.finishText block use).layout.tree
  | .attributes form _ left _ _ => .error ⟨.unclosedList form.closer, left⟩
  | .code _ _ => .error ⟨.unexpectedEnd, Spot.start s.number []⟩

/-- The tree of some lines whose indentations can be measured. -/
def ofLines (o : Options) (lines : List Text) : Except Fault Node := do
  finish (← lines.foldlM (step o) {})

/-- The tree of a template whose indentations can be measured. -/
def ofSource (o : Options) (source : Text) : Except Fault Node :=
  ofLines o (Source.lines source)

/-! ## Lines that are measured -/

/-- Why a template is not read to its end. -/
inductive Halt where
  | fault (fault : Fault)
  /-- The indentation of a line cannot be measured. -/
  | overflow
deriving DecidableEq

/-- Whether the indentation of the next line matters: the line is not blank, and it does not go on
with a list of attributes or with code. -/
def State.measures (s : State) (line : Text) : Bool :=
  !allBlank line && match s.pending with
    | .attributes _ _ _ _ _ | .code _ _ => false
    | .nothing | .silent | .text _ _ => true

/-- Reads a line, and measures its indentation where it matters. -/
def readLine (o : Options) (s : State) (line : Text) : Except Halt State :=
  if s.measures line && (Indent.measure? o.tabSize line).isNone then .error .overflow
  else (step o s line).mapError .fault

/-- Reads lines from a state on, up to the end of the template. -/
def readFrom (o : Options) (s : State) (lines : List Text) : Except Halt Node := do
  let s ← lines.foldlM (readLine o) s
  (finish s).mapError .fault

end Outline

end MarkupTemplate
