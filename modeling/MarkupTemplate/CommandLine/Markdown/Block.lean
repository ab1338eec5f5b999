import MarkupTemplate.Text.Basic

/-!
# Blocks of Markdown

A text is divided into runs of lines by blank lines, and every run into blocks. Of a run, these are
looked for in turn: a heading in any line, a first line with an underline, a rule in any line, a
first line that starts a list, a link definition in any line. Whatever is left is a paragraph. A
definition shows nothing.

Every item of a list is a run of lines of its own. Its text stands in it directly, and not as a
paragraph, as long as the list is *tight*. A run that starts a list right behind a list continues
it, and the items on both sides of the gap hold paragraphs. So `grow` has to see the blocks that it
adds to.
-/

namespace MarkupTemplate

/-! ## Lines -/

namespace Markdown

/-- The heading that a line starting with `#` is: its level and its text. -/
def heading? (line : Text) : Option (Nat × Text) :=
  let level := min 6 (line.takeWhile (· == '#')).length
  if level = 0 then none
  else
    let title := line.drop level
    some (level, Text.trim (title.reverse.dropWhile (· == '#')).reverse)

/-- The level of the heading that a line makes of the line in front of it. -/
def underline? (line : Text) : Option Nat :=
  let signs := line.takeWhile fun c => c == '=' || c == '-'
  match signs with
  | [] => none
  | c :: _ =>
    if (line.drop signs.length).all (· == ' ') then some (if c = '=' then 1 else 2) else none

/-- A line without the spaces of at most three columns in front. -/
def outdented (line : Text) : Text :=
  if (line.takeWhile (· == ' ')).length ≤ 3 then line.dropWhile (· == ' ') else line

/-- Whether marks follow each other with at most two spaces in between, and how many there are. -/
def ruleMarks (mark : Char) : (marks gap : Nat) → Text → Bool
  | marks, _, [] => 3 ≤ marks
  | marks, gap, c :: t =>
    if c = mark then gap ≤ 2 && ruleMarks mark (marks + 1) 0 t
    else if c = ' ' then ruleMarks mark marks (gap + 1) t
    else false

/-- Whether a line is a rule. -/
def isRule (line : Text) : Bool :=
  match outdented line with
  | [] => false
  | c :: t => (c == '-' || c == '_' || c == '*') && ruleMarks c 1 0 t

/-- The text of a line that starts with a list mark, and whether the mark is a number. -/
def item? (line : Text) : Option (Bool × Text) :=
  let line := outdented line
  let number := line.takeWhile Char.isDigit
  let (ordered, rest) := match number, line with
    | [], c :: t => (false, if c == '*' || c == '+' || c == '-' then t else [])
    | [], [] => (false, [])
    | _, _ =>
      (true, match line.drop number.length with
        | '.' :: t => t
        | _ => [])
  match rest with
  | ' ' :: t => some (ordered, t.dropWhile (· == ' '))
  | _ => none

/-! ## Link definitions -/

/-- A text without spaces at its end. -/
def withoutEndSpaces (t : Text) : Text :=
  (t.reverse.dropWhile (· == ' ')).reverse

/-- Whether a text is the title of a link: something in quotes or in brackets. -/
def isLinkTitle (t : Text) : Bool :=
  match t, (withoutEndSpaces t).getLast? with
  | opening :: _ :: _, some closing =>
    2 ≤ (withoutEndSpaces t).length
      && (((opening == '"' || opening == '\'') && closing == opening)
        || (opening == '(' && closing == ')'))
  | _, _ => false

/-- Whether a target of `n` characters or fewer, with a title behind it, makes up a text. -/
def hasTitledTarget (t : Text) : (n : Nat) → Bool
  | 0 => false
  | n + 1 => isLinkTitle ((t.drop (n + 1)).dropWhile (· == ' ')) || hasTitledTarget t n

/-- How many lines the rest of a link definition takes up, from the line with its target on. -/
def target? (line : Text) (lines : List Text) : Option Nat :=
  let line := line.dropWhile (· == ' ')
  let target := line.takeWhile (!Text.isBlank ·)
  if target.isEmpty then none
  else if (line.drop target.length).all (· == ' ') then
    match lines with
    | next :: _ => some (if isLinkTitle (next.dropWhile (· == ' ')) then 2 else 1)
    | [] => some 1
  else if hasTitledTarget line target.length then some 1
  else none

/-- How many lines a link definition takes up. -/
def definition? : List Text → Option Nat
  | [] => none
  | line :: lines =>
    match outdented line with
    | '[' :: t =>
      match t.dropWhile fun c => c != ']' && c != '[' with
      | ']' :: ':' :: rest =>
        if rest.all (· == ' ') then
          match lines with
          | next :: lines => (target? next lines).map (· + 1)
          | [] => none
        else target? rest lines
      | _ => none
    | _ => none

/-- A block of a text. -/
inductive Block where
  | paragraph (text : Text)
  | bare (text : Text)
  | heading (level : Nat) (text : Text)
  | rule
  | item (parts : List Block)
  | list (ordered : Bool) (items : List Block)
deriving Repr

/-! ## Lists -/

/-- The lines of each item of a list; a line without a list mark belongs to the item above. -/
def itemLines : List Text → List (List Text)
  | [] => []
  | line :: lines =>
    match item? line with
    | some (_, text) => (text :: lines.takeWhile fun l => (item? l).isNone) :: itemLines lines
    | none => itemLines lines

/-- The blocks of an item, in which bare text at its start or at its end is a paragraph. -/
def loosened (parts : List Block) : List Block :=
  let parts : List Block := match parts with
    | .bare text :: parts => .paragraph text :: parts
    | parts => parts
  match parts.getLast? with
  | some (.bare text) => parts.dropLast ++ [.paragraph (Text.trimLeft text)]
  | _ => parts

/-- Makes paragraphs of the last item. -/
def loosenLast (items : List Block) : List Block :=
  match items.getLast? with
  | some (.item parts) => items.dropLast ++ [.item (loosened parts)]
  | _ => items

/-! ## Text -/

/-- Adds text that is no other block: directly in a tight list, as a paragraph elsewhere. -/
def addText (tight : Bool) (parts : List Block) (lines : List Text) : List Block :=
  let text := Text.joinWith ['\n'] lines
  if Text.allBlank text then parts
  else if !tight then parts ++ [.paragraph (Text.trimLeft text)]
  else
    match parts, parts.getLast? with
    | [.bare before], _ => [.bare (before ++ '\n' :: Text.trimLeft text)]
    | _, some (.bare before) => parts.dropLast ++ [.bare (before ++ '\n' :: text)]
    | [], _ => [.bare (Text.trimLeft text)]
    | _, _ => parts ++ [.bare text]

/-! ## Runs of lines -/

/-- Splits lines at the first of a kind. -/
def splitAtLine {α : Type} (f : Text → Option α) :
    List Text → Option (List Text × α × List Text)
  | [] => none
  | line :: lines =>
    match f line with
    | some a => some ([], a, lines)
    | none => (splitAtLine f lines).map fun (front, a, rest) => (line :: front, a, rest)

/-- Splits lines at a link definition. -/
def splitAtDefinition : List Text → Option (List Text × List Text)
  | [] => none
  | line :: lines =>
    match definition? (line :: lines) with
    | some n => some ([], (line :: lines).drop n)
    | none => (splitAtDefinition lines).map fun (front, rest) => (line :: front, rest)

/-- The heading that lines start with. -/
def underlined? : List Text → Option (Block × List Text)
  | title :: line :: lines => (underline? line).map fun level =>
      (.heading level (Text.trim title), lines)
  | _ => none

/-- Adds the blocks of runs of lines to blocks. The first argument bounds the number of steps. -/
def grow : (steps : Nat) → (tight : Bool) → (parts : List Block) → List (List Text) → List Block
  | 0, _, parts, _ => parts
  | _ + 1, _, parts, [] => parts
  | steps + 1, tight, parts, [] :: runs => grow steps tight parts runs
  | steps + 1, tight, parts, (line :: lines) :: runs =>
    let run := line :: lines
    match splitAtLine heading? run with
    | some (front, (level, text), rest) =>
      grow steps tight (grow steps tight parts [front] ++ [.heading level text]) (rest :: runs)
    | none =>
    match underlined? run with
    | some (block, rest) => grow steps tight (parts ++ [block]) (rest :: runs)
    | none =>
    match splitAtLine (fun l => if isRule l then some () else none) run with
    | some (front, _, rest) =>
      grow steps tight (grow steps tight parts [front] ++ [.rule]) (rest :: runs)
    | none =>
    match item? line with
    | some (ordered, _) =>
      let tightItem (lines : List Text) : Block := .item (grow steps true [] [lines])
      match parts.getLast?, itemLines run with
      | some (.list ordered before), first :: others =>
        let items := loosenLast before
          ++ .item (grow steps false [] [first]) :: others.map tightItem
        grow steps tight (parts.dropLast ++ [.list ordered items]) runs
      | _, items => grow steps tight (parts ++ [.list ordered (items.map tightItem)]) runs
    | none =>
    match splitAtDefinition run with
    | some (front, rest) => grow steps tight parts (front :: rest :: runs)
    | none => grow steps tight (addText tight parts run) runs

/-- The runs of lines between blank ones. -/
def runsOf : (run : List Text) → List Text → List (List Text)
  | run, [] => if run.isEmpty then [] else [run]
  | run, line :: lines =>
    if line.all (· == ' ') then (if run.isEmpty then [] else [run]) ++ runsOf [] lines
    else runsOf (run ++ [line]) lines

/-- The blocks of a text. Every step takes a line or a list mark off a run, or a run off the list of
runs, so that two steps for every character, line and run are enough. -/
def blocks (lines : List Text) : List Block :=
  let runs := runsOf [] lines
  grow (2 * (runs.flatten.flatten.length + runs.flatten.length + runs.length) + 1) false [] runs

end Markdown

end MarkupTemplate
