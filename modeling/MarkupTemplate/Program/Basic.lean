import MarkupTemplate.Failure

/-!
# Programs

A program is held as its statements; a statement that introduces others is followed by a suite of
them, which is printed indented. Printing a program gives its source, and with it the line map: for
each printed line the line of the template, or zero for the lines around the statements.
-/

namespace MarkupTemplate

/-! ## Statements -/

/-- What a statement does. -/
inductive Form where
  | literal (buffer text : Text)
  | output (buffer code : Text)
  | host (code : Text)
  | begin (name : Text)
  /-- Makes markup of the output that was collected in a variable. -/
  | finish (name : Text)
  | pass
deriving DecidableEq, Repr

/-- A statement, or the indented statements that belong to the one in front. -/
inductive Stmt where
  | plain (form : Form) (line : Nat)
  | suite (body : List Stmt)
deriving Repr, Inhabited

/-- The program of a template. -/
structure Program where
  file : Option Text
  strategy : Strategy
  body : List Stmt
deriving Repr

/-! ## Printing -/

namespace Form

/-- Code that puts something out. -/
def appendTo (strategy : Strategy) (buffer expression : Text) : Text :=
  match strategy with
  | .array => buffer ++ ".append(" ++ expression ++ ")"
  | .string => buffer ++ " += " ++ expression

/-- Code for an empty buffer. -/
def emptyBuffer : Strategy → Text
  | .array => "[]"
  | .string => "''"

/-- Code for the text of a buffer. -/
def wholeBuffer (strategy : Strategy) (buffer : Text) : Text :=
  match strategy with
  | .array => "''.join(" ++ buffer ++ ")"
  | .string => buffer

/-- The helper that makes text of values. -/
def textHelper : Text := "_hamlc_str"

/-- The helper that makes markup of texts. -/
def markupHelper : Text := "_hamlc_markup"

/-- The code of a statement. -/
def text (strategy : Strategy) : Form → Text
  | .literal buffer t => appendTo strategy buffer (Text.quote t)
  | .output buffer code =>
    appendTo strategy buffer (textHelper ++ "(" ++ code ++ ")")
  | .host code => code
  | .begin name => name ++ " = " ++ emptyBuffer strategy
  | .finish name =>
    name ++ " = " ++ markupHelper ++ "(" ++ wholeBuffer strategy name ++ ")"
  | .pass => "pass"

/-- How many lines a statement goes beyond its first. -/
def extraLines (strategy : Strategy) (form : Form) : Nat :=
  (form.text strategy).count '\n'

end Form

/-- A line with its line in the template. -/
abbrev PrintedLine := Text × Nat

namespace Stmt

/-- The spaces in front of a line. -/
def margin (level : Nat) : Text :=
  Text.spaces (4 * level)

mutual

/-- The lines of a statement. -/
def printed (strategy : Strategy) : (level : Nat) → Stmt → List PrintedLine
  | level, .plain form line =>
    (Text.split '\n' (form.text strategy)).map fun part => (margin level ++ part, line)
  | level, .suite body => printedAll strategy (level + 1) body

/-- The lines of statements. -/
def printedAll (strategy : Strategy) : (level : Nat) → List Stmt → List PrintedLine
  | _, [] => []
  | level, s :: ss => printed strategy level s ++ printedAll strategy level ss

end

end Stmt

namespace Program

/-- The name of the main buffer. -/
def buffer : Text := "_hamlc_buf"

/-- The name of the output. -/
def result : Text := "_hamlc_result"

/-- The lines of the statements. -/
def lines (p : Program) : List PrintedLine :=
  Stmt.printedAll p.strategy 0 p.body

/-- The first line, which names the template if it has a name. -/
def banner (p : Program) : Text :=
  "# Generated by hamlc" ++
    match p.file with
    | none => []
    | some [] => []
    | some file => " from " ++ file

/-- The lines in front of the statements. -/
def opening (p : Program) : List Text :=
  [p.banner, [], buffer ++ " = " ++ Form.emptyBuffer p.strategy]

/-- The line behind the statements. -/
def closing (p : Program) : Text :=
  result ++ " = " ++ Form.wholeBuffer p.strategy buffer

/-- The text of a program. -/
def source (p : Program) : Text :=
  (p.opening ++ p.lines.map (·.1) ++ [p.closing]).flatMap (· ++ ['\n'])

/-- The line in the template of each line. -/
def lineMap (p : Program) : List Nat :=
  List.replicate p.opening.length 0 ++ p.lines.map (·.2) ++ [0]

/-- The line of the template that a line map gives for a line, or zero if it gives none. -/
def templateLine (map : List Nat) (line : Int) : Nat :=
  if line < 1 then 0 else map[line.toNat - 1]?.getD 0

/-! ## Programs from trees

A tree of core nodes becomes the statements of a program. The line of the template is counted along
the way: a line mark ends a line, and so does every line feed inside a statement.
-/

/-- Where output goes. -/
structure Target where
  strategy : Strategy
  buffer : Text
deriving DecidableEq, Repr

/-- A statement, and the line behind it. -/
def Target.emit (t : Target) (form : Form) (line : Nat) : List Stmt × Nat :=
  ([.plain form line], line + form.extraLines t.strategy)

/-- The indented statements of a block; a block without any does nothing. -/
def suiteOf (body : List Stmt) (line : Nat) : List Stmt :=
  [.suite (if body.isEmpty then [.plain .pass line] else body)]

mutual

/-- The statements of a tree whose first line is `line`, and the line after it. -/
def statements (t : Target) : (line : Nat) → Node → Except Failure (List Stmt × Nat)
  | line, .leaf .newline => .ok ([], line + 1)
  | line, .leaf (.static text) =>
    .ok (if text.isEmpty then ([], line) else t.emit (.literal t.buffer text) line)
  | line, .leaf (.dynamic code) => .ok (t.emit (.output t.buffer code) line)
  | line, .leaf (.code code) => .ok (t.emit (.host code) line)
  | _, .leaf l => .error (.notCore (some (.leaf l)))
  | line, .frame .block body => do
    let (body, line) ← statements t line body
    return (suiteOf body line, line)
  | line, .frame (.capture name) body => do
    let (start, line) := t.emit (.begin name) line
    let (body, line) ← statements { t with buffer := name } line body
    let (stop, line) := t.emit (.finish name) line
    return (start ++ body ++ stop, line)
  | _, .frame f inner => .error (.notCore (some (.frame f inner)))
  | line, .group .seq children => statementsOf t line children
  | _, .group .attrs entries => .error (.notCore (some (.group .attrs entries)))
  | _, .tag name entries body => .error (.notCore (some (.tag name entries body)))

/-- The statements for a list of trees. -/
def statementsOf (t : Target) : (line : Nat) → List Node → Except Failure (List Stmt × Nat)
  | line, [] => .ok ([], line)
  | line, n :: ns => do
    let (first, line) ← statements t line n
    let (rest, line) ← statementsOf t line ns
    return (first ++ rest, line)

end

/-- The program of a tree. -/
def ofTree (o : Options) (n : Node) : Except Failure Program := do
  let (body, _) ← statements ⟨o.generator, buffer⟩ 1 n
  return { file := o.file, strategy := o.generator, body }

end Program

end MarkupTemplate
