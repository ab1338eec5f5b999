import MarkupTemplate.Compiler

/-!
# Compilers

A compiler is used for one template after another. It keeps the engines it has met, and its parts
keep notes on the template under way: where the reader is in it, how many names a pass has made,
what markup has been written, and so on. The notes lie on the *desk* of the compiler, and they stay
there when a part is done.

A part that sets to work first puts its own notes back to what they are at the start of a template.
So nothing depends on the notes of an earlier template, whatever a part has left that was broken
off.
-/

namespace MarkupTemplate

open Embedded (Registry Cache)

/-! ## Desks -/

/-- The notes of the parts of a compiler. -/
structure Desk where
  /-- Where the reader is in a template; it is nowhere between two of them. -/
  reading? : Option Outline.State := none
  /-- How many names each pass has made. -/
  made : Pass → Nat := fun _ => 0
  /-- Where in the tree markup is being written. -/
  place : Markup.Place := ⟨false, 0⟩
  /-- What markup has been written. -/
  progress : Markup.Progress := {}
  /-- Whether the output under way is escaped, if the tree says so. -/
  escape? : Option Bool := none
  /-- Where the statements of a program go. -/
  target : Program.Target := ⟨.array, Program.buffer⟩
  /-- The statements of the program so far. -/
  body : List Stmt := []
  /-- The line of the template that the next statement belongs to. -/
  line : Nat := 1

namespace Desk

variable (o : Options) (d : Desk)

/-- Notes how many names a pass has made. -/
def note (pass : Pass) (n : Nat) : Desk :=
  { d with made := fun other => if other = pass then n else d.made other }

/-- The notes that a pass starts with. -/
def start (pass : Pass) : Desk :=
  match pass with
  | .markup => { d.note .markup 0 with place := ⟨o.pretty, 0⟩, progress := {} }
  | .escape => { d.note .escape 0 with escape? := none }
  | pass => d.note pass 0

/-- The notes that the writer of programs starts with. -/
def startWriting : Desk :=
  { d with target := ⟨o.generator, Program.buffer⟩, body := [], line := 1 }

/-- What a pass makes of a tree, going by its notes, and the notes it leaves. -/
def work (pass : Pass) (n : Node) : Except Failure (Node × Desk) :=
  match pass with
  | .control => do
    let (n, used) ← n.controlled o.disableCapture (d.made .control)
    return (n, d.note .control used)
  | .merge => do
    let (n, used) ← n.attributed o (d.made .merge)
    return (n, d.note .merge used)
  | .markup => do
    let (n, progress) ← n.markup o d.place d.progress
    return (n, { d with progress })
  | .escape => do
    let n ← n.escaped o.escapeHtml d.escape?
    return (n, d)
  | pass => do
    let n ← pass.runPure o n
    return (n, d)

/-- Writes the statements of a tree behind those that are there. -/
def write (n : Node) : Except Failure Desk := do
  let (more, line) ← Program.statements d.target d.line n
  return { d with body := d.body ++ more, line }

end Desk

/-! ## Compilers -/

/-- A compiler. -/
structure Compiler where
  options : Options
  /-- The number of its registry; without one it uses the built-in engines. -/
  home? : Option Nat := none
  /-- The engines it has met. -/
  met : Cache := []
  desk : Desk := {}

namespace Compiler

variable (c : Compiler)

/-- The tree of a template. The reader leaves no notes, also when it fails. -/
def tree (source : Source) : Except Error Node × Compiler :=
  match source.decode c.options with
  | .error e => (.error e, c)
  | .ok t =>
    let reading : Desk := { c.desk with reading? := some {} }
    let result := Outline.readFrom c.options (reading.reading?.getD {}) (Source.lines t)
    (result.mapError (Source.errorOf c.options),
      { c with desk := { reading with reading? := none } })

/-- What passes make of a tree. If one of them fails, it leaves the notes `left`. -/
def runAll (r : Registry) (left : Desk) :
    List Pass → Node → Compiler → Except Failure Node × Compiler
  | [], n, c => (.ok n, c)
  | .embed :: passes, n, c =>
    match (n.rendered c.options r).run c.met with
    | (.ok n, met) => runAll r left passes n { c with met, desk := c.desk.start c.options .embed }
    | (.error failure, met) => (.error failure, { c with met, desk := left })
  | pass :: passes, n, c =>
    match (c.desk.start c.options pass).work c.options pass n with
    | .ok (n, desk) => runAll r left passes n { c with desk }
    | .error failure => (.error failure, { c with desk := left })

/-- The tree that the program of a template is written for. -/
def transform (r : Registry) (left : Desk) (source : Source) : Except Error Node × Compiler :=
  match c.tree source with
  | (.error e, c) => (.error e, c)
  | (.ok n, c) =>
    match runAll r left (Pass.all c.options) n c with
    | (.ok n, c) => (.ok n, c)
    | (.error failure, c) => (.error (.step failure), c)

/-- The program of a template. -/
def generate (r : Registry) (left : Desk) (source : Source) : Except Error Program × Compiler :=
  match c.transform r left source with
  | (.error e, c) => (.error e, c)
  | (.ok n, c) =>
    match (c.desk.startWriting c.options).write n with
    | .ok desk =>
      (.ok { file := c.options.file, strategy := c.options.generator, body := desk.body },
        { c with desk })
    | .error failure => (.error (.step failure), { c with desk := left })

end Compiler

end MarkupTemplate
