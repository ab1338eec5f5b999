import MarkupTemplate.CommandLine.Arguments
import MarkupTemplate.CommandLine.Markdown
import MarkupTemplate.CommandLine.Placeholder
import MarkupTemplate.Options.Load
import MarkupTemplate.Session

/-!
# Runs of the command line

A run compiles one template and writes the output of its program, the program itself, or its tree.
It goes through a fixed order of things that may be wrong: the arguments, the template's path, the
options, the variables, the template. An error that the user can mend is told in one message;
others are left to whoever started the run. Markdown and templates between double braces are read as
far as `Markdown` and `Placeholder` know them.
-/

namespace MarkupTemplate

open Embedded (Registry Cache)

/-! ## Events

The command line can tell which template it compiles, which passes run and which engines they meet.
The events of a compilation end where it fails.
-/

namespace CommandLine

/-- How much an event matters. -/
inductive Level where
  | debug
  | info
deriving DecidableEq, Repr

/-- The word for a level. -/
def Level.word : Level → Text
  | .debug => "DEBUG"
  | .info => "INFO"

/-- A step that can be told. -/
inductive Event where
  | started (path : Text)
  | parsed (lines : Nat)
  | running (pass : Pass)
  | met (engine : Text)
  | generated (lines : Nat)
  | compiling (label : Text)
  | wrote (path : Text)
deriving DecidableEq, Repr

namespace Event

/-- How much an event matters. -/
def level : Event → Level
  | .started _ => .info
  | .wrote _ => .info
  | _ => .debug

/-- The message for an event. -/
def message : Event → Text
  | .started path => "compiling " ++ path
  | .parsed lines => "parsed " ++ Text.ofNat lines ++ " lines"
  | .running pass => "running " ++ pass.label
  | .met engine => "created embedded engine " ++ engine
  | .generated lines => "generated " ++ Text.ofNat lines ++ " lines of python"
  | .compiling label => "compiling " ++ label
  | .wrote path => "wrote " ++ path

/-- The events of a run of passes. -/
def ofPasses (o : Options) (r : Registry) : List Pass → Node → Cache → List Event
  | [], _, _ => []
  | pass :: passes, n, before =>
    let (result, after) := pass.run o r n before
    .running pass :: (after.drop before.length).map (fun (name, _) => .met name) ++
      match result with
      | .ok n => ofPasses o r passes n after
      | .error _ => []

/-- The events up to the final tree. -/
def ofTransform (o : Options) (r : Registry) (source : Source) : List Event :=
  match source.decode o, source.tree o with
  | .ok t, .ok n => .parsed (Source.lines t).length :: ofPasses o r (Pass.all o) n []
  | _, _ => []

/-- The events up to the program. -/
def ofGenerate (o : Options) (r : Registry) (source : Source) : List Event :=
  ofTransform o r source ++
    match (generate o r source []).1 with
    | .ok p => [.generated p.lines.length]
    | .error _ => []

/-- The events of a compilation. -/
def ofCompile (o : Options) (r : Registry) (source : Source) : List Event :=
  ofGenerate o r source ++
    match (generate o r source []).1 with
    | .ok _ => [.compiling o.label]
    | .error _ => []

end Event

end CommandLine

/-! ## Files

A path is written without empty parts, and without parts that stand for the directory they are in.
-/

namespace Path

/-- The parts of a path. -/
def parts (path : Text) : List Text :=
  (Text.split '/' path).filter fun part => !part.isEmpty && part != ['.']

/-- What a path starts from: exactly two slashes are kept, more are one. -/
def start : Text → Text
  | '/' :: '/' :: '/' :: _ => ['/']
  | '/' :: '/' :: _ => ['/', '/']
  | '/' :: _ => ['/']
  | _ => []

/-- The path of the current directory. -/
def here : Text := ['.']

/-- The normal form of a path. -/
def normal (path : Text) : Text :=
  match start path ++ Text.joinWith ['/'] (parts path) with
  | [] => here
  | path => path

/-- The directories that a path goes through. -/
def parents (path : Text) : List Text :=
  let parts := parts path
  (List.range parts.length).filterMap fun n =>
    if n = 0 then none else some (start path ++ Text.joinWith ['/'] (parts.take n))

end Path

/-- What a path may lead to. -/
inductive FileEntry where
  | file (bytes : List Nat)
  | directory
deriving DecidableEq, Repr

/-- The files that a run can see. -/
abbrev Files := List (Text × FileEntry)

namespace Files

/-- The files with some contents. -/
def ofContents (contents : List (Text × List Nat)) : Files :=
  (contents.map fun (path, bytes) => (Path.normal path, .file bytes))
    ++ contents.flatMap fun (path, _) => (Path.parents path).map fun parent => (parent, .directory)

/-- What is found at a path. -/
def find? (files : Files) (path : Text) : Option FileEntry :=
  if path = Path.here then some .directory else files.lookup path

/-- The text of a file, if there is one. -/
def text? (files : Files) (path : Text) : Except Error (Option Text) :=
  match files.find? path with
  | none => .ok none
  | some .directory => .error (.directory path)
  | some (.file bytes) =>
    match Encoding.utf8.decode bytes with
    | .ok t => .ok (some t)
    | .error _ => .error (.notText path)

end Files

namespace CommandLine

/-- How a run ends. -/
structure Outcome where
  exit : Nat
  events : List Event := []
  output : Text := []
  complaint : Text := []
  written? : Option (Text × Text) := none
  /-- The error that is left to whoever started the run. -/
  uncaught? : Option Error := none
deriving DecidableEq

/-- How the command is used. -/
def usage : Text :=
  "Usage: hamlc [OPTIONS] TEMPLATE\n"

/-- The version that is shown. -/
def version : Text :=
  "hamlc 0.1.0\n"

/-- Whether an error is told to the user. -/
def isTold : Error → Bool
  | .run _ | .badName | .directory _ | .notText _ | .tabOverflow => false
  | .step .engineAbstract | .step .engineWithoutTag => false
  | _ => true

/-- The message for something wrong. -/
def complain (message : Text) : Text :=
  "Error: " ++ message ++ ['\n']

/-- The outcome of a run with an error. -/
def failed (events : List Event) (e : Error) : Outcome :=
  if isTold e then { exit := 1, events, complaint := complain e.message }
  else { exit := 1, events, uncaught? := some e }

/-- The options given by arguments. -/
def Arguments.given (a : Arguments) (template : Text) : Options.Given :=
  (a.format?.map fun v => ("format".toList, Value.text v)).toList
    ++ (a.escapeHtml?.map fun on => ("escape_html".toList, Value.bool on)).toList
    ++ (a.pretty?.map fun on => ("pretty".toList, Value.bool on)).toList
    ++ [("file".toList, .text template)]

/-- The options of a run. -/
def Arguments.options (a : Arguments) (files : Files) (template : Text) : Except Error Options :=
  match a.config? with
  | some path => do
    let path := Path.normal path
    let content? ← files.text? path
    Options.load path content? (a.given template)
  | none =>
    match Options.build (a.given template) with
    | .ok o => .ok o
    | .error faults => .error (.options faults)

/-- The variables of a run. -/
def Arguments.scope (a : Arguments) (files : Files) : Except Error (List (Text × Value)) :=
  match a.locals? with
  | some path => do
    let path := Path.normal path
    let content? ← files.text? path
    loadLocals path content?
  | none => .ok []

/-- What a run writes for a template. -/
def Arguments.make (a : Arguments) (files : Files) (o : Options) (source : Source) :
    List Event × Except Error Text :=
  let r := Embedded.Registry.builtin Markdown.renderer
  if a.tree then
    (Event.ofTransform o r source, (transform o r source []).1.map Node.json)
  else if a.source then
    (Event.ofGenerate o r source, (generate o r source []).1.map Program.source)
  else
    match a.scope files with
    | .error e => ([], .error e)
    | .ok scope =>
      (Event.ofCompile o r source, do
        let program ← (generate o r source []).1
        (⟨program, o.label⟩ : Template).render (.standard Placeholder.filler) .none scope [])

/-- Compiles a template at a path. -/
def Arguments.compile (a : Arguments) (files : Files) (template : Text) : Outcome :=
  match files.find? template with
  | none => { exit := 1, complaint := complain ("File not found: " ++ template) }
  | some found =>
    match a.options files template with
    | .error e => failed [] e
    | .ok o =>
      match found with
      | .directory => failed [.started template] (.directory template)
      | .file bytes =>
        match a.make files o (.bytes bytes) with
        | (events, .error e) => failed (.started template :: events) e
        | (events, .ok result) =>
          match a.output? with
          | none => { exit := 0, events := .started template :: events, output := result ++ ['\n'] }
          | some path =>
            let path := Path.normal path
            { exit := 0
              events := .started template :: events ++ [.wrote path]
              written? := some (path, result) }

/-- Whether an event is shown. -/
def isShown (debug verbose : Bool) (event : Event) : Bool :=
  debug || (verbose && event.level == .info)

/-- What a run with some arguments leaves behind. With `debug` every event is told. -/
def run (files : Files) (debug : Bool) (arguments : List Text) : Outcome :=
  match Arguments.read? arguments with
  | none => { exit := 2, complaint := usage }
  | some a =>
    match a.inquiry?, a.operands with
    | some .version, _ => { exit := 0, output := version }
    | some .help, _ => { exit := 0, output := usage }
    | none, [template] =>
      let outcome := a.compile files (Path.normal template)
      { outcome with events := outcome.events.filter (isShown debug a.verbose) }
    | none, _ => { exit := 2, complaint := usage }

/-- The paths that a run reads. -/
def paths (arguments : List Text) : List Text :=
  match Arguments.read? arguments with
  | none => []
  | some a => (a.operands ++ a.config?.toList ++ a.locals?.toList).map Path.normal

end CommandLine

end MarkupTemplate
