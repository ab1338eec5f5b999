import MarkupTemplate.Desk
import MarkupTemplate.Program.Run

/-!
# Sessions

A session holds registries of engines, compilers and compiled templates under names. A compiler
looks engines up in a registry of the session, or among the built-in ones if it was given none. A
copy of a registry does not share later changes with it. The registries have numbers, and names
stand for numbers, so a compiler keeps its registry also when the name is given to another one.

A session is given what renders Markdown and the host that runs programs.
-/

namespace MarkupTemplate

open Embedded (Registry Cache Engine)

/-- A compiled template. -/
structure Template where
  program : Program
  label : Text

/-- The output of a template on a host. -/
def Template.render (t : Template) (host : Interpretation) (context : Value)
    (locals more : List (Text × Value)) : Except Error Text :=
  match t.program.run host (Program.startEnv context locals more) with
  | .ok (_, output) => .ok output
  | .error e => .error (.run e)

namespace Session

/-- What a new registry holds at first. -/
inductive Origin where
  | builtin
  | empty
  | copy (registry : Text)
deriving DecidableEq, Repr

/-- Something that is asked of a session. -/
inductive Command where
  | makeRegistry (id : Text) (origin : Origin)
  | register (registry name : Text) (engine : Engine)
  | contains (registry name : Text)
  | create (registry name : Text)
  /-- Makes a compiler, perhaps from the options of another. -/
  | makeCompiler (id : Text) (home? base? : Option Text) (given : Options.Given)
  | enabled (compiler name : Text)
  | options (compiler : Text)
  | transform (compiler : Text) (source : Source)
  | generate (compiler : Text) (source : Source)
  | compile (compiler id : Text) (source : Source)
  | render (template : Text) (context : Value) (locals more : List (Text × Value))

/-- What a session answers. -/
inductive Reply where
  | names (names : List Text)
  | contains (found : Bool)
  | engine (engine : Engine)
  | passes (passes : List Pass)
  | enabled (allowed : Bool)
  | options (options : Options)
  | tree (tree : Node)
  | program (program : Program)
  | template (template : Template)
  | output (text : Text)
  | error (error : Error)
  | missing

/-- What a session is given from outside. -/
structure Setting where
  /-- What renders Markdown for the built-in engines. -/
  markdown : Embedded.Renderer
  host : Interpretation
  /-- What a pass leaves on the desk of a compiler if it fails in some template. -/
  left : Compiler → Registry → Source → Desk

end Session

/-- What there is in a session. -/
structure Session where
  /-- The registries in the order of their numbers. -/
  shelf : List Registry := []
  registries : List (Text × Nat) := []
  compilers : List (Text × Compiler) := []
  templates : List (Text × Template) := []

namespace Session

/-- Puts a thing under a name, in the place of what was there. -/
def put {α : Type} (name : Text) (thing : α) : List (Text × α) → List (Text × α)
  | [] => [(name, thing)]
  | (key, old) :: rest =>
    if key = name then (name, thing) :: rest else (key, old) :: put name thing rest

/-- The registry with a number. -/
def registryAt (s : Session) (i : Nat) : Registry :=
  s.shelf[i]?.getD []

/-- What a new registry holds at first, if the registry to copy is there. -/
def origin? (w : Setting) (s : Session) : Origin → Option Registry
  | .builtin => some (Registry.builtin w.markdown)
  | .empty => some []
  | .copy name => (s.registries.lookup name).map s.registryAt

/-- The registry that a compiler looks engines up in. -/
def registryOf (w : Setting) (s : Session) (c : Compiler) : Registry :=
  c.home?.elim (Registry.builtin w.markdown) s.registryAt

/-- What a name that may be left out stands for; nothing if it stands for nothing. -/
def resolve {α : Type} (name? : Option Text) (things : List (Text × α)) : Option (Option α) :=
  match name? with
  | none => some none
  | some name => (things.lookup name).map some

/-- Asks the thing under a name; nothing changes. -/
def asking {α : Type} (s : Session) (name : Text) (things : List (Text × α))
    (answer : α → Reply) : Reply × Session :=
  match things.lookup name with
  | none => (.missing, s)
  | some a => (answer a, s)

/-- The options of a new compiler. -/
def newOptions (base? : Option Options) (given : Options.Given) : Except Error Options :=
  let built := match base? with
    | none => Options.build given
    | some base => if given.isEmpty then .ok base else base.merged given
  match built with
  | .ok o => .ok o
  | .error faults => .error (.options faults)

/-- Has the compiler under a name work on a template. -/
def working {α : Type} (w : Setting) (s : Session) (name : Text) (source : Source)
    (work : Compiler → Registry → (left : Desk) → Except Error α × Compiler)
    (answer : α → Session → Reply × Session) : Reply × Session :=
  match s.compilers.lookup name with
  | none => (.missing, s)
  | some c =>
    let r := s.registryOf w c
    let (result, after) := work c r (w.left c r source)
    let s := { s with compilers := put name after s.compilers }
    match result with
    | .ok a => answer a s
    | .error e => (.error e, s)

/-- Carries out a command: the answer, and the session after it. -/
def step (w : Setting) (s : Session) : Command → Reply × Session
  | .makeRegistry id origin =>
    match s.origin? w origin with
    | none => (.missing, s)
    | some r =>
      (.names r.names,
        { s with shelf := s.shelf ++ [r], registries := put id s.shelf.length s.registries })
  | .register name engineName engine =>
    match s.registries.lookup name with
    | none => (.missing, s)
    | some i =>
      let r := (s.registryAt i).register engineName engine
      (.names r.names, { s with shelf := s.shelf.set i r })
  | .contains name engineName =>
    s.asking name s.registries fun i => .contains ((s.registryAt i).find? engineName).isSome
  | .create name engineName =>
    s.asking name s.registries fun i =>
      match (s.registryAt i).find? engineName with
      | some engine => .engine engine
      | none => .error (.step (.engineNotFound engineName))
  | .makeCompiler id home? base? given =>
    match resolve home? s.registries, resolve base? s.compilers with
    | some home?, some base? =>
      match newOptions (base?.map (·.options)) given with
      | .error e => (.error e, s)
      | .ok options =>
        (.passes (Pass.all options),
          { s with compilers := put id { options, home? } s.compilers })
    | _, _ => (.missing, s)
  | .enabled name engineName =>
    s.asking name s.compilers fun c => .enabled (Embedded.enabled c.options engineName)
  | .options name => s.asking name s.compilers fun c => .options c.options
  | .transform name source =>
    s.working w name source (fun c r left => c.transform r left source) fun n s => (.tree n, s)
  | .generate name source =>
    s.working w name source (fun c r left => c.generate r left source) fun p s => (.program p, s)
  | .compile name id source =>
    s.working w name source
      (fun c r left =>
        let (result, after) := c.generate r left source
        (result.map fun program => (⟨program, c.options.label⟩ : Template), after))
      fun t s => (.template t, { s with templates := put id t s.templates })
  | .render name context locals more =>
    s.asking name s.templates fun t =>
      match t.render w.host context locals more with
      | .ok output => .output output
      | .error e => .error e

/-- The answers to some commands, one after another. -/
def run (w : Setting) : Session → List Command → List Reply
  | _, [] => []
  | s, command :: commands =>
    let (reply, s) := s.step w command
    reply :: run w s commands

end Session

end MarkupTemplate
