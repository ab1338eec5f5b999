import MarkupTemplate.Text.Basic

/-!
# Arguments of the command line

An argument that starts with a dash is an option, unless it is the dash alone or stands behind two
dashes alone. Options with one letter can be written together behind one dash. A long option has its
value behind an equals sign or in the next argument. Of an option given twice the last value counts.
-/

namespace MarkupTemplate.CommandLine

/-- The options with a value. -/
inductive Setting where
  | config
  | format
  | locals
  | output
deriving DecidableEq, Repr

/-- A request that is answered before all others. -/
inductive Inquiry where
  | version
  | help
deriving DecidableEq, Repr

/-- The options without a value. -/
inductive Switch where
  | escapeHtml (on : Bool)
  | pretty (on : Bool)
  | source
  | tree
  | verbose
  | inquiry (inquiry : Inquiry)
deriving DecidableEq, Repr

/-- The arguments of a run. -/
structure Arguments where
  operands : List Text := []
  config? : Option Text := none
  format? : Option Text := none
  locals? : Option Text := none
  output? : Option Text := none
  escapeHtml? : Option Bool := none
  pretty? : Option Bool := none
  source : Bool := false
  tree : Bool := false
  verbose : Bool := false
  inquiry? : Option Inquiry := none
deriving DecidableEq, Repr

namespace Arguments

/-- Gives an option its value. -/
def set (a : Arguments) (setting : Setting) (v : Text) : Arguments :=
  match setting with
  | .config => { a with config? := some v }
  | .format => { a with format? := some v }
  | .locals => { a with locals? := some v }
  | .output => { a with output? := some v }

/-- Turns a switch. -/
def turn (a : Arguments) : Switch → Arguments
  | .escapeHtml on => { a with escapeHtml? := some on }
  | .pretty on => { a with pretty? := some on }
  | .source => { a with source := true }
  | .tree => { a with tree := true }
  | .verbose => { a with verbose := true }
  | .inquiry inquiry => { a with inquiry? := a.inquiry?.or (some inquiry) }

/-- Adds an argument that is no option. -/
def addOperand (a : Arguments) (v : Text) : Arguments :=
  { a with operands := a.operands ++ [v] }

end Arguments

/-- An option, with a value or without. -/
abbrev Flag := Setting ⊕ Switch

/-- The options with one letter. -/
def shortFlags : List (Char × Flag) :=
  [('c', .inl .config), ('l', .inl .locals), ('o', .inl .output), ('v', .inr .verbose)]

/-- The options with a long name. -/
def longFlags : List (Text × Flag) :=
  [("config", .inl .config), ("format", .inl .format),
   ("locals", .inl .locals), ("output", .inl .output),
   ("escape-html", .inr (.escapeHtml true)),
   ("no-escape-html", .inr (.escapeHtml false)),
   ("pretty", .inr (.pretty true)), ("no-pretty", .inr (.pretty false)),
   ("source", .inr .source), ("ir", .inr .tree),
   ("verbose", .inr .verbose), ("version", .inr (.inquiry .version)),
   ("help", .inr (.inquiry .help))]

namespace Arguments

/-- Reads the letters behind one dash; also tells which option still waits for its value. -/
def readShort (a : Arguments) : Text → Option (Arguments × Option Setting)
  | [] => some (a, none)
  | c :: rest =>
    match shortFlags.lookup c with
    | none => none
    | some (.inl setting) =>
      if rest.isEmpty then some (a, some setting) else some (a.set setting rest, none)
    | some (.inr switch) => readShort (a.turn switch) rest

/-- Reads a long option. -/
def readLong (a : Arguments) (t : Text) : Option (Arguments × Option Setting) :=
  match longFlags.lookup (t.takeWhile (· != '=')), t.dropWhile (· != '=') with
  | some (.inl setting), [] => some (a, some setting)
  | some (.inl setting), _ :: v => some (a.set setting v, none)
  | some (.inr switch), [] => some (a.turn switch, none)
  | _, _ => none

/-- Reads arguments behind those read so far. `waiting?` is the option that waits for its value, and
`ended` tells whether two dashes alone have ended the options. -/
def readFrom : (waiting? : Option Setting) → (ended : Bool) → Arguments → List Text →
    Option Arguments
  | none, _, a, [] => some a
  | some _, _, _, [] => none
  | some setting, ended, a, v :: rest => readFrom none ended (a.set setting v) rest
  | none, true, a, v :: rest => readFrom none true (a.addOperand v) rest
  | none, false, a, v :: rest =>
    match v with
    | ['-', '-'] => readFrom none true a rest
    | '-' :: '-' :: t =>
      match a.readLong t with
      | some (a, waiting?) => readFrom waiting? false a rest
      | none => none
    | '-' :: c :: t =>
      match a.readShort (c :: t) with
      | some (a, waiting?) => readFrom waiting? false a rest
      | none => none
    | v => readFrom none false (a.addOperand v) rest

/-- Reads the arguments of a run. -/
def read? (arguments : List Text) : Option Arguments :=
  readFrom none false {} arguments

end Arguments

end MarkupTemplate.CommandLine
