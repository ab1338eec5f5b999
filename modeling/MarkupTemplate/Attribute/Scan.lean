import MarkupTemplate.Line.Scan
import MarkupTemplate.Text.Word

/-!
# Reading attributes from a line

A tag may be followed by shortcuts, and then by a list of attributes in one of two notations:

* the markup notation, `(name="text" name=code name)`;
* the host notation, `{:name => value, "name" => value, name: value}`.

This module recognises the parts of both: names and keys, quoted texts and codes. A quoted text
ends at its quote, except inside interpolated code; a code ends at a terminator that stands outside
brackets and quotes.
-/

namespace MarkupTemplate.Attribute

/-! ## Names and keys -/

/-- A sign and the name behind it. -/
def shortcut : Scan (Char × Text) :=
  Scan.andThen (Scan.char fun c => c == '.' || c == '#') (Scan.run Text.isShortcutChar)

/-- The name of an attribute. -/
def name : Scan Text :=
  Scan.run Text.isNameChar

/-- A sign with blanks around it. -/
def sign (mark : Text) : Scan Unit :=
  Scan.map (fun _ => ())
    (Scan.andThen Scan.blanks (Scan.andThen (Scan.exactly mark) Scan.blanks))

/-- A name and an equal sign. -/
def assigned : Scan Text :=
  Scan.map (fun found => found.1) (Scan.andThen name (sign "="))

/-- A quote of either kind. -/
def anyQuote : Scan Char :=
  Scan.char fun c => c == '"' || c == '\''

/-- A name, an equal sign and a quote. -/
def assignedQuote : Scan (Text × Char) :=
  Scan.andThen assigned anyQuote

/-- A key such as `:name =>`. -/
def symbolKey : Scan Text :=
  Scan.map (fun found => found.2.1)
    (Scan.andThen (Scan.exactly ":") (Scan.andThen name (sign "=>")))

/-- What may stand behind a quoted key. -/
def arrowOrColon : Scan Unit :=
  Scan.orElse (sign "=>") (sign ":")

/-- The text up to a quote. -/
def upToQuote (quote : Char) : Scan Text := fun t =>
  match t.dropWhile (· != quote) with
  | [] => none
  | _ :: rest => some (t.takeWhile (· != quote), rest)

/-- A key between quotes. -/
def quotedKey (quote : Char) : Scan Text :=
  Scan.map (fun found => found.2.1)
    (Scan.andThen (Scan.exactly [quote]) (Scan.andThen (upToQuote quote) arrowOrColon))

/-- A key such as `name: `, where blanks have to follow the colon. A name may itself hold colons;
the one in front of the blanks is not part of it. -/
def colonKey : Scan Text := fun t =>
  match name t with
  | none => none
  | some (found, rest) =>
    if 2 ≤ found.length && Text.endsWith ':' found && (rest.head?.any Text.isBlank) then
      some (found.dropLast, Text.trimLeft rest)
    else none

/-- A name with an arrow behind it. -/
def arrowKey : Scan Text :=
  Scan.map (fun found => found.1) (Scan.andThen name (sign "=>"))

/-- The notations of a key, in the order in which they are tried. -/
def keyForms : List (Scan Text) :=
  [symbolKey, quotedKey '"', quotedKey '\'', colonKey, arrowKey]

/-- A key of the host notation. -/
def key : Scan Text := fun t =>
  keyForms.findSome? (· t)

/-! ## Values -/

/-- Reads the text up to the closing quote, `depth` braces deep in interpolated code: the text and
what follows the quote. A backslash takes the next character with it. -/
def quoted? (quote : Char) : (depth : Nat) → Text → Option (Text × Text)
  | _, [] => none
  | depth, '\\' :: c :: t =>
    (quoted? quote depth t).map fun (text, rest) => ('\\' :: c :: text, rest)
  | 0, '#' :: '\x7b' :: t =>
    (quoted? quote 1 t).map fun (text, rest) => ('#' :: '\x7b' :: text, rest)
  | 0, c :: t =>
    if c = quote then some ([], t)
    else (quoted? quote 0 t).map fun (text, rest) => (c :: text, rest)
  | depth + 1, c :: t =>
    let depth' := if c = '\x7b' then depth + 2 else if c = '\x7d' then depth else depth + 1
    (quoted? quote depth' t).map fun (text, rest) => (c :: text, rest)

/-- The bracket that closes another. -/
def closer? : Char → Option Char
  | '(' => some ')'
  | '[' => some ']'
  | '\x7b' => some '\x7d'
  | _ => none

/-- What is open in a code. -/
structure CodeState where
  /-- The closing brackets that are expected, innermost first. -/
  brackets : List Char := []
  quote? : Option Char := none
  /-- Whether the next character stands after a backslash between quotes. -/
  escaped : Bool := false
deriving DecidableEq, Repr

namespace CodeState

/-- Goes over one character of a code. -/
def step (s : CodeState) (c : Char) : CodeState :=
  match s.quote? with
  | some quote =>
    if s.escaped then { s with escaped := false }
    else if c = '\\' then { s with escaped := true }
    else if c = quote then { s with quote? := none }
    else s
  | none =>
    if c = '"' || c = '\'' then { s with quote? := some c }
    else match closer? c with
      | some close => { s with brackets := close :: s.brackets }
      | none => if s.brackets.head? = some c then { s with brackets := s.brackets.tail } else s

/-- Whether nothing is open. -/
def isOutside (s : CodeState) : Bool :=
  s.brackets.isEmpty && s.quote?.isNone

/-- What has to be closed next: the innermost bracket, or else the quote. -/
def expected? (s : CodeState) : Option Char :=
  s.brackets.head?.or s.quote?

end CodeState

/-- Reads code up to a terminator outside brackets and quotes, or to the end of the text: the code
and what follows it. If something is still open at the end, answers with what should close it. -/
def code (isTerminator : Char → Bool) : CodeState → Text → Except Char (Text × Text)
  | s, [] =>
    match s.expected? with
    | some close => .error close
    | none => .ok ([], [])
  | s, c :: t =>
    if s.isOutside && isTerminator c then .ok ([], c :: t)
    else (code isTerminator (s.step c) t).map fun (text, rest) => (c :: text, rest)

end MarkupTemplate.Attribute
