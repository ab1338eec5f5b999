import MarkupTemplate.Value.Basic

/-!
# YAML documents

Files with options and variables are written in a small part of YAML: one mapping of keys to
scalars, lists of scalars and mappings of scalars, with comments. A document may also be a single
scalar or list. A scalar without quotes is a truth value, nothing, or a number if it looks like one,
and a text otherwise.
-/

namespace MarkupTemplate.Yaml

/-! ## Scalars -/

/-- The words for values. -/
def words : List (Text × Value) :=
  [("yes", .bool true), ("no", .bool false), ("on", .bool true),
   ("off", .bool false), ("true", .bool true), ("false", .bool false),
   ("null", .none)]

/-- Whether a word is written in small letters, in capitals, or with one capital in front. -/
def hasWordCase (t : Text) : Bool :=
  t.all Char.isLower || t.all Char.isUpper
    || (t.head?.any Char.isUpper && (t.drop 1).all Char.isLower)

/-- Reads a number in octal. -/
def octal? (digits : Text) : Option Nat :=
  if digits.all fun c => '0' ≤ c && c ≤ '7' then
    some (digits.foldl (fun n c => 8 * n + (c.toNat - '0'.toNat)) 0)
  else none

/-- The number of some digits, perhaps with underscores, in base eight behind a zero. -/
def natural? (t : Text) : Option Nat :=
  match t with
  | [] => none
  | '0' :: digits => octal? (digits.filter (· != '_'))
  | c :: _ => if c.isDigit then Decimal.natOfDigits? (t.filter (· != '_')) else none

/-- Reads a whole number. -/
def integer? (t : Text) : Option Int :=
  match t with
  | '-' :: t => (natural? t).map fun n => -(n : Int)
  | '+' :: t => (natural? t).map fun n => (n : Int)
  | t => (natural? t).map fun n => (n : Int)

/-- A scalar without quotes. -/
def plain (t : Text) : Value :=
  if t.isEmpty || t = ['~'] then .none
  else
    match (if hasWordCase t then words.lookup (t.map Char.toLower) else none) with
    | some v => v
    | none =>
      match integer? t with
      | some n => .int n
      | none =>
        match Decimal.read? t with
        | some d => .decimal d
        | none => .text t

/-- Reads a scalar between quotes. -/
def quoted? (t : Text) : Option (Text × Text) :=
  match t with
  | [] => none
  | q :: rest =>
    if q = '\'' || q = '"' then
      match rest.dropWhile (· != q) with
      | _ :: after => some (rest.takeWhile (· != q), after)
      | [] => none
    else none

/-- Reads a scalar. -/
def scalar (t : Text) : Value :=
  let t := Text.trim t
  match quoted? t with
  | some (inside, rest) => if Text.allBlank rest then .text inside else plain t
  | none => plain t

/-! ## Lines -/

/-- A line without its comment. A comment starts with a number sign at the start or after a blank,
outside quotes; `quote?` is the quote that is open and `free` tells whether a comment may start. -/
def dropComment : (quote? : Option Char) → (free : Bool) → Text → Text
  | _, _, [] => []
  | some q, _, c :: t => c :: dropComment (if c = q then none else some q) false t
  | none, free, c :: t =>
    if c = '#' && free then []
    else if (c = '\'' || c = '"') && free then c :: dropComment (some c) false t
    else c :: dropComment none (Text.isBlank c || c = '[' || c = ',' || c = '\x7b') t

/-- The parts of a text between the commas outside quotes; `part` is the part under way. -/
def splitItems : (quote? : Option Char) → (part : Text) → Text → List Text
  | _, part, [] => [part]
  | some q, part, c :: t => splitItems (if c = q then none else some q) (part ++ [c]) t
  | none, part, c :: t =>
    if c = ',' then part :: splitItems none [] t
    else if c = '\'' || c = '"' then splitItems (some c) (part ++ [c]) t
    else splitItems none (part ++ [c]) t

/-- The items between the brackets of a list, without one missing behind the last comma. -/
def itemsBetween (inside : Text) : List Text :=
  let items := splitItems none [] inside
  if items.getLast?.any Text.allBlank then items.dropLast else items

/-- Divides a line into key and value at the first colon outside quotes that a blank or the end of
the line follows; `key` is the key so far. -/
def splitKey? : (quote? : Option Char) → (key : Text) → Text → Option (Text × Text)
  | _, _, [] => none
  | some q, key, c :: t => splitKey? (if c = q then none else some q) (key ++ [c]) t
  | none, key, c :: t =>
    if c = ':' && t.head?.all Text.isBlank then some (key, t)
    else if (c = '\'' || c = '"') && key.isEmpty then splitKey? (some c) [c] t
    else splitKey? none (key ++ [c]) t

/-- The entries of a mapping in one line. -/
def entriesBetween (inside : Text) : List (Text × Value) :=
  (itemsBetween inside).filterMap fun item =>
    (splitKey? none [] (Text.trim item)).map fun (key, v) => ((scalar key).toText, scalar v)

/-- What stands between two characters. -/
def between? (first last : Char) (t : Text) : Option Text :=
  match t with
  | c :: rest => if c = first && Text.endsWith last rest then some rest.dropLast else none
  | [] => none

/-- Reads a value in one line. -/
def inline (t : Text) : Value :=
  let t := Text.trim t
  match between? '[' ']' t with
  | some inside => .list ((itemsBetween inside).map scalar)
  | none =>
    match between? '\x7b' '\x7d' t with
    | some inside => .dict (entriesBetween inside)
    | none => scalar t

/-- The text of an item of a list. -/
def item? : Text → Option Text
  | ['-'] => some []
  | '-' :: ' ' :: t => some t
  | _ => none

/-! ## Documents -/

/-- What a document holds. -/
inductive Document where
  | value (v : Value)
  | mapping (entries : List (Value × Value))

/-- A line with its indentation and without its comment. -/
structure Line where
  indent : Nat
  text : Text

/-- The lines of a file that say something. -/
def linesOf (t : Text) : List Line :=
  (Text.split '\n' t).filterMap fun line =>
    let shown := Text.trimRight (dropComment none true line)
    if shown.isEmpty || shown = "---" then none
    else some ⟨(shown.takeWhile (· == ' ')).length, Text.trimLeft shown⟩

/-- The value of the lines nested below a key: a list, a mapping, or nothing. -/
def nested (lines : List Line) : Value :=
  match lines with
  | [] => .none
  | first :: _ =>
    if (item? first.text).isSome then
      .list (lines.filterMap fun l => (item? l.text).map scalar)
    else
      match splitKey? none [] first.text with
      | some _ =>
        .dict (lines.filterMap fun l =>
          (splitKey? none [] l.text).map fun (key, v) => ((scalar key).toText, inline v))
      | none => inline (Text.joinWith [' '] (lines.map (·.text)))

/-- Whether a line belongs to the one before. -/
def isNested (l : Line) : Bool :=
  0 < l.indent || (item? l.text).isSome

/-- The entries of a mapping. -/
def entries : List Line → List (Value × Value)
  | [] => []
  | l :: lines =>
    if isNested l then entries lines
    else
      match splitKey? none [] l.text with
      | some (key, v) =>
        let below := lines.takeWhile isNested
        (scalar key, if Text.allBlank v then nested below else inline v) :: entries lines
      | none => entries lines

/-- Reads a document. -/
def read (t : Text) : Document :=
  match linesOf t with
  | [] => .value .none
  | first :: lines =>
    if (item? first.text).isNone && (between? '\x7b' '\x7d' first.text).isNone
        && (splitKey? none [] first.text).isSome then
      .mapping (entries (first :: lines))
    else .value (nested (first :: lines))

/-- The entries of a document that is a mapping, or says nothing and counts as an empty one. -/
def Document.mapping? : Document → Option (List (Value × Value))
  | .mapping entries => some entries
  | .value (.dict entries) => some (entries.map fun (key, v) => (.text key, v))
  | .value v => if v.isTrue then none else some []

end MarkupTemplate.Yaml
