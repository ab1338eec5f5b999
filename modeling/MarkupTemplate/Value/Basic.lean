import MarkupTemplate.Text.Quoted

/-!
# Values

Options, the variables of a template and the results of its code are values of one type: nothing,
truth values, whole and decimal numbers, texts, markup, rich texts, lists, tuples and dictionaries.
Markup is text that is already fit to stand in a document, so it is never escaped. A rich text
brings the markup along that stands for it in a document. In all other respects both are texts.
-/

namespace MarkupTemplate

/-! ## Decimal numbers -/

/-- A decimal number: `digits` divided by ten to the power of `places`, perhaps negated. The last
of the decimal places is never zero. -/
structure Decimal where
  negative : Bool
  digits : Nat
  places : Nat
deriving DecidableEq, Repr

namespace Decimal

/-- Leaves out zeros at the end of the decimal places. -/
def reduce (negative : Bool) : (digits places : Nat) → Decimal
  | digits, 0 => ⟨negative, digits, 0⟩
  | digits, places + 1 =>
    if digits % 10 = 0 then reduce negative (digits / 10) places
    else ⟨negative, digits, places + 1⟩

/-- The number with some digits. -/
def natOfDigits? (t : Text) : Option Nat :=
  t.foldl (fun n? c => n?.bind fun n =>
    if c.isDigit then some (10 * n + (c.toNat - '0'.toNat)) else none) (some 0)

/-- Reads a decimal number. -/
def read? (t : Text) : Option Decimal :=
  let (negative, t) := match t with
    | '-' :: t => (true, t)
    | t => (false, t)
  match Text.split '.' t with
  | [whole, fraction] =>
    match natOfDigits? (whole ++ fraction) with
    | some digits => if whole.isEmpty then none else some (reduce negative digits fraction.length)
    | none => none
  | _ => none

/-- Whether a number is zero. -/
def isZero (d : Decimal) : Bool :=
  d.digits == 0

/-- The whole number, if it is one. -/
def toInt? (d : Decimal) : Option Int :=
  if d.places = 0 then some (if d.negative then -(d.digits : Int) else d.digits) else none

/-- Whether two numbers are equal; the sign of zero does not count. -/
def equal (a b : Decimal) : Bool :=
  a == b || (a.isZero && b.isZero)

/-- The number with at least one digit on each side of the point. -/
def text (d : Decimal) : Text :=
  let digits := Text.ofNat d.digits
  let padded := List.replicate (d.places + 1 - digits.length) '0' ++ digits
  (if d.negative then ['-'] else []) ++ padded.take (padded.length - d.places) ++ ['.']
    ++ (if d.places = 0 then ['0'] else padded.drop (padded.length - d.places))

end Decimal

/-! ## Values -/

/-- The values of programs and options. -/
inductive Value where
  | none
  | bool (b : Bool)
  | int (n : Int)
  | decimal (d : Decimal)
  | text (t : Text)
  | markup (t : Text)
  | rich (t html : Text)
  | list (items : List Value)
  | tuple (items : List Value)
  | dict (entries : List (Text × Value))
deriving Repr, Inhabited

namespace Value

/-! ## Text of a value -/

mutual

/-- A value as it is shown inside a list. -/
def describe : Value → Text
  | .none => "None"
  | .bool true => "True"
  | .bool false => "False"
  | .int n => Text.ofInt n
  | .decimal d => d.text
  | .text t => Text.quote t
  | .markup t => "Markup(" ++ Text.quote t ++ ")"
  | .rich t _ => Text.quote t
  | .list items => "[" ++ Text.joinWith ", " (describeAll items) ++ "]"
  | .tuple [item] => "(" ++ describe item ++ ",)"
  | .tuple items => "(" ++ Text.joinWith ", " (describeAll items) ++ ")"
  | .dict entries =>
    "\x7b" ++ Text.joinWith ", " (describeEntries entries) ++ "\x7d"

/-- Describes values. -/
def describeAll : List Value → List Text
  | [] => []
  | v :: vs => describe v :: describeAll vs

/-- Describes the entries of a dictionary. -/
def describeEntries : List (Text × Value) → List Text
  | [] => []
  | (key, v) :: entries =>
    (Text.quote key ++ ": " ++ describe v) :: describeEntries entries

end

/-- A value as it is shown by itself. -/
def toText : Value → Text
  | .text t => t
  | .markup t => t
  | .rich t _ => t
  | v => v.describe

/-! ## Truth and equality -/

/-- Whether a value counts as true: nothing, zero and what is empty do not. -/
def isTrue : Value → Bool
  | .none => false
  | .bool b => b
  | .int n => n != 0
  | .decimal d => !d.isZero
  | .text t => !t.isEmpty
  | .markup t => !t.isEmpty
  | .rich t _ => !t.isEmpty
  | .list items => !items.isEmpty
  | .tuple items => !items.isEmpty
  | .dict entries => !entries.isEmpty

/-- The number that a value is. -/
def asNumber? : Value → Option Decimal
  | .bool b => some ⟨false, if b then 1 else 0, 0⟩
  | .int n => some ⟨n < 0, n.natAbs, 0⟩
  | .decimal d => some d
  | _ => Option.none

/-- The text that a value is. -/
def asText? : Value → Option Text
  | .text t => some t
  | .markup t => some t
  | .rich t _ => some t
  | _ => Option.none

mutual

/-- Whether two values are equal. Numbers are compared by size and texts by their characters;
values of other different types are unequal. -/
def equal : Value → Value → Bool
  | .none, .none => true
  | .list as, .list bs => equalAll as bs
  | .tuple as, .tuple bs => equalAll as bs
  | .dict as, .dict bs => as.length == bs.length && coveredBy as bs
  | a, b =>
    match a.asNumber?, b.asNumber? with
    | some m, some n => m.equal n
    | _, _ =>
      match a.asText?, b.asText? with
      | some s, some t => s == t
      | _, _ => false

/-- Whether lists of values are equal. -/
def equalAll : List Value → List Value → Bool
  | [], [] => true
  | a :: as, b :: bs => equal a b && equalAll as bs
  | _, _ => false

/-- Whether entries are among others. -/
def coveredBy : List (Text × Value) → List (Text × Value) → Bool
  | [], _ => true
  | (key, a) :: as, bs =>
    match bs.lookup key with
    | some b => equal a b && coveredBy as bs
    | Option.none => false

end

/-- The values a loop over a value goes through, if there can be such a loop: the items of a list
or tuple, the characters of a text, the keys of a dictionary. -/
def items? : Value → Option (List Value)
  | .list items => some items
  | .tuple items => some items
  | .text t => some (t.map fun c => .text [c])
  | .markup t => some (t.map fun c => .text [c])
  | .rich t _ => some (t.map fun c => .text [c])
  | .dict entries => some (entries.map fun entry => .text entry.1)
  | .none | .bool _ | .int _ | .decimal _ => Option.none

/-! ## Values in the output

Nothing is put out as an empty text. Escaping leaves markup alone, takes the markup that a rich text
brings along, and makes markup of everything else. The values of an attribute are joined after lists
have been opened and values that say nothing left out.
-/

/-- What is put out for a value. -/
def outputText : Value → Text
  | .none => []
  | v => v.toText

/-- The text of a value that is taken for markup. -/
def markupText : Value → Text
  | .rich _ html => html
  | v => v.toText

/-- The markup that stands for a value. -/
def escapedText : Value → Text
  | .markup t => t
  | .rich _ html => html
  | v => Text.escape v.toText

/-- The same with escaping. -/
def escapedOutput : Value → Text
  | .none => []
  | v => v.escapedText

/-! ## Attribute values -/

mutual

/-- The values of a value, with lists and tuples opened. -/
def leaves : Value → List Value
  | .list items => leavesOf items
  | .tuple items => leavesOf items
  | v => [v]

/-- The values of several values. -/
def leavesOf : List Value → List Value
  | [] => []
  | v :: vs => leaves v ++ leavesOf vs

end

/-- Whether a value says something. -/
def countsInAttr : Value → Bool
  | .none => false
  | .bool false => false
  | v => !v.outputText.isEmpty

/-- The values of an attribute, joined. -/
def joinAttr (delimiter : Value) (values : List Value) : Text :=
  Text.joinWith delimiter.escapedText
    (((leavesOf values).filter countsInAttr).map escapedText)

end Value

end MarkupTemplate
