import MarkupTemplate.Text.Quoted
import MarkupTemplate.Text.Word

/-!
# Expressions and statements of the host language

Programs are run in a small part of the language they are written in: names, numbers, strings,
constants, rich texts, lists and tuples, calls of helpers, negation, equality and membership;
assignments, and the headers of conditions and loops. This module reads them from their text.
-/

namespace MarkupTemplate.Host

open Text (isWord after? unquote? trim trimLeft)

/-- An expression. -/
inductive Expr where
  | name (n : Text)
  | number (n : Nat)
  | string (t : Text)
  | rich (t html : Text)
  | nothing
  | truth (b : Bool)
  | list (items : List Expr)
  | tuple (items : List Expr)
  | call (function : Text) (arguments : List Expr)
  | negate (e : Expr)
  | equals (a b : Expr)
  | member (a b : Expr)
deriving Repr, Inhabited

/-- A statement, or the header of some. -/
inductive Line where
  | assign (name : Text) (e : Expr)
  | ifTrue (e : Expr)
  | elseIf (e : Expr)
  | otherwise
  | loop (name : Text) (e : Expr)
  | skip
deriving Repr, Inhabited

/-! ## Reading expressions -/

/-- Leaves out blanks in front; line feeds count as blanks only between brackets. -/
def skipBlanks (bracketed : Bool) (t : Text) : Text :=
  t.dropWhile fun c => Text.isBlank c && (bracketed || c != '\n')

/-- What a name may start with. -/
def isNameStart (c : Char) : Bool :=
  isWord c && !c.isDigit

/-- Reads a name or a keyword. -/
def word? (t : Text) : Option (Text × Text) :=
  match t with
  | [] => none
  | c :: _ => if isNameStart c then some (t.takeWhile isWord, t.dropWhile isWord) else none

/-- Reads a number. -/
def number? (t : Text) : Option (Nat × Text) :=
  match t.takeWhile Char.isDigit with
  | [] => none
  | digits =>
    some (digits.foldl (fun n c => 10 * n + (c.toNat - '0'.toNat)) 0, t.dropWhile Char.isDigit)

/-- How an expression starts that makes a rich text; its markup follows. -/
def richFront : Text :=
  "type('H', (str,), \x7b'__html__': lambda h: "

/-- Reads a rich text: a class whose texts have some markup, called with the text. -/
def rich? (t : Text) : Option (Expr × Text) := do
  let t ← after? richFront t
  let (html, t) ← unquote? t
  let t ← after? "\x7d)(" t
  match ← unquote? t with
  | (text, ')' :: rest) => some (.rich text html, rest)
  | _ => none

mutual

/-- Reads an expression, in so many steps at most: the expression and what follows it. -/
def expr? : (steps : Nat) → (bracketed : Bool) → Text → Option (Expr × Text)
  | 0, _, _ => none
  | steps + 1, bracketed, t =>
    let t := skipBlanks bracketed t
    match word? t with
    | some (['n', 'o', 't'], rest) =>
      match expr? steps bracketed rest with
      | some (e, rest) => some (.negate e, rest)
      | none => none
    | _ =>
      match atom? steps bracketed t with
      | none => none
      | some (a, rest) => comparison? steps bracketed a rest

/-- Reads what is compared with an expression. -/
def comparison? : (steps : Nat) → (bracketed : Bool) → Expr → Text → Option (Expr × Text)
  | 0, _, _, _ => none
  | steps + 1, bracketed, a, t =>
    match skipBlanks bracketed t with
    | '=' :: '=' :: rest =>
      match atom? steps bracketed (skipBlanks bracketed rest) with
      | some (b, rest) => some (.equals a b, rest)
      | none => none
    | rest =>
      match word? rest with
      | some (['i', 'n'], rest) =>
        match atom? steps bracketed (skipBlanks bracketed rest) with
        | some (b, rest) => some (.member a b, rest)
        | none => none
      | _ => some (a, rest)

/-- Reads an expression without operators. -/
def atom? : (steps : Nat) → (bracketed : Bool) → Text → Option (Expr × Text)
  | 0, _, _ => none
  | steps + 1, _, t =>
    match t with
    | '[' :: rest =>
      match items? steps ']' rest with
      | some (items, _, rest) => some (.list items, rest)
      | none => none
    | '(' :: rest =>
      match items? steps ')' rest with
      | some ([e], false, rest) => some (e, rest)
      | some (items, _, rest) => some (.tuple items, rest)
      | none => none
    | _ =>
      match rich? t with
      | some found => some found
      | none =>
        match unquote? t with
        | some (s, rest) => some (.string s, rest)
        | none =>
          match number? t with
          | some (n, rest) => some (.number n, rest)
          | none =>
            match word? t with
            | none => none
            | some (name, '(' :: rest) =>
              match items? steps ')' rest with
              | some (arguments, _, rest) => some (.call name arguments, rest)
              | none => none
            | some (name, rest) =>
              if name = "None" then some (.nothing, rest)
              else if name = "True" then some (.truth true, rest)
              else if name = "False" then some (.truth false, rest)
              else some (.name name, rest)

/-- Reads expressions between commas up to a closing bracket: the expressions, whether a comma
stands behind the last one, and what follows the bracket. -/
def items? : (steps : Nat) → (close : Char) → Text → Option (List Expr × Bool × Text)
  | 0, _, _ => none
  | steps + 1, close, t =>
    match skipBlanks true t with
    | [] => none
    | c :: rest =>
      if c = close then some ([], false, rest)
      else
        match expr? steps true (c :: rest) with
        | none => none
        | some (e, rest) =>
          match skipBlanks true rest with
          | [] => none
          | d :: rest =>
            if d = close then some ([e], false, rest)
            else if d = ',' then
              match items? steps close rest with
              | some ([], _, rest) => some ([e], true, rest)
              | some (es, comma, rest) => some (e :: es, comma, rest)
              | none => none
            else none

end

/-- Reads an expression at the start of a text. -/
def readExpr? (t : Text) : Option (Expr × Text) :=
  expr? (2 * t.length + 2) false t

/-- Reads a text as an expression. -/
def wholeExpr? (t : Text) : Option Expr :=
  match expr? (2 * t.length + 2) true t with
  | some (e, rest) => if Text.allBlank rest then some e else none
  | none => none

/-! ## Reading statements -/

/-- Reads the expression of a header. -/
def headerExpr? (t : Text) : Option Expr :=
  match readExpr? t with
  | some (e, rest) => if trim rest = [':'] then some e else none
  | none => none

/-- Reads a header. -/
def header? (t : Text) : Option Line :=
  match word? (trimLeft t) with
  | some (['i', 'f'], rest) => (headerExpr? rest).map .ifTrue
  | some (['e', 'l', 'i', 'f'], rest) => (headerExpr? rest).map .elseIf
  | some (['e', 'l', 's', 'e'], rest) => if trim rest = [':'] then some .otherwise else none
  | some (['f', 'o', 'r'], rest) =>
    match word? (trimLeft rest) with
    | some (name, rest) =>
      match word? (trimLeft rest) with
      | some (['i', 'n'], rest) => (headerExpr? rest).map (.loop name)
      | _ => none
    | none => none
  | _ => none

/-- Reads a statement. -/
def simple? (t : Text) : Option (Line × Text) :=
  match word? t with
  | none => none
  | some (['p', 'a', 's', 's'], rest) => some (.skip, rest)
  | some (name, rest) =>
    match skipBlanks false rest with
    | '=' :: rest =>
      match readExpr? rest with
      | some (e, rest) => some (.assign name e, rest)
      | none => none
    | _ => none

/-- Reads statements that need none below them, one on each line, in so many steps at most. -/
def simplesFrom? : (steps : Nat) → Text → Option (List Line)
  | 0, _ => none
  | steps + 1, t =>
    match trimLeft t with
    | [] => some []
    | t =>
      match simple? t with
      | none => none
      | some (s, rest) =>
        match skipBlanks false rest with
        | [] => some [s]
        | '\n' :: rest => (simplesFrom? steps rest).map (s :: ·)
        | _ => none

/-- Reads statements, one on each line. -/
def simples? (t : Text) : Option (List Line) :=
  simplesFrom? (t.length + 1) t

end MarkupTemplate.Host
