import MarkupTemplate.Text.Word

/-!
# Emphasis

Emphasis is marked by runs of asterisks or of underscores. A run is read with what is on its two
sides: a blank, a part of a word, or a sign, which is everything else. A run may open emphasis if no
blank follows, and close it if none is in front, so many runs may do both. An underscore opens none
behind a part of a word and closes none in front of one.

The runs of a text are read from left to right with a stack of open runs.

* A run that may close is matched with the innermost open run that suits it. Open runs that are
  passed over become text.
* Two marks of each give strong emphasis and one gives emphasis, which is innermost if the two runs
  have an odd number of marks in common.
* Marks that a match leaves of a run are a run of their own. Those of a closing run close the next
  open run, and if there is none they open emphasis if they may.
* What is open at the end of the text is text.

A single asterisk and a pair do not suit each other if one of them is inside a word, so `*a**b*`
keeps `a**b` together. Still, an open single mark suits a pair that is not inside a word, and in
front of a blank a mark closes the innermost such pair if there is nothing else to close. A match
over the head of a run that did not suit has to start and end at the edge of a word. Where it would
end inside a word, the single mark closes the pair, and takes the character behind it for the
second mark.

A run of underscores that may both open and close suits a run of its own width only.
-/

namespace MarkupTemplate

/-! ## Pieces

`pieces` finds what nothing else in a text may look into: code between backticks, characters behind
a backslash, forced line breaks, entities and tags. Every other character is a piece of its own.
-/

namespace Markdown

/-! ## Pieces -/

/-- The markup of a character. -/
def entity (c : Char) : Text :=
  match c with
  | '&' => "&amp;"
  | '<' => "&lt;"
  | '>' => "&gt;"
  | c => [c]

/-- A part of a line: a character that is still to be looked at, or a finished piece of markup. -/
inductive Piece where
  | char (c : Char)
  | done (t : Text)
deriving DecidableEq, Repr

/-- The markup of a piece. -/
def Piece.text : Piece → Text
  | .char c => entity c
  | .done t => t

/-- Whether a piece is a character. -/
def Piece.isChar (c : Char) : Piece → Bool
  | .char d => c == d
  | .done _ => false

/-- The markup of pieces. -/
def textOf (pieces : List Piece) : Text :=
  pieces.flatMap Piece.text

/-- An element around some content. -/
def element (name content : Text) : Text :=
  "<" ++ name ++ ">" ++ content ++ "</" ++ name ++ ">"

/-! ## What nothing looks into -/

/-- What a backslash makes literal. -/
def escapable : Text :=
  "\\`*_\x7b\x7d[]()>#+-.!"

/-- Splits a text at the first run of exactly `n` backticks that follows something. -/
def closeCode? (n : Nat) : (content t : Text) → Option (Text × Text)
  | _, [] => none
  | content, c :: t =>
    if c = '`' && !content.isEmpty && content.getLast? != some '`'
        && ((c :: t).takeWhile (· == '`')).length == n then
      some (content, (c :: t).drop n)
    else closeCode? n (content ++ [c]) t

/-- The name of the entity behind an ampersand, with the semicolon, and what follows. -/
def entityName? (t : Text) : Option (Text × Text) :=
  let name := t.takeWhile (· != ';')
  let rest := t.dropWhile (· != ';')
  let isName := match name with
    | '#' :: 'x' :: digits =>
      !digits.isEmpty && digits.all fun c => c.isDigit || ('a' ≤ c.toLower && c.toLower ≤ 'f')
    | '#' :: digits => !digits.isEmpty && digits.all Char.isDigit
    | letters => !letters.isEmpty && letters.all Char.isAlphanum
  match rest with
  | ';' :: rest => if isName then some (name ++ [';'], rest) else none
  | _ => none

/-- Splits a text behind the end of a comment, before which neither end of a comment may stand. -/
def closeComment? : (content t : Text) → Option (Text × Text)
  | _, [] => none
  | content, c :: t =>
    if "-->".toList.isPrefixOf (c :: t) then some (content ++ "-->", (c :: t).drop 3)
    else if c = '\n' || "<!--".toList.isPrefixOf (c :: t) then none
    else closeComment? (content ++ [c]) t

/-- The inside of the tag a text starts with after its opening bracket, with the closing bracket,
and what follows. A tag is a letter, behind a slash or not, then characters other than blanks and
`@`, and then, behind a space, anything but brackets. -/
def tag? (t : Text) : Option (Text × Text) :=
  match Text.after? "!--" t with
  | some rest => (closeComment? [] rest).map fun (content, rest) => ("!--" ++ content, rest)
  | none =>
    let slash := t.takeWhile (· == '/')
    let inside := t.takeWhile fun c => c != '<' && c != '>'
    let name := (inside.drop slash.length).takeWhile (· != ' ')
    match name, t.dropWhile fun c => c != '<' && c != '>' with
    | c :: name, '>' :: rest =>
      if slash.length ≤ 1 && c.isAlpha && !name.contains '@' then some (inside ++ ['>'], rest)
      else none
    | _, _ => none

/-- Finds codes, escaped characters, forced line breaks, entities and tags. The first argument
bounds the number of steps. -/
def piecesFrom : (steps : Nat) → Text → List Piece
  | 0, t => t.map .char
  | _ + 1, [] => []
  | steps + 1, '`' :: t =>
    let n := (('`' :: t).takeWhile (· == '`')).length
    let after := ('`' :: t).drop n
    match closeCode? n [] after with
    | some (content, rest) =>
      .done (element "code" ((Text.trim content).flatMap entity)) :: piecesFrom steps rest
    | none => List.replicate n (.char '`') ++ piecesFrom steps after
  | steps + 1, '\\' :: c :: t =>
    if escapable.contains c then .done (entity c) :: piecesFrom steps t
    else .char '\\' :: piecesFrom steps (c :: t)
  | steps + 1, ' ' :: ' ' :: '\n' :: t => .done "<br />\n" :: piecesFrom steps t
  | steps + 1, '&' :: t =>
    match entityName? t with
    | some (name, rest) => .done ('&' :: name) :: piecesFrom steps rest
    | none => .char '&' :: piecesFrom steps t
  | steps + 1, '<' :: t =>
    match tag? t with
    | some (inside, rest) => .done ('<' :: inside) :: piecesFrom steps rest
    | none => .char '<' :: piecesFrom steps t
  | steps + 1, c :: t => .char c :: piecesFrom steps t

/-- The pieces of a text. -/
def pieces (t : Text) : List Piece :=
  piecesFrom t.length t

/-! ## Runs of marks -/

/-- What stands beside a run. -/
inductive Side where
  /-- A blank, or an end of the text. -/
  | blank
  | word
  | sign
deriving DecidableEq, Repr

/-- What a piece is beside a run. -/
def Piece.side : Piece → Side
  | .char c => if Text.isBlank c then .blank else if Text.isWord c && c != '_' then .word else .sign
  | .done _ => .sign

/-- A run of marks. -/
structure Run where
  width : Nat
  before : Side
  after : Side
deriving DecidableEq, Repr

namespace Run

/-- Whether a run stands inside a word. -/
def inWord (r : Run) : Bool :=
  r.before == .word && r.after == .word

/-- Whether a run may open emphasis. -/
def opens (mark : Char) (r : Run) : Bool :=
  r.after != .blank && (mark != '_' || r.before != .word)

/-- Whether a run may close emphasis. -/
def closes (mark : Char) (r : Run) : Bool :=
  r.before != .blank && (mark != '_' || r.after != .word)

/-- Whether one run is single and one a pair. -/
def isSingleAndPair (opening closing : Run) : Bool :=
  (opening.width == 1 && closing.width == 2) || (opening.width == 2 && closing.width == 1)

/-- Whether a run may open and close. -/
def isTwofold (mark : Char) (r : Run) : Bool :=
  r.opens mark && r.closes mark

/-- Whether two runs suit each other. -/
def suits (mark : Char) (opening closing : Run) : Bool :=
  if mark == '_' then
    opening.width == closing.width || !(opening.isTwofold mark || closing.isTwofold mark)
  else
    !(opening.isSingleAndPair closing
      && (closing.inWord || (opening.inWord && closing.width < opening.width)))

/-- Whether a match is at the edges of words. -/
def atEdges (opening closing : Run) : Bool :=
  opening.before != .word && closing.after != .word

end Run

/-- A piece, or a run of marks. -/
inductive Token where
  | plain (p : Piece)
  | marks (r : Run)
deriving DecidableEq, Repr

/-- A run of marks, unless there are none. -/
def runOf (width : Nat) (before after : Side) : List Token :=
  if width = 0 then [] else [.marks { width, before, after }]

/-- Tells runs of a mark apart; `width` marks are under way behind a side. -/
def tokensFrom (mark : Char) : (before : Side) → (width : Nat) → List Piece → List Token
  | before, width, [] => runOf width before .blank
  | before, width, p :: ps =>
    if p.isChar mark then tokensFrom mark before (width + 1) ps
    else runOf width before p.side ++ .plain p :: tokensFrom mark p.side 0 ps

/-! ## The stack of open runs -/

/-- An open run and what follows it. -/
structure Opened where
  /-- The marks of the run that are not used. -/
  run : Run
  content : List Piece
deriving DecidableEq, Repr

/-- What has been read of a text. -/
structure Reading where
  outside : List Piece := []
  /-- The open runs, innermost first. -/
  opened : List Opened := []
deriving DecidableEq, Repr

/-- An open run as text. -/
def Opened.asText (mark : Char) (o : Opened) : List Piece :=
  List.replicate o.run.width (.char mark) ++ o.content

/-- Open runs as text. -/
def asText (mark : Char) (opened : List Opened) : List Piece :=
  opened.reverse.flatMap (Opened.asText mark)

namespace Reading

/-- Adds pieces to the innermost run. -/
def add (ps : List Piece) (r : Reading) : Reading :=
  match r.opened with
  | [] => { r with outside := r.outside ++ ps }
  | o :: os => { r with opened := { o with content := o.content ++ ps } :: os }

/-- Closes the open run with a number of open runs inside it, by some of its marks. -/
def close (mark : Char) (write : List Piece → Text) (inside used : Nat) (r : Reading) : Reading :=
  match r.opened.drop inside with
  | [] => r
  | o :: os =>
    let content := o.content ++ asText mark (r.opened.take inside)
    let name := if used = 2 then "strong".toList else "em".toList
    let piece := Piece.done (element name (write content))
    if o.run.width ≤ used then add [piece] { r with opened := os }
    else
      let run := { o.run with width := o.run.width - used, after := .sign }
      { r with opened := { run, content := [piece] } :: os }

/-- All pieces, with open runs as text. -/
def toPieces (mark : Char) (r : Reading) : List Piece :=
  r.outside ++ asText mark r.opened

end Reading

/-! ## Matching -/

/-- The number of open runs inside the innermost one that suits a closing run. `passed` tells
whether a run that did not suit has been passed over. -/
def suitable? (mark : Char) (closing : Run) : (passed : Bool) → List Opened → Option Nat
  | _, [] => none
  | passed, o :: os =>
    if !o.run.suits mark closing then (suitable? mark closing true os).map (· + 1)
    else if passed && !o.run.atEdges closing then (suitable? mark closing passed os).map (· + 1)
    else some 0

/-- The open run that a run closes. -/
def partner? (mark : Char) (closing : Run) (opened : List Opened) : Option Nat :=
  match suitable? mark closing false opened with
  | some inside => some inside
  | none =>
    if mark == '*' && closing.after == .blank then
      opened.findIdx? fun o => !o.run.suits mark closing
    else none

/-- How many marks a match uses of two runs. If both have an odd number of marks in common, the odd
one comes first, and two at a time follow. -/
def usedMarks (opening closing : Nat) : Nat :=
  if min opening closing % 2 == 0 then 2 else 1

/-- Closes what a run can close, and gives what remains of it, in so many matches at most. -/
def closeAll (mark : Char) (write : List Piece → Text) :
    (steps : Nat) → (closing : Run) → Reading → Reading × Run
  | 0, closing, r => (r, closing)
  | steps + 1, closing, r =>
    match partner? mark closing r.opened with
    | none => (r, closing)
    | some inside =>
      let opening := ((r.opened.drop inside).head?.map (·.run.width)).getD 0
      let used := usedMarks opening closing.width
      let rest := { closing with width := closing.width - used, before := .sign }
      if rest.width = 0 then (r.close mark write inside used, rest)
      else closeAll mark write steps rest (r.close mark write inside used)

/-- Whether a single mark in a word closes a pair there, instead of an open run around the pair. -/
def closesPair (mark : Char) (closing : Run) (opened : List Opened) : Bool :=
  match opened with
  | [] => false
  | o :: os =>
    mark == '*' && closing.inWord && closing.width == 1 && o.run.inWord && o.run.width == 2
      && o.content.all (·.side != .blank) && os.any (·.run.suits mark closing)

/-- Matches the runs of a text. -/
def readTokens (mark : Char) (write : List Piece → Text) : List Token → Reading → Reading
  | [], r => r
  | .plain p :: ts, r => readTokens mark write ts (r.add [p])
  | .marks run :: ts, r =>
    let (r, run) := if run.closes mark then closeAll mark write run.width run r else (r, run)
    if run.width = 0 then readTokens mark write ts r
    else if closesPair mark run r.opened then
      match ts with
      | [] => r.close mark write 0 2
      | _ :: ts => readTokens mark write ts (r.close mark write 0 2)
    else if run.opens mark then
      readTokens mark write ts { r with opened := { run, content := [] } :: r.opened }
    else readTokens mark write ts (r.add (List.replicate run.width (.char mark)))

/-- Marks emphasis by a mark; `write` finishes what is inside it. -/
def emphasized (mark : Char) (write : List Piece → Text) (ps : List Piece) : List Piece :=
  (readTokens mark write (tokensFrom mark .blank 0 ps) {}).toPieces mark

/-- Emphasis by underscores. -/
def underscores (ps : List Piece) : List Piece :=
  emphasized '_' textOf ps

/-- Emphasis by asterisks. -/
def stars (ps : List Piece) : List Piece :=
  emphasized '*' (fun ps => textOf (underscores ps)) ps

/-- The markup of a text in a block. -/
def inline (t : Text) : Text :=
  textOf (underscores (stars (pieces t)))

end Markdown

end MarkupTemplate
