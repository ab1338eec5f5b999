/-!
# Text

Every text the library reads or writes is a list of characters, so positions, columns and lengths
count characters. A class of characters is given by ranges of code points.
-/

namespace MarkupTemplate

/-- A list of characters. -/
abbrev Text := List Char

/-- Equality of texts is the one that decides. -/
instance : LawfulBEq Text := inferInstance

/-- A string stands for the text of its characters. -/
instance : Coe String Text := ⟨String.toList⟩

namespace Text

/-! ## Taking a text apart -/

/-- What follows `start` in a text that begins with it. -/
def after? : (start t : Text) → Option Text
  | [], t => some t
  | _ :: _, [] => none
  | a :: start, b :: t => if a = b then after? start t else none

/-- A text in front of a mark and behind it. -/
def cut? (mark : Text) : Text → Option (Text × Text)
  | [] => (after? mark []).map fun rest => ([], rest)
  | c :: t =>
    match after? mark (c :: t) with
    | some rest => some ([], rest)
    | none => (cut? mark t).map fun (head, rest) => (c :: head, rest)

/-- The parts of a text between the occurrences of a character, the outermost parts included. -/
def split (sep : Char) : Text → List Text
  | [] => [[]]
  | c :: t =>
    if c = sep then [] :: split sep t
    else match split sep t with
      | [] => [[c]]
      | part :: parts => (c :: part) :: parts

theorem split_ne_nil (sep : Char) (t : Text) : split sep t ≠ [] := by
  cases t with
  | nil => simp [split]
  | cons c t =>
    simp only [split]
    split
    · simp
    · split
      · simp
      · simp

/-- Whether a text ends in a character. -/
def endsWith (c : Char) (t : Text) : Bool :=
  t.getLast? == some c

/-! ## Building a text -/

/-- A number of spaces. -/
def spaces (n : Nat) : Text :=
  List.replicate n ' '

/-- Texts with another between them. -/
def joinWith (sep : Text) : List Text → Text
  | [] => []
  | [part] => part
  | part :: parts => part ++ sep ++ joinWith sep parts

/-- The digits of a number. -/
def ofNat (n : Nat) : Text :=
  Nat.toDigits 10 n

/-- The digits of a number with its sign. -/
def ofInt : Int → Text
  | .ofNat n => ofNat n
  | .negSucc n => '-' :: ofNat (n + 1)

/-- Whether a text comes before another or equals it, compared by code points from the left. -/
def le : Text → Text → Bool
  | [], _ => true
  | _ :: _, [] => false
  | a :: s, b :: t => if a = b then le s t else a.toNat < b.toNat

/-! ## Classes of characters -/

/-- A class of characters given by the first and last code points of its runs. -/
abbrev CodeRanges := List (Nat × Nat)

/-- The class given by the lengths of its runs: from the code point `start` on, so many that are
not in the class, then so many that are, and so on in turn. -/
def CodeRanges.ofRuns : (start : Nat) → List Nat → CodeRanges
  | start, out :: held :: runs =>
    (start + out, start + out + held - 1) :: ofRuns (start + out + held) runs
  | _, _ => []

/-- Whether a character is in a class. -/
def CodeRanges.has (ranges : CodeRanges) (c : Char) : Bool :=
  ranges.any fun (first, last) => first ≤ c.toNat && c.toNat ≤ last

/-! ## Blank characters

Blanks are the ASCII controls that move the print position, the four information separators, and the
spaces and line ends of Unicode. Only spaces and tabs count towards indentation.
-/

/-- The blank characters. -/
def blankRanges : CodeRanges :=
  [(0x9, 0xD), (0x1C, 0x20), (0x85, 0x85), (0xA0, 0xA0), (0x1680, 0x1680), (0x2000, 0x200A),
   (0x2028, 0x2029), (0x202F, 0x202F), (0x205F, 0x205F), (0x3000, 0x3000)]

/-- A space, a tab, a line end or another separator without ink. -/
def isBlank (c : Char) : Bool :=
  blankRanges.has c

/-- Whether a text has no ink. -/
def allBlank (t : Text) : Bool :=
  t.all isBlank

/-- A text without blanks at its start. -/
def trimLeft (t : Text) : Text :=
  t.dropWhile isBlank

/-- A text without blanks at its end. -/
def trimRight : Text → Text
  | [] => []
  | c :: t =>
    match trimRight t with
    | [] => if isBlank c then [] else [c]
    | rest => c :: rest

/-- A text without blanks at its ends. -/
def trim (t : Text) : Text :=
  trimRight (trimLeft t)

/-- The longest parts of a text without blanks; `word` holds the part under way. -/
def wordsFrom (word : Text) : Text → List Text
  | [] => if word = [] then [] else [word]
  | c :: t =>
    if isBlank c then (if word = [] then [] else [word]) ++ wordsFrom [] t
    else wordsFrom (word ++ [c]) t

/-- The parts of a text between blanks. -/
def words (t : Text) : List Text :=
  wordsFrom [] t

/-! ## Character entities

Text becomes harmless inside markup and quoted values once the five characters that markup gives a
meaning are written as entities.
-/

/-- A character in markup. -/
def entity (c : Char) : Text :=
  match c with
  | '&' => "&amp;"
  | '<' => "&lt;"
  | '>' => "&gt;"
  | '\'' => "&#39;"
  | '"' => "&#34;"
  | c => [c]

/-- A text with the five special characters written as entities. -/
def escape (t : Text) : Text :=
  t.flatMap entity

end Text

end MarkupTemplate
