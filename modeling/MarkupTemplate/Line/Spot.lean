import MarkupTemplate.Text.Basic

/-!
# Places in a line

Reading a line moves a spot along it from left to right. A spot keeps both the part of the line
that has been read and the part that has not, so its line never changes while it moves and its
column is the length of the part read. An error is reported at a spot.

A `Scan` recognises something at the start of a text: it answers with what it found and with the
rest of the text.
-/

namespace MarkupTemplate

/-! ## Indentation

The indentation of a line is the column its first character after spaces and tabs stands in. A tab
goes to the next tab stop.
-/

namespace Indent

/-- The column after the spaces and tabs that come next, from column `col`. -/
def widthFrom (tab : Nat) : (col : Nat) → Text → Nat
  | col, ' ' :: t => widthFrom tab (col + 1) t
  | col, '\t' :: t => widthFrom tab (col + (tab - col % tab)) t
  | col, _ => col

/-- The indentation of a line with tab stops `tabSize` columns apart, or one if that is zero. -/
def width (tabSize : Nat) (line : Text) : Nat :=
  widthFrom (max tabSize 1) 0 line

/-- Whether tab stops can be `tabSize` columns apart. -/
def canExpand (tabSize : Nat) : Bool :=
  tabSize < 2147483648

/-- The indentation of a line, with tabs or without, if there can be such tab stops. -/
def measure? (tabSize : Nat) (line : Text) : Option Nat :=
  if canExpand tabSize then some (width tabSize line) else none

end Indent

/-! ## Places -/

/-- Recognises something at the start of a text; answers with it and with what follows. -/
abbrev Scan (α : Type) := Text → Option (α × Text)

/-- A place in a line. -/
structure Spot where
  number : Nat
  done : Text
  rest : Text
deriving DecidableEq, Repr

namespace Spot

/-- The start of a line. -/
def start (number : Nat) (line : Text) : Spot :=
  ⟨number, [], line⟩

/-- The line of a spot. -/
def line (s : Spot) : Text :=
  s.done ++ s.rest

/-- The column of a spot. -/
def column (s : Spot) : Nat :=
  s.done.length

/-- Moves over `n` characters, or to the end of the line if there are fewer. -/
def advance (s : Spot) (n : Nat) : Spot :=
  { s with done := s.done ++ s.rest.take n, rest := s.rest.drop n }

/-- Moves over blanks. -/
def skipBlanks (s : Spot) : Spot :=
  s.advance (s.rest.takeWhile Text.isBlank).length

/-- Whether only blanks are left. -/
def atEnd (s : Spot) : Bool :=
  Text.allBlank s.rest

/-- Moves over what a scan recognises. -/
def scan? {α : Type} (p : Scan α) (s : Spot) : Option (α × Spot) :=
  match p s.rest with
  | none => none
  | some (found, rest) => some (found, s.advance (s.rest.length - rest.length))

/-! ## Moving keeps the line -/

@[simp] theorem line_start (number : Nat) (line : Text) : (start number line).line = line := rfl

@[simp] theorem line_advance (s : Spot) (n : Nat) : (s.advance n).line = s.line := by
  simp [line, advance, List.append_assoc, List.take_append_drop]

@[simp] theorem number_advance (s : Spot) (n : Nat) : (s.advance n).number = s.number := rfl

@[simp] theorem rest_advance (s : Spot) (n : Nat) : (s.advance n).rest = s.rest.drop n := rfl

@[simp] theorem line_skipBlanks (s : Spot) : s.skipBlanks.line = s.line :=
  line_advance s _

theorem rest_length_of_scan? {α : Type} {p : Scan α} {s s' : Spot} {found : α}
    (shorter : ∀ t a r, p t = some (a, r) → r.length < t.length)
    (h : s.scan? p = some (found, s')) : s'.rest.length < s.rest.length := by
  unfold scan? at h
  split at h
  · nomatch h
  · next a r hp =>
    have := shorter _ _ _ hp
    simp only [Option.some.injEq, Prod.mk.injEq] at h
    obtain ⟨_, rfl⟩ := h
    simp only [rest_advance, List.length_drop]
    omega

end Spot

/-! ## Cursors

A cursor walks over the lines of a source. Before the first line and after the last one it stands in
no line: then there is nothing to read, and no scan succeeds.
-/

/-- A place in the lines of a source. -/
structure Cursor where
  tabSize : Nat
  number : Nat := 0
  spot? : Option Spot := none
  ahead : List Text
deriving DecidableEq, Repr

namespace Cursor

/-- A cursor in front of the first line. A tab width below one acts like one. -/
def ofLines (lines : List Text) (tabSize : Int) : Cursor :=
  { tabSize := (max tabSize 1).toNat, ahead := lines }

/-- Begins the next line, or leaves the last one; tells whether there was a next line. -/
def nextLine (c : Cursor) : Bool × Cursor :=
  match c.ahead with
  | [] => (false, { c with spot? := none })
  | line :: ahead =>
    (true, { c with number := c.number + 1, spot? := some (.start (c.number + 1) line), ahead })

/-- The next line. -/
def peek? (c : Cursor) : Option Text :=
  c.ahead.head?

/-- The line the cursor stands in. -/
def line? (c : Cursor) : Option Text :=
  c.spot?.map (·.line)

/-- The column the cursor stands in. -/
def column (c : Cursor) : Nat :=
  (c.spot?.map (·.column)).getD 0

/-- What is left of the line. -/
def rest (c : Cursor) : Text :=
  (c.spot?.map (·.rest)).getD []

/-- Whether only blanks are left. -/
def atEnd (c : Cursor) : Bool :=
  Text.allBlank c.rest

/-- Moves over some characters. -/
def advance (c : Cursor) (n : Nat) : Cursor :=
  { c with spot? := c.spot?.map (·.advance n) }

/-- Moves over blanks. -/
def skipBlanks (c : Cursor) : Cursor :=
  { c with spot? := c.spot?.map (·.skipBlanks) }

/-- Moves over what a scan recognises: answers with it and with the text that was moved over. -/
def scan? {α : Type} (p : Scan α) (c : Cursor) : Option (α × Text × Cursor) :=
  match c.spot? with
  | none => none
  | some s =>
    match s.scan? p with
    | none => none
    | some (found, s') =>
      some (found, s'.done.drop s.done.length, { c with spot? := some s' })

/-- The indentation of a line, if it can be measured. -/
def indentOf? (c : Cursor) (line : Text) : Option Nat :=
  Indent.measure? c.tabSize line

end Cursor

end MarkupTemplate
