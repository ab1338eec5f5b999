import Mathlib.Data.List.DropRight
import MarkupTemplate.Proofs.Attribute.Apart
import MarkupTemplate.Proofs.Attribute.Values
import MarkupTemplate.Proofs.Source

/-!
# Lists that are read back

`write` writes attributes as a list, in either notation, with any gaps between them, and reading
gives them back (`read_write`). What may follow a value is what lets it end in its line (`LetsEnd`).
The gaps of a list may have line breaks, but it is read line by line. So reading is followed over
the text that is left of the list and behind it (`readOn`).
-/

namespace MarkupTemplate

open List
open Text (isBlank allBlank trim trimRight trimLeft)
open Spot (scan?_append advance scan?_none atEnd scan?)

/-! ## Texts of several lines -/

namespace Text

def firstLine (t : Text) : Text :=
  t.takeWhile (· != '\n')

def otherLines (t : Text) : List Text :=
  (split '\n' t).tail

/-- What stands in its line in front of the end of a text that starts behind `done`. -/
def behind (done t : Text) : Text :=
  t.foldl (fun done c => if c = '\n' then [] else done ++ [c]) done

theorem firstLine_append {s : Text} (oneLine : '\n' ∉ s) (t : Text) :
    firstLine (s ++ t) = s ++ firstLine t := by
  refine takeWhile_append_of_pos fun c mem => ?_
  rw [bne_iff_ne]
  rintro rfl
  exact oneLine mem

theorem split_eq (t : Text) : split '\n' t = firstLine t :: otherLines t := by
  induction t with
  | nil => rfl
  | cons c t ih =>
    by_cases same : c = '\n'
    · subst same
      rfl
    · obtain ⟨part, parts, whole, longer⟩ := split_cons_of_ne same t
      cases whole.symm.trans ih
      have first : firstLine (c :: t) = c :: firstLine t :=
        firstLine_append (s := [c]) (by simpa using Ne.symm same) t
      rw [first, otherLines, longer]
      rfl

theorem otherLines_break (t : Text) : otherLines ('\n' :: t) = firstLine t :: otherLines t :=
  split_eq t

theorem otherLines_append {s : Text} (oneLine : '\n' ∉ s) (t : Text) :
    otherLines (s ++ t) = otherLines t := by
  induction s with
  | nil => rfl
  | cons c s ih =>
    rw [mem_cons, not_or] at oneLine
    obtain ⟨part, parts, whole, longer⟩ := split_cons_of_ne (Ne.symm oneLine.1) (s ++ t)
    rw [← ih oneLine.2, cons_append, otherLines, longer, otherLines, whole]
    rfl

theorem behind_append (done s t : Text) : behind done (s ++ t) = behind (behind done s) t :=
  foldl_append

theorem behind_of_oneLine {t : Text} (oneLine : '\n' ∉ t) (done : Text) :
    behind done t = done ++ t := by
  induction t generalizing done with
  | nil => exact (append_nil done).symm
  | cons c t ih =>
    rw [mem_cons, not_or] at oneLine
    rw [behind, foldl_cons, if_neg (Ne.symm oneLine.1)]
    exact (ih oneLine.2 _).trans (append_assoc ..)

theorem behind_eq {done : Text} (oneLine : '\n' ∉ done) (t : Text) :
    behind done t = (done ++ t).rtakeWhile (· != '\n') := by
  induction t using List.reverseRecOn with
  | nil =>
    rw [append_nil]
    refine (rtakeWhile_eq_self_iff.mpr fun c mem => ?_).symm
    rw [bne_iff_ne]
    rintro rfl
    exact oneLine mem
  | append_singleton t c ih =>
    rw [behind_append, ih, ← append_assoc, rtakeWhile_concat]
    by_cases same : c = '\n'
    · subst same
      rfl
    · rw [behind_of_oneLine (by simpa using Ne.symm same), if_pos (by simpa using same)]

end Text

namespace Attribute

open Text (firstLine otherLines behind Stops)

/-! ## Writing -/

/-- A text that may be written between quotes. -/
structure IsQuotable (quote : Char) (text : Text) : Prop where
  quoteChar : isQuote quote
  free : quote ∉ text
  noSlash : '\\' ∉ text
  noCode : ¬ ['#', '\x7b'] <:+: text
  oneLine : '\n' ∉ text

/-- A code that may be written in a list: without blanks at its ends and a quote at its start, with
brackets and quotes closed, and without a character outside of them that would end it. -/
structure IsListCode (form : ListForm) (code : Text) : Prop where
  nonempty : code ≠ []
  ink : ∀ c ∈ code.head?, isBlank c = false
  inkEnd : ∀ c ∈ code.getLast?, isBlank c = false
  noQuote : ∀ c ∈ code.head?, isQuote c = false
  balanced : Balanced form.isTerminator code
  oneLine : '\n' ∉ code

/-- A value as it is written. -/
inductive Given where
  | quoted (quote : Char) (text : Text)
  | code (code : Text)
deriving DecidableEq, Repr

namespace Given

def text : Given → Text
  | .quoted quote text => quote :: (text ++ [quote])
  | .code source => source

def isCode : Given → Bool
  | .quoted _ _ => false
  | .code _ => true

/-- A value that may be written in a list. -/
def Writable (form : ListForm) : Given → Prop
  | .quoted quote text => IsQuotable quote text
  | .code source => IsListCode form source

end Given

structure Item where
  name : Text
  given : Given
deriving DecidableEq, Repr

namespace Item

def text (i : Item) : ListForm → Text
  | .markup => i.name ++ "=" ++ i.given.text
  | .host => ":" ++ i.name ++ " => " ++ i.given.text

def node (i : Item) : Node :=
  match i.given with
  | .quoted _ text => textEntry i.name text
  | .code code => codeEntry i.name code

/-- An attribute that may be written in a list. -/
structure Writable (form : ListForm) (i : Item) : Prop where
  name : IsAttrName i.name
  given : i.given.Writable form

end Item

/-- What has to stand between two attributes, apart from blanks. -/
def ListForm.comma : ListForm → Text
  | .markup => []
  | .host => [',']

/-- The attributes of a list behind its first, each with its gap, and the end of the list. -/
def writeMore (form : ListForm) : List (Text × Item) → Text
  | [] => [form.closer]
  | (gap, i) :: more => form.comma ++ gap ++ i.text form ++ writeMore form more

def write (form : ListForm) (first : Item) (more : List (Text × Item)) : Text :=
  form.opener :: (first.text form ++ writeMore form more)

/-- Attributes that may be written behind a value: the gaps are blank, line breaks included. A code
of the markup notation is ended by a space, a tab or a line break only. -/
inductive MayFollow (form : ListForm) : Given → List (Text × Item) → Prop where
  | nil {given : Given} : MayFollow form given []
  | cons {given : Given} {gap : Text} {i : Item} {more : List (Text × Item)} : allBlank gap →
    (form = .markup → given.isCode → ∃ c ∈ gap, c = ' ' ∨ c = '\t' ∨ c = '\n') →
    i.Writable form → MayFollow form i.given more → MayFollow form given ((gap, i) :: more)

/-! ## Values -/

variable {form : ListForm} {number : Nat} {done gap line rest name text code : Text} {quote : Char}

theorem EndsValue.blank (ends : EndsValue form gap rest) : allBlank gap :=
  all_eq_true.mpr fun c mem => (ends.1 c mem).1

section

variable (quotable : IsQuotable quote text)

include quotable

theorem IsQuotable.readQuoted (number : Nat) (done rest : Text) :
    readQuoted quote ⟨number, done, text ++ quote :: rest⟩ =
      .ok (text, ⟨number, done ++ (text ++ [quote]), rest⟩) := by
  have whole : text ++ quote :: rest = (text ++ [quote]) ++ rest := by simp
  have found :=
    quoted?_append_quote quotable.quoteChar quotable.free quotable.noSlash quotable.noCode rest
  rw [whole] at found
  rw [Attribute.readQuoted, whole, scan?_append number done found]

theorem IsQuotable.anyQuote (rest : Text) :
    anyQuote (quote :: rest) = some (quote, rest) := by
  have quoteChar := quotable.quoteChar
  rw [isQuote] at quoteChar
  simp only [Attribute.anyQuote, Scan.char, quoteChar, if_true]

theorem IsQuotable.stops (rest : Text) : Stops isBlank (quote :: rest) := by
  refine Text.stops_cons.mpr ?_
  rcases isQuote_iff.mp quotable.quoteChar with rfl | rfl
  · decide
  · decide

end

namespace IsListCode

theorem stops (isCode : IsListCode form code) (rest : Text) : Stops isBlank (code ++ rest) :=
  Text.Stops.append isCode.ink fun empty => absurd empty isCode.nonempty

theorem anyQuote (isCode : IsListCode form code) (rest : Text) :
    anyQuote (code ++ rest) = none := by
  obtain ⟨first, more, rfl⟩ := exists_cons_of_ne_nil isCode.nonempty
  have other := isCode.noQuote first rfl
  rw [isQuote] at other
  simp [Attribute.anyQuote, Scan.char, other]

theorem trim_eq (isCode : IsListCode form code) (blank : allBlank gap) :
    trim (code ++ gap) = code := by
  obtain ⟨front, last, whole⟩ := (eq_nil_or_concat' code).resolve_left isCode.nonempty
  have single : trimRight [last] = [last] := by
    have ink := isCode.inkEnd last (by rw [whole]; simp)
    simp [trimRight, ink]
  have ends : trimRight code = code := by
    rw [whole, Text.trimRight_append_of_ne_nil front (by rw [single]; simp), single]
  rw [trim, trimLeft, Text.dropWhile_of_stops (isCode.stops gap),
    Text.trimRight_append_of_eq_nil _ (Text.trimRight_of_allBlank blank), ends]

theorem readCode (isCode : IsListCode form code) (ends : EndsValue form gap rest) (number : Nat)
    (done : Text) :
    readCode form ⟨number, done, code ++ (gap ++ rest)⟩ =
      .ok (code, ⟨number, done ++ (code ++ gap), rest⟩) := by
  rw [Attribute.readCode, code_of_balanced isCode.balanced ends]
  simp only [isCode.trim_eq ends.blank, advance, ← append_assoc, take_left, drop_left]

end IsListCode

/-! ## Entries -/

section

variable (isName : IsAttrName name)

include isName

theorem assigned_name (stops : Stops isBlank rest) :
    assigned ((name ++ "=") ++ rest) = some (name, rest) :=
  assigned_eq_some_iff.mpr ⟨[], [], by simp, isName, rfl, rfl, stops⟩

theorem key_name (stops : Stops isBlank rest) :
    key ((":" ++ name ++ " => ") ++ rest) = some (name, rest) := by
  have named :=
    (@name_sign_eq_some_iff (name ++ " => " ++ rest) rest name ['>'] '=' () (by decide)
    (by decide)).mpr
    ⟨[' '], [' '], by simp, isName, by decide, by decide, stops⟩
  have found : symbolKey ((":" ++ name ++ " => ") ++ rest) = some (name, rest) := by
    rw [symbolKey, Scan.map_eq_some_iff]
    refine ⟨((), name, ()), Scan.andThen_eq_some_iff.mpr ⟨name ++ " => " ++ rest, ?_, named⟩, rfl⟩
    exact Scan.exactly_eq_some_iff.mpr (by simp)
  rw [key, keyForms, findSome?_cons, found]

theorem readMarkupEntry_quoted (quotable : IsQuotable quote text) :
    readMarkupEntry ⟨number, done, (name ++ "=" ++ [quote]) ++ (text ++ quote :: rest)⟩ =
      .ok (textEntry name text, ⟨number, (done ++ (name ++ "=" ++ [quote])) ++ (text ++ [quote]),
        rest⟩) := by
  have taken : assignedQuote ((name ++ "=" ++ [quote]) ++ (text ++ quote :: rest)) =
      some ((name, quote), text ++ quote :: rest) := by
    rw [append_assoc]
    exact Scan.andThen_eq_some_iff.mpr ⟨_, assigned_name isName (quotable.stops _),
      quotable.anyQuote _⟩
  simp only [readMarkupEntry, scan?_append number done taken, quotable.readQuoted]
  rfl

theorem readMarkupEntry_code (isCode : IsListCode .markup code)
    (ends : EndsValue .markup gap rest) :
    readMarkupEntry ⟨number, done, (name ++ "=") ++ (code ++ (gap ++ rest))⟩ =
      .ok (codeEntry name code, ⟨number, (done ++ (name ++ "=")) ++ (code ++ gap), rest⟩) := by
  have taken := assigned_name isName (isCode.stops (gap ++ rest))
  have absent : assignedQuote ((name ++ "=") ++ (code ++ (gap ++ rest))) = none := by
    rw [assignedQuote, Scan.andThen, taken]
    simp only [isCode.anyQuote]
  simp only [readMarkupEntry, scan?_none number done absent, scan?_append number done taken,
    isCode.readCode ends]
  rfl

end

theorem entryEnd_gap (ends : EndsValue .host gap rest) :
    entryEnd (gap ++ rest) = some ((), rest) := by
  have closes : ∀ c ∈ rest.head?, c = ',' ∨ c = '\x7d' := by
    simpa [ListForm.isTerminator] using ends.2
  have stops : Stops isBlank rest := by
    intro c first
    rcases closes c first with rfl | rfl
    · decide
    · decide
  rw [entryEnd, trimLeft, Text.dropWhile_append_of_stops (all_eq_true.mp ends.blank) stops]
  cases rest with
  | nil => rfl
  | cons c rest => exact if_pos (by simpa using closes c rfl)

theorem readHostEntry_name (isName : IsAttrName name) (stops : Stops isBlank rest) :
    readHostEntry ⟨number, done, (":" ++ name ++ " => ") ++ rest⟩ =
      readHostValue name ⟨number, done ++ (":" ++ name ++ " => "), rest⟩ := by
  simp only [readHostEntry, scan?_append number done (key_name isName stops)]

theorem readHostValue_quoted (quotable : IsQuotable quote text) (ends : EndsValue .host gap rest) :
    readHostValue name ⟨number, done, [quote] ++ (text ++ quote :: (gap ++ rest))⟩ =
      .ok (textEntry name text,
        ⟨number, ((done ++ [quote]) ++ (text ++ [quote])) ++ gap, rest⟩) := by
  have opened : anyQuote ([quote] ++ (text ++ quote :: (gap ++ rest))) =
    some (quote, text ++ quote :: (gap ++ rest)) :=
    quotable.anyQuote _
  simp only [readHostValue, scan?_append number done opened, quotable.readQuoted,
    scan?_append _ _ (entryEnd_gap ends)]

theorem readHostValue_code (isCode : IsListCode .host code) (ends : EndsValue .host gap rest) :
    readHostValue name ⟨number, done, code ++ (gap ++ rest)⟩ =
      .ok (codeEntry name code, ⟨number, done ++ (code ++ gap), rest⟩) := by
  simp only [readHostValue, scan?_none number done (isCode.anyQuote (gap ++ rest)),
    isCode.readCode ends]
  exact if_neg (by simpa using isCode.nonempty)

/-- What is left of a line lets a value end there. A text of the markup notation ends anyway. -/
def LetsEnd (form : ListForm) (given : Given) (line : Text) : Prop :=
  form = .markup ∧ given.isCode = false ∨ ∃ gap rest, line = gap ++ rest ∧ EndsValue form gap rest

theorem readEntry_item {i : Item} (writable : i.Writable form) (ends : LetsEnd form i.given line) :
    ∃ gap rest, line = gap ++ rest ∧ allBlank gap ∧
      readEntry form ⟨number, done, i.text form ++ line⟩ =
        .ok (i.node, ⟨number, done ++ (i.text form ++ gap), rest⟩) := by
  obtain ⟨name, given⟩ := i
  obtain ⟨isName, written⟩ := writable
  cases form with
  | markup =>
    cases given with
    | quoted quote text =>
      have read := @readMarkupEntry_quoted number done line name text quote isName written
      exact ⟨[], line, rfl, rfl, by simpa [Item.text, Given.text, readEntry, Item.node] using read⟩
    | code source =>
      obtain ⟨_, other⟩ | ⟨gap, rest, rfl, ends⟩ := ends
      · cases other
      · have read := @readMarkupEntry_code number done gap rest name source isName written ends
        exact ⟨gap, rest, rfl,
          ends.blank, by simpa [Item.text, Given.text, readEntry, Item.node] using read⟩
  | host =>
    obtain ⟨other, _⟩ | ⟨gap, rest, rfl, ends⟩ := ends
    · cases other
    refine ⟨gap, rest, rfl, ends.blank, ?_⟩
    cases given with
    | quoted quote text =>
      have key := @readHostEntry_name number done _ name isName
        (written.stops (text ++ quote :: (gap ++ rest)))
      have read := key.trans (readHostValue_quoted written ends)
      simpa [Item.text, Given.text, readEntry, Item.node] using read
    | code source =>
      have key := @readHostEntry_name number done _ name isName (written.stops (gap ++ rest))
      have read := key.trans (readHostValue_code written ends)
      simpa [Item.text, Given.text, readEntry, Item.node] using read

/-! ## Lists -/

variable {entries : List Node}

theorem readEntries_congr {s s' : Spot} (same : form.skipGap s = form.skipGap s') :
    readEntries form entries s = readEntries form entries s' := by
  rw [readEntries_eq, readEntries_eq, same]

theorem skipGap_append (gaps : ∀ c ∈ gap, form.isGap c) :
    form.skipGap ⟨number, done, gap ++ rest⟩ = form.skipGap ⟨number, done ++ gap, rest⟩ := by
  simp [ListForm.skipGap, advance, takeWhile_append_of_pos gaps, take_length_add_append,
    drop_length_add_append]

theorem isGap_of_isBlank {c : Char} (blank : isBlank c) : form.isGap c := by
  cases form with
  | markup => exact blank
  | host => simp [ListForm.isGap, blank]

theorem skipGap_of_ink {c : Char} (noGap : form.isGap c = false) (t : Text) :
    form.skipGap ⟨number, done, c :: t⟩ = ⟨number, done, c :: t⟩ ∧
    (Spot.mk number done (c :: t)).atEnd = false := by
  have ink : isBlank c = false := by
    rw [Bool.eq_false_iff] at noGap ⊢
    exact fun blank => noGap (isGap_of_isBlank blank)
  simp [ListForm.skipGap, advance, atEnd, allBlank, noGap, ink]

theorem resume_eq (form : ListForm) (entries : List Node) (number : Nat) (line : Text) :
    resume form entries number line = readEntries form entries ⟨number, [], line⟩ := by
  have parts : line.takeWhile isBlank ++ line.dropWhile isBlank = line := takeWhile_append_dropWhile
  have skipped : (Spot.start number line).skipBlanks =
      ⟨number, [] ++ line.takeWhile isBlank, line.dropWhile isBlank⟩ := by
    have taken := prefix_iff_eq_take.mp ( takeWhile_prefix isBlank (l := line))
    have left : _ = line.dropWhile isBlank := Spot.rest_skipBlanks (Spot.start number line)
    rw [taken, ← left]
    rfl
  rw [resume, skipped]
  refine readEntries_congr ((skipGap_append fun c mem => ?_).symm.trans (by rw [parts]))
  exact isGap_of_isBlank (mem_takeWhile_imp mem)

theorem Item.Writable.head {i : Item} (writable : i.Writable form) :
    ∃ c more, i.text form = c :: more ∧ form.isGap c = false ∧ c ≠ form.closer := by
  cases form with
  | markup =>
    obtain ⟨c, more, named⟩ := exists_cons_of_ne_nil writable.name.nonempty
    have nameChar : Text.isNameChar c := writable.name.all c (by rw [named]; exact mem_cons_self)
    refine ⟨c, _, by rw [Item.text, named, cons_append, cons_append], ?_, ?_⟩
    · refine Bool.eq_false_iff.mpr fun blank => ?_
      rw [Text.isNameChar_of_isBlank blank] at nameChar
      nomatch nameChar
    · rintro rfl
      exact absurd nameChar (by decide)
  | host => exact ⟨':', _, rfl, by decide, by decide⟩

theorem Item.Writable.oneLine {i : Item} (writable : i.Writable form) : '\n' ∉ i.text form := by
  have named : '\n' ∉ i.name := fun mem => absurd (writable.name.all _ mem) (by decide)
  have written : '\n' ∉ i.given.text := by
    have inner := writable.given
    cases given : i.given with
    | quoted quote text =>
      rw [given] at inner
      have other : '\n' ≠ quote := by
        rcases isQuote_iff.mp inner.quoteChar with rfl | rfl
        · decide
        · decide
      simp [Given.text, other, inner.oneLine]
    | code source =>
      rw [given] at inner
      exact inner.oneLine
  cases form with
  | markup | host => simp [Item.text, named, written]

/-- In a gap with a space, a tab or a line break, the first of these ends a code. -/
theorem exists_endsValue (blank : allBlank gap)
    (separates : ∃ c ∈ gap, c = ' ' ∨ c = '\t' ∨ c = '\n') (t : Text) :
    ∃ front rest, firstLine (gap ++ t) = front ++ rest ∧ EndsValue .markup front rest := by
  induction gap with
  | nil =>
    obtain ⟨_, mem, _⟩ := separates
    nomatch mem
  | cons c gap ih =>
    by_cases isBreak : c = '\n'
    · subst isBreak
      exact ⟨[], [], rfl, nofun, nofun⟩
    have first : firstLine (c :: gap ++ t) = c :: firstLine (gap ++ t) :=
      Text.firstLine_append (s := [c]) (by simpa using Ne.symm isBreak) (gap ++ t)
    cases ends : ListForm.markup.isTerminator c with
    | true =>
      refine ⟨[], _, first, nofun, fun d head => ?_⟩
      cases head
      exact ends
    | false =>
      rw [allBlank, all_cons, Bool.and_eq_true] at blank
      have later : ∃ d ∈ gap, d = ' ' ∨ d = '\t' ∨ d = '\n' := by
        obtain ⟨d, mem, kind⟩ := separates
        rcases mem_cons.mp mem with rfl | inside
        · rcases kind with rfl | rfl | rfl
          · exact absurd ends (by decide)
          · exact absurd ends (by decide)
          · exact absurd rfl isBreak
        · exact ⟨d, inside, kind⟩
      obtain ⟨front, rest, line, inner⟩ := ih blank.2 later
      exact ⟨c :: front, rest, first.trans (congrArg (c :: ·) line),
        forall_mem_cons.mpr ⟨⟨blank.1, ends⟩, inner.1⟩, inner.2⟩

theorem MayFollow.letsEnd {given : Given} {more : List (Text × Item)}
    (follows : MayFollow form given more) (tail : Text) :
    LetsEnd form given (firstLine (writeMore form more ++ tail)) := by
  have atOnce : ∀ {c : Char} {t : Text}, form.isTerminator c → c ≠ '\n' →
      LetsEnd form given (firstLine (c :: t)) := by
    intro c t ends noBreak
    have first : firstLine (c :: t) = c :: firstLine t :=
      Text.firstLine_append (s := [c]) (by simpa using Ne.symm noBreak) t
    refine .inr ⟨[], c :: firstLine t, first, nofun, fun d head => ?_⟩
    cases head
    exact ends
  cases follows with
  | nil =>
    cases form with
    | markup | host => exact atOnce rfl (by decide)
  | cons blank separates _ _ =>
    cases form with
    | host => exact atOnce rfl (by decide)
    | markup =>
      cases code : given.isCode with
      | false => exact .inl ⟨rfl, code⟩
      | true =>
        rw [writeMore, append_assoc, append_assoc]
        exact .inr (exists_endsValue blank (separates rfl code) _)

theorem readShortcuts_opener (form : ListForm) (rest : Text) :
    readShortcuts [] ⟨number, done, form.opener :: rest⟩ =
      ([], ⟨number, done, form.opener :: rest⟩) := by
  have absent : shortcut (form.opener :: rest) = none := by
    cases form with
    | markup | host => rfl
  rw [readShortcuts_eq, scan?_none number done absent]

theorem read_opener (form : ListForm) (rest : Text) :
    Attribute.read ⟨number, done, form.opener :: rest⟩ =
      readEntries form [] ⟨number, done ++ [form.opener], rest⟩ := by
  have opened : scan? (Scan.exactly [form.opener]) ⟨number, done, form.opener :: rest⟩ =
      some ((), ⟨number, done ++ [form.opener], rest⟩) :=
    scan?_append number done (Scan.exactly_eq_some_iff.mpr rfl)
  rw [Attribute.read, readShortcuts_opener]
  cases form with
  | markup => simp only [opened]
  | host =>
    have other : scan? (Scan.exactly [ListForm.markup.opener]) ⟨number, done,
      ListForm.host.opener :: rest⟩ = none :=
      scan?_eq_none_iff.mpr fun same => absurd (Option.some.inj same) (by decide)
    simp only [other, opened]

/-!
## Reading over lines

What is done with a reading at the end of a line is left open: it depends on the lines that the list
has gone over and on the lines ahead. A list that goes on must be taken up in the next line.
-/

section Handled

variable {β : Type} {start count : Nat} {handle : Nat → Reading → List Text → Except Fault β}

/-- A list that goes on, in the line `count` behind line `start`, is taken up in the next line. -/
def Resumes (start : Nat) (handle : Nat → Reading → List Text → Except Fault β) : Prop :=
  ∀ count form entries done line ahead,
    handle count (.continues form entries ⟨start + count, done, []⟩) (line :: ahead) =
    resume form entries (start + (count + 1)) line >>= fun reading =>
      handle (count + 1) reading ahead

/-- Goes on with a list in a text of several lines. -/
def readOn (start : Nat) (handle : Nat → Reading → List Text → Except Fault β) (form : ListForm)
    (entries : List Node) (count : Nat) (done t : Text) : Except Fault β :=
  readEntries form entries ⟨start + count, done, firstLine t⟩ >>= fun reading =>
    handle count reading (otherLines t)

theorem readOn_append_gap (gaps : ∀ c ∈ gap, form.isGap c) (oneLine : '\n' ∉ gap) (t : Text) :
    readOn start handle form entries count done (gap ++ t) = readOn start handle form entries count
      (done ++ gap) t := by
  rw [readOn, readOn, Text.firstLine_append oneLine, Text.otherLines_append oneLine,
    readEntries_congr (skipGap_append gaps)]

theorem readOn_break (resumes : Resumes start handle) (t : Text) :
    readOn start handle form entries count done ('\n' :: t) = readOn start handle form entries
      (count + 1) [] t := by
  have ended : readEntries form entries ⟨start + count, done, firstLine ('\n' :: t)⟩ =
      .ok (.continues form entries ⟨start + count, done, []⟩) := by
    rw [readEntries_eq]
    simp [firstLine, ListForm.skipGap, advance, atEnd, allBlank]
  rw [readOn, Text.otherLines_break, ended]
  refine (resumes count form entries done _ _).trans ?_
  rw [resume_eq, readOn]

theorem readOn_gap (resumes : Resumes start handle) (gaps : ∀ c ∈ gap, form.isGap c) (t : Text) :
    readOn start handle form entries count done (gap ++ t) =
      readOn start handle form entries (count + gap.count '\n') (behind done gap) t := by
  induction gap generalizing count done with
  | nil => rfl
  | cons c gap ih =>
    rw [forall_mem_cons] at gaps
    by_cases same : c = '\n'
    · subst same
      rw [cons_append, readOn_break resumes, ih gaps.2, count_cons_self, Nat.add_assoc,
        Nat.add_comm 1]
      rfl
    · have single : '\n' ∉ [c] := by simpa using Ne.symm same
      rw [cons_append, ← singleton_append, readOn_append_gap (by simpa using gaps.1) single,
        ih gaps.2,
        count_cons_of_ne same, ← Text.behind_of_oneLine single, ← Text.behind_append]
      rfl

theorem readOn_closer (t : Text) : readOn start handle form entries count done (form.closer :: t) =
    handle count (.complete entries ⟨start + count, done ++ [form.closer], firstLine t⟩)
    (otherLines t) := by
  have noGap : form.isGap form.closer = false ∧ '\n' ∉ [form.closer] := by
    cases form with
    | markup | host => decide
  have first : firstLine (form.closer :: t) = form.closer :: firstLine t :=
    Text.firstLine_append noGap.2 t
  have others : otherLines (form.closer :: t) = otherLines t := Text.otherLines_append noGap.2 t
  have scanned : scan? (Scan.exactly [form.closer]) ⟨start + count, done,
    form.closer :: firstLine t⟩ =
      some ((), ⟨start + count, done ++ [form.closer], firstLine t⟩) :=
    scan?_append _ done (Scan.exactly_eq_some_iff.mpr rfl)
  obtain ⟨here, more⟩ := @skipGap_of_ink form (start + count) done _ noGap.1 (firstLine t)
  rw [readOn, first, others, readEntries_eq, here, more, if_neg Bool.false_ne_true, scanned]
  rfl

theorem readOn_item {i : Item} (writable : i.Writable form) (t : Text)
    (ends : LetsEnd form i.given (firstLine t)) :
    readOn start handle form entries count done (i.text form ++ t) =
      readOn start handle form (entries ++ [i.node]) count (done ++ i.text form) t := by
  obtain ⟨c, more, whole, noGap, noCloser⟩ := writable.head
  obtain ⟨gap, rest, line, blank, read⟩ :=
    @readEntry_item form (start + count) done _ i writable ends
  obtain ⟨here, ink⟩ := @skipGap_of_ink form (start + count) done c noGap (more ++ firstLine t)
  rw [← cons_append, ← whole] at here ink
  have unclosed :
      scan? (Scan.exactly [form.closer]) ⟨start + count, done, i.text form ++ firstLine t⟩ =
        none := by
    refine scan?_eq_none_iff.mpr ?_
    simpa [whole] using noCloser
  rw [readOn, Text.firstLine_append writable.oneLine, Text.otherLines_append writable.oneLine,
    readEntries_eq, here, ink,
    if_neg Bool.false_ne_true, unclosed, read, readOn, line, ← append_assoc]
  refine congrArg (· >>= _) (readEntries_congr (skipGap_append fun c mem => ?_)).symm
  exact isGap_of_isBlank (all_eq_true.mp blank c mem)

theorem readOn_writeMore (resumes : Resumes start handle) {given : Given}
    {more : List (Text × Item)} (follows : MayFollow form given more) (tail : Text) :
    readOn start handle form entries count done (writeMore form more ++ tail) =
      handle (count + (writeMore form more).count '\n')
        (.complete (entries ++ more.map fun (_, i) => i.node)
          ⟨start + (count + (writeMore form more).count '\n'), behind done (writeMore form more),
            firstLine tail⟩)
        (otherLines tail) := by
  induction follows generalizing entries count done with
  | nil =>
    have oneLine : '\n' ∉ [form.closer] := by
      cases form with
      | markup | host => decide
    rw [writeMore, singleton_append, readOn_closer, count_eq_zero_of_not_mem oneLine,
      Text.behind_of_oneLine oneLine]
    simp
  | @cons given gap i more blank ends writable follows ih =>
    have gaps : ∀ c ∈ form.comma ++ gap, form.isGap c := by
      refine forall_mem_append.mpr ⟨?_, fun c mem => isGap_of_isBlank (all_eq_true.mp blank c mem)⟩
      cases form with
      | markup => nofun
      | host => exact forall_mem_singleton.mpr (by decide)
    rw [writeMore, append_assoc, append_assoc, readOn_gap resumes gaps,
      readOn_item writable _ (follows.letsEnd tail), ih]
    simp [Text.behind_append, Text.behind_of_oneLine writable.oneLine,
      count_eq_zero_of_not_mem writable.oneLine,
      Nat.add_assoc]

theorem read_write (resumes : Resumes start handle) {first : Item} {more : List (Text × Item)}
    (writable : first.Writable form) (follows : MayFollow form first.given more)
    (front tail : Text) :
    (Attribute.read ⟨start, front, firstLine (write form first more ++ tail)⟩ >>= fun reading =>
        handle 0 reading (otherLines (write form first more ++ tail))) =
      handle ((write form first more).count '\n')
        (.complete (first.node :: more.map fun (_, i) => i.node)
          ⟨start + (write form first more).count '\n', behind front (write form first more),
            firstLine tail⟩)
        (otherLines tail) := by
  have oneLine : '\n' ∉ [form.opener] := by
    cases form with
    | markup | host => decide
  have whole : write form first more = [form.opener] ++ (first.text form ++ writeMore form more) :=
    rfl
  have counted : (write form first more).count '\n' = 0 + (writeMore form more).count '\n' := by
    rw [whole, count_append, count_append, count_eq_zero_of_not_mem oneLine,
      count_eq_zero_of_not_mem writable.oneLine, Nat.zero_add]
  have moved : behind front (write form first more) =
      behind (front ++ [form.opener] ++ first.text form) (writeMore form more) := by
    rw [whole, Text.behind_append, Text.behind_append, Text.behind_of_oneLine oneLine,
      Text.behind_of_oneLine writable.oneLine]
  have opened : Attribute.read ⟨start, front, firstLine (write form first more ++ tail)⟩ =
      readEntries form []
        ⟨start + 0, front ++ [form.opener],
          firstLine (first.text form ++ (writeMore form more ++ tail))⟩ := by
    rw [whole, append_assoc, append_assoc, Text.firstLine_append oneLine]
    exact read_opener form _
  have others : otherLines (write form first more ++ tail) =
      otherLines (first.text form ++ (writeMore form more ++ tail)) := by
    rw [whole, append_assoc, append_assoc, Text.otherLines_append oneLine]
  rw [opened, others, counted, moved]
  exact (readOn_item writable _ (follows.letsEnd tail)).trans
    (readOn_writeMore resumes follows tail)

end Handled

end Attribute

end MarkupTemplate
