import MarkupTemplate.Attribute.Scan
import MarkupTemplate.Line.Fault
import MarkupTemplate.Node.Basic

/-!
# Attribute lists

The shortcuts and the list after a tag become attribute entries. A list may go on over several
lines: then `resume` takes it up in the next one. The template ending in between is a fault,
reported where the last line was left.
-/

namespace MarkupTemplate.Attribute

open Scan (andThen_keeps map_shortens andThen_shortens exactly)

/-- The two notations of a list. -/
inductive ListForm where
  /-- Between parentheses, entries separated by blanks. -/
  | markup
  /-- Between braces, entries separated by commas. -/
  | host
deriving DecidableEq, Repr

namespace ListForm

/-- What opens a list. -/
def opener : ListForm → Char
  | .markup => '('
  | .host => '\x7b'

/-- What closes a list. -/
def closer : ListForm → Char
  | .markup => ')'
  | .host => '\x7d'

/-- What may stand between entries. -/
def isGap : ListForm → Char → Bool
  | .markup, c => Text.isBlank c
  | .host, c => Text.isBlank c || c == ','

/-- What ends a code outside brackets. -/
def isTerminator : ListForm → Char → Bool
  | .markup, c => c == ' ' || c == '\t' || c == ')'
  | .host, c => c == ',' || c == '\x7d'

/-- Moves on to the next entry. -/
def skipGap (form : ListForm) (s : Spot) : Spot :=
  s.advance (s.rest.takeWhile form.isGap).length

end ListForm

/-! ## Entries -/

/-- An attribute with a quoted text. -/
def textEntry (name text : Text) : Node :=
  .attr name (.escape true (.interpolate text))

/-- An attribute with a code. -/
def codeEntry (name code : Text) : Node :=
  .attr name (.value true code)

/-- Reads a text up to its closing quote. -/
def readQuoted (quote : Char) (s : Spot) : Except Fault (Text × Spot) :=
  match s.scan? (quoted? quote 0) with
  | none => .error ⟨.unclosedQuote quote, s⟩
  | some found => .ok found

/-- Reads a code; the blanks at its ends do not belong to it. -/
def readCode (form : ListForm) (s : Spot) : Except Fault (Text × Spot) :=
  match code form.isTerminator {} s.rest with
  | .error close => .error ⟨.unclosedList close, s⟩
  | .ok (text, _) => .ok (Text.trim text, s.advance text.length)

/-- The end of an entry: a comma, the closing brace or the end of the line, after blanks. -/
def entryEnd : Scan Unit := fun t =>
  match Text.trimLeft t with
  | [] => some ((), [])
  | c :: rest => if c = ',' || c = '\x7d' then some ((), c :: rest) else none

/-- Reads an entry of the markup notation. -/
def readMarkupEntry (s : Spot) : Except Fault (Node × Spot) :=
  match s.scan? assignedQuote with
  | some ((name, quote), s₁) =>
    (readQuoted quote s₁).map fun (text, s₂) => (textEntry name text, s₂)
  | none =>
    match s.scan? assigned with
    | some (name, s₁) => (readCode .markup s₁).map fun (code, s₂) => (codeEntry name code, s₂)
    | none =>
      match s.scan? name with
      | some (name, s₁) => .ok (codeEntry name "True", s₁)
      | none => .error ⟨.unclosedList ')', s⟩

/-- Reads a value of the host notation: a quoted text that ends the entry, or a nonempty code. -/
def readHostValue (name : Text) (s : Spot) : Except Fault (Node × Spot) :=
  match s.scan? anyQuote with
  | some (quote, s₁) =>
    match readQuoted quote s₁ with
    | .error fault => .error fault
    | .ok (text, s₂) =>
      match s₂.scan? entryEnd with
      | some (_, s₃) => .ok (textEntry name text, s₃)
      | none => .error ⟨.unclosedList '\x7d', s₂⟩
  | none =>
    match readCode .host s with
    | .error fault => .error fault
    | .ok (code, s₁) =>
      if code.isEmpty then .error ⟨.missingValue, s₁⟩ else .ok (codeEntry name code, s₁)

/-- Reads an entry of the host notation. -/
def readHostEntry (s : Spot) : Except Fault (Node × Spot) :=
  match s.scan? key with
  | none => .error ⟨.unclosedList '\x7d', s⟩
  | some (name, s₁) => readHostValue name s₁

/-- Reads an entry in either notation. -/
def readEntry : ListForm → Spot → Except Fault (Node × Spot)
  | .markup => readMarkupEntry
  | .host => readHostEntry

/-! ## Reading an entry moves on -/

theorem sign_keeps (mark : Text) : Scan.Keeps (sign mark) :=
  Scan.map_keeps (andThen_keeps Scan.blanks_keeps
    (andThen_keeps (Scan.exactly_keeps mark) Scan.blanks_keeps))

theorem name_shortens : Scan.Shortens name :=
  Scan.run_shortens _

theorem assigned_shortens : Scan.Shortens assigned :=
  map_shortens (andThen_shortens name_shortens (sign_keeps _))

theorem anyQuote_shortens : Scan.Shortens anyQuote :=
  Scan.char_shortens _

theorem assignedQuote_shortens : Scan.Shortens assignedQuote :=
  andThen_shortens assigned_shortens anyQuote_shortens.keeps

theorem symbolKey_shortens : Scan.Shortens symbolKey :=
  map_shortens (andThen_shortens (Scan.exactly_shortens (by decide))
    (andThen_keeps name_shortens.keeps (sign_keeps _)))

theorem upToQuote_keeps (quote : Char) : Scan.Keeps (upToQuote quote) := by
  intro t a r h
  unfold upToQuote at h
  split at h
  · nomatch h
  · next c rest hd =>
    simp only [Option.some.injEq, Prod.mk.injEq] at h
    obtain ⟨_, rfl⟩ := h
    have := (List.dropWhile_suffix (fun c => c != quote) (l := t)).length_le
    rw [hd] at this
    simp only [List.length_cons] at this
    omega

theorem arrowOrColon_keeps : Scan.Keeps arrowOrColon := by
  intro t a r h
  unfold arrowOrColon Scan.orElse at h
  split at h
  · exact sign_keeps _ _ _ _ h
  · next h1 =>
    simp only [Option.some.injEq] at h
    subst h
    exact sign_keeps _ _ _ _ h1

theorem quotedKey_shortens (quote : Char) : Scan.Shortens (quotedKey quote) :=
  map_shortens (andThen_shortens (Scan.exactly_shortens (by simp))
    (andThen_keeps (upToQuote_keeps quote) arrowOrColon_keeps))

theorem colonKey_shortens : Scan.Shortens colonKey := by
  intro t a r h
  unfold colonKey at h
  split at h
  · nomatch h
  · next found rest h1 =>
    split at h
    · simp only [Option.some.injEq, Prod.mk.injEq] at h
      obtain ⟨_, rfl⟩ := h
      exact Nat.lt_of_le_of_lt (List.dropWhile_suffix Text.isBlank).length_le
        (name_shortens _ _ _ h1)
    · nomatch h

theorem arrowKey_shortens : Scan.Shortens arrowKey :=
  map_shortens (andThen_shortens name_shortens (sign_keeps _))

theorem key_shortens : Scan.Shortens key := by
  intro t a r h
  simp only [key, List.findSome?_eq_some_iff] at h
  obtain ⟨before, form, after, hforms, hform, _⟩ := h
  have member : form ∈ keyForms := by simp [hforms]
  simp only [keyForms, List.mem_cons, List.not_mem_nil, or_false] at member
  rcases member with rfl | rfl | rfl | rfl | rfl
  · exact symbolKey_shortens _ _ _ hform
  · exact quotedKey_shortens _ _ _ _ hform
  · exact quotedKey_shortens _ _ _ _ hform
  · exact colonKey_shortens _ _ _ hform
  · exact arrowKey_shortens _ _ _ hform

theorem rest_length_of_scan?_le {α : Type} {p : Scan α} {s s' : Spot} {found : α}
    (h : s.scan? p = some (found, s')) : s'.rest.length ≤ s.rest.length := by
  unfold Spot.scan? at h
  split at h
  · nomatch h
  · simp only [Option.some.injEq, Prod.mk.injEq] at h
    obtain ⟨_, rfl⟩ := h
    simp

theorem rest_length_of_readQuoted_le {quote : Char} {s s' : Spot} {text : Text}
    (h : readQuoted quote s = .ok (text, s')) : s'.rest.length ≤ s.rest.length := by
  unfold readQuoted at h
  split at h
  · nomatch h
  · next found h1 =>
    simp only [Except.ok.injEq] at h
    subst h
    exact rest_length_of_scan?_le h1

theorem rest_length_of_readCode_le {form : ListForm} {s s' : Spot} {text : Text}
    (h : readCode form s = .ok (text, s')) : s'.rest.length ≤ s.rest.length := by
  unfold readCode at h
  split at h
  · nomatch h
  · simp only [Except.ok.injEq, Prod.mk.injEq] at h
    obtain ⟨_, rfl⟩ := h
    simp

/-- How the parts of an entry are read. -/
inductive ReadsEntry (s : Spot) : ListForm → Node → Spot → Prop where
  | text {found text : Text} {quote : Char} {s₁ s₂ : Spot} :
    s.scan? assignedQuote = some ((found, quote), s₁) →
    readQuoted quote s₁ = .ok (text, s₂) → ReadsEntry s .markup (textEntry found text) s₂
  | code {found code : Text} {s₁ s₂ : Spot} :
    s.scan? assignedQuote = none → s.scan? assigned = some (found, s₁) →
    readCode .markup s₁ = .ok (code, s₂) → ReadsEntry s .markup (codeEntry found code) s₂
  | alone {found : Text} {s₁ : Spot} : s.scan? assignedQuote = none → s.scan? assigned = none →
    s.scan? name = some (found, s₁) → ReadsEntry s .markup (codeEntry found "True") s₁
  | hostText {found text : Text} {quote : Char} {s₁ s₂ s₃ s₄ : Spot} :
    s.scan? key = some (found, s₁) →
    s₁.scan? anyQuote = some (quote, s₂) → readQuoted quote s₂ = .ok (text, s₃) →
    s₃.scan? entryEnd = some ((), s₄) →
    ReadsEntry s .host (textEntry found text) s₄
  | hostCode {found code : Text} {s₁ s₂ : Spot} :
    s.scan? key = some (found, s₁) → s₁.scan? anyQuote = none →
    readCode .host s₁ = .ok (code, s₂) → code.isEmpty = false →
    ReadsEntry s .host (codeEntry found code) s₂

theorem readsEntry_of_ok {form : ListForm} {s s' : Spot} {entry : Node}
    (read : readEntry form s = .ok (entry, s')) : ReadsEntry s form entry s' := by
  cases form with
  | markup =>
    simp only [readEntry, readMarkupEntry, Except.map] at read
    split at read
    next scanned =>
      split at read
      next => nomatch read
      next quoted =>
        cases read
        exact .text scanned quoted
    next unquoted =>
    split at read
    next scanned =>
      split at read
      next => nomatch read
      next coded =>
        cases read
        exact .code unquoted scanned coded
    next unassigned =>
    split at read
    next scanned =>
      cases read
      exact .alone unquoted unassigned scanned
    next => nomatch read
  | host =>
    simp only [readEntry, readHostEntry, readHostValue] at read
    split at read
    next => nomatch read
    next named =>
    split at read
    next scanned =>
      split at read
      next => nomatch read
      next quoted =>
        split at read
        next ended =>
          cases read
          exact .hostText named scanned quoted ended
        next => nomatch read
    next unquoted =>
    split at read
    next => nomatch read
    next coded =>
      split at read
      next => nomatch read
      next filled =>
        cases read
        exact .hostCode named unquoted coded (Bool.eq_false_iff.mpr filled)

theorem ReadsEntry.read {form : ListForm} {s s' : Spot} {entry : Node}
    (reads : ReadsEntry s form entry s') : readEntry form s = .ok (entry, s') := by
  cases reads with
  | text h1 h2 => simp only [readEntry, readMarkupEntry, h1, h2, Except.map]
  | code h1 h2 h3 => simp only [readEntry, readMarkupEntry, h1, h2, h3, Except.map]
  | alone h1 h2 h3 => simp only [readEntry, readMarkupEntry, h1, h2, h3]
  | hostText h1 h2 h3 h4 => simp only [readEntry, readHostEntry, readHostValue, h1, h2, h3, h4]
  | hostCode h1 h2 h3 h4 =>
    simp only [readEntry, readHostEntry, readHostValue, h1, h2, h3, h4, Bool.false_eq_true,
      ↓reduceIte]

theorem rest_length_of_readEntry {form : ListForm} {s s' : Spot} {entry : Node}
    (h : readEntry form s = .ok (entry, s')) : s'.rest.length < s.rest.length := by
  cases readsEntry_of_ok h with
  | text h1 h2 =>
    exact Nat.lt_of_le_of_lt (rest_length_of_readQuoted_le h2)
      (Spot.rest_length_of_scan? assignedQuote_shortens h1)
  | code _ h1 h2 =>
    exact Nat.lt_of_le_of_lt (rest_length_of_readCode_le h2)
      (Spot.rest_length_of_scan? assigned_shortens h1)
  | alone _ _ h1 => exact Spot.rest_length_of_scan? name_shortens h1
  | hostText h1 h2 h3 h4 =>
    have first := Spot.rest_length_of_scan? key_shortens h1
    exact Nat.lt_of_le_of_lt (Nat.le_trans (rest_length_of_scan?_le h4)
      (Nat.le_trans (rest_length_of_readQuoted_le h3) (rest_length_of_scan?_le h2))) first
  | hostCode h1 _ h2 =>
    exact Nat.lt_of_le_of_lt (rest_length_of_readCode_le h2)
      (Spot.rest_length_of_scan? key_shortens h1)

/-! ## Lists -/

/-- What has been read at the end of a line. -/
inductive Reading where
  | complete (entries : List Node) (spot : Spot)
  /-- A list goes on in the next line; this is where the line was left. -/
  | continues (form : ListForm) (entries : List Node) (spot : Spot)
deriving DecidableEq

/-- Reads entries up to the end of a list or line. -/
def readEntries (form : ListForm) (entries : List Node) (s : Spot) : Except Fault Reading :=
  if (form.skipGap s).atEnd then .ok (.continues form entries (form.skipGap s))
  else
    match (form.skipGap s).scan? (exactly [form.closer]) with
    | some (_, s') => .ok (.complete entries s')
    | none =>
      match _read : readEntry form (form.skipGap s) with
      | .error fault => .error fault
      | .ok (entry, s') => readEntries form (entries ++ [entry]) s'
termination_by s.rest.length
decreasing_by
  have := rest_length_of_readEntry _read
  simp only [ListForm.skipGap, Spot.rest_advance, List.length_drop] at this
  omega

/-- Goes on with a list in a new line. -/
def resume (form : ListForm) (entries : List Node) (number : Nat) (line : Text) :
    Except Fault Reading :=
  readEntries form entries (Spot.start number line).skipBlanks

/-- The entry of a shortcut: a hash names the element, a dot gives a class. -/
def shortcutEntry (sign : Char) (name : Text) : Node :=
  if sign = '#' then .shortcut "id" (.static name) else .attr "class" (.static name)

/-- Reads the shortcuts of a tag. -/
def readShortcuts (entries : List Node) (s : Spot) : List Node × Spot :=
  match _read : s.scan? shortcut with
  | none => (entries, s)
  | some ((sign, name), s') => readShortcuts (entries ++ [shortcutEntry sign name]) s'
termination_by s.rest.length
decreasing_by
  exact Spot.rest_length_of_scan?
    (andThen_shortens (Scan.char_shortens _) (Scan.run_shortens _).keeps) _read

/-- Reads the shortcuts and the list of a tag. -/
def read (s : Spot) : Except Fault Reading :=
  let (entries, s₁) := readShortcuts [] s
  match s₁.scan? (exactly [ListForm.markup.opener]) with
  | some (_, s₂) => readEntries .markup entries s₂
  | none =>
    match s₁.scan? (exactly [ListForm.host.opener]) with
    | some (_, s₂) => readEntries .host entries s₂
    | none => .ok (.complete entries s₁)

/-- Reads on over the lines ahead. -/
def readAcross : Reading → (ahead : List Text) → Except Fault (List Node × Spot)
  | .complete entries s, _ => .ok (entries, s)
  | .continues form _ s, [] => .error ⟨.unclosedList form.closer, s⟩
  | .continues form entries s, line :: ahead =>
    match resume form entries (s.number + 1) line with
    | .error fault => .error fault
    | .ok reading => readAcross reading ahead

/-- Reads attributes over all their lines. -/
def readAll (s : Spot) (ahead : List Text) : Except Fault (List Node × Spot) :=
  match read s with
  | .error fault => .error fault
  | .ok reading => readAcross reading ahead

end MarkupTemplate.Attribute
