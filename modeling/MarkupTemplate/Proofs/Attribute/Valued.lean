import MarkupTemplate.Proofs.Attribute.Apart
import MarkupTemplate.Proofs.Attribute.Values
import MarkupTemplate.Proofs.Outline.Placed

/-!
# Attributes with a value

The host notation refuses an entry without a value. In the markup notation, where the list or the
line ends right behind the equal sign, the attribute gets the empty code (`readMarkupEntry_bare`).
There is no other way to a code without ink (`Valued`).
-/

namespace MarkupTemplate.Attribute

open Text (allBlank isBlank)

variable {lines : List Text} {s s' : Spot} {name : Text} {entry : Node}

/-- A text that starts with a name and an equal sign, right behind which the list or line ends. -/
def Bare (name t : Text) : Prop :=
  IsAttrName name ∧ ∃ gap gap' rest, t = name ++ (gap ++ ("=" ++ (gap' ++ rest))) ∧
    allBlank gap ∧ allBlank gap' ∧ ∀ c ∈ rest.head?, c = ')'

/-- An entry with a text, with a code that has ink, or without a value in the markup notation. -/
inductive Valued (lines : List Text) : Node → Prop where
  | text (name text : Text) : Valued lines (textEntry name text)
  | code {name code : Text} : allBlank code = false → Valued lines (codeEntry name code)
  | shortcut (sign : Char) (name : Text) : Valued lines (shortcutEntry sign name)
  | bare {name line t : Text} :
    line ∈ lines → t <:+ line → Bare name t → Valued lines (codeEntry name [])

def Reading.Valued (lines : List Text) : Reading → Prop
  | .complete entries _ | .continues _ entries _ => ∀ e ∈ entries, Attribute.Valued lines e

theorem assigned_ends : Scan.Ends assigned :=
  Scan.map_ends (Scan.andThen_ends (Scan.run_ends _) (sign_ends _))

/-! ## Codes without ink -/

variable {form : ListForm} {code : Text} {entries : List Node}

theorem readCode_blank (read : readCode form s = .ok (code, s')) (blank : allBlank code) :
    code = [] := by
  unfold readCode at read
  split at read
  next => nomatch read
  next text _ _ =>
    cases read
    rw [Text.allBlank_trim] at blank
    exact Text.trim_of_allBlank blank

theorem isTerminator_of_readCode (stops : Text.Stops isBlank s.rest)
    (read : readCode form s = .ok (code, s'))
    (blank : allBlank code) : ∀ c ∈ s.rest.head?, form.isTerminator c := by
  intro c first
  unfold readCode at read
  split at read
  next => nomatch read
  next text rest found =>
    cases read
    rw [Text.allBlank_trim] at blank
    obtain ⟨t, whole⟩ : ∃ t, s.rest = c :: t := by
      cases here : s.rest with
      | nil => simp [here] at first
      | cons d t =>
        cases (by simpa [here] using first : d = c)
        exact ⟨t, rfl⟩
    rw [whole, code] at found
    split at found
    next ended => exact (Bool.and_eq_true_iff.mp ended).2
    next =>
      -- The code takes the character, which is no blank.
      have ink : isBlank c = false := by
        rw [whole] at stops
        exact Text.stops_cons.mp stops
      obtain ⟨_, -, same⟩ := exists_of_map found
      cases same
      exact absurd blank (by simp [allBlank, ink])

theorem stops_of_closer {rest : Text} (closes : ∀ c ∈ rest.head?, c = ')') :
    Text.Stops isBlank rest := by
  intro c first
  rw [closes c first]
  decide

theorem readMarkupEntry_bare (bare : Bare name s.rest) :
    ∃ s', readMarkupEntry s = .ok (codeEntry name [], s') := by
  obtain ⟨isName, gap, gap', rest, whole, blank, blank', closes⟩ := bare
  have taken : assigned s.rest = some (name, rest) :=
    assigned_eq_some_iff.mpr ⟨gap, gap', whole, isName, blank, blank', stops_of_closer closes⟩
  have noQuote : assignedQuote s.rest = none := by
    rw [assignedQuote, Scan.andThen, taken]
    cases rest with
    | nil => rfl
    | cons c rest =>
      cases closes c rfl
      rfl
  have ended : code ListForm.markup.isTerminator {} rest = .ok ([], rest) := by
    cases rest with
    | nil => rfl
    | cons c rest =>
      cases closes c rfl
      rfl
  obtain ⟨s₁, scanned, left⟩ := Spot.exists_scan? taken (assigned_ends _ _ _ taken)
  have read : readCode .markup s₁ = .ok ([], s₁.advance 0) := by
    rw [readCode, left, ended]
    rfl
  refine ⟨s₁.advance 0, ?_⟩
  rw [readMarkupEntry, Spot.scan?, noQuote]
  simp only [scanned, read]
  rfl

/-! ## Lists -/

theorem readEntry_valued (placed : s.Placed lines) (read : readEntry form s = .ok (entry, s')) :
    Valued lines entry := by
  cases readsEntry_of_ok read with
  | text | hostText => exact .text _ _
  | @code name code s₁ _ _ scanned coded =>
    cases blank : allBlank code with
    | false => exact .code blank
    | true =>
      obtain ⟨gap, gap', whole, isName, blankGap, blankGap', stops⟩ :=
        assigned_eq_some_iff.mp (Spot.rest_of_scan? assigned_ends scanned)
      have ended := isTerminator_of_readCode stops coded blank
      cases readCode_blank coded blank
      refine .bare (List.mem_of_getElem? placed.line) (List.suffix_append s.done s.rest)
        ⟨isName, gap, gap', s₁.rest, whole, blankGap, blankGap', fun c first => ?_⟩
      -- Of the characters that end a code, the spaces are blanks.
      have ends := ended c first
      have ink := stops c first
      simp only [ListForm.isTerminator, Bool.or_eq_true, beq_iff_eq] at ends
      rcases ends with (rfl | rfl) | rfl
      · exact absurd ink (by decide)
      · exact absurd ink (by decide)
      · rfl
  | alone => exact .code (by decide)
  | hostCode _ _ coded filled =>
    refine .code (Bool.eq_false_iff.mpr fun blank => ?_)
    rw [readCode_blank coded blank] at filled
    nomatch filled

theorem readEntries_valued (form : ListForm) (known : ∀ e ∈ entries, Valued lines e)
    (placed : s.Placed lines) :
    Yields (Reading.Valued lines) (fun _ => True) (readEntries form entries s) := by
  fun_induction readEntries form entries s with
  | case1 | case2 => exact known
  | case3 => trivial
  | case4 entries s _ _ entry after found ih =>
    have valued := readEntry_valued (placed.advance _) found
    exact ih (List.forall_mem_append.mpr ⟨known, List.forall_mem_singleton.mpr valued⟩)
      ((readEntry_placed (placed.advance _) form).of_ok found)

theorem readShortcuts_valued (known : ∀ e ∈ entries, Valued lines e) (s : Spot) :
    ∀ e ∈ (readShortcuts entries s).1, Valued lines e := by
  fun_induction readShortcuts entries s with
  | case1 => exact known
  | case2 entries s sign name after found ih =>
    exact ih
      (List.forall_mem_append.mpr ⟨known, List.forall_mem_singleton.mpr (.shortcut sign name)⟩)

theorem read_valued (placed : s.Placed lines) :
    Yields (Reading.Valued lines) (fun _ => True) (Attribute.read s) := by
  have shortcuts : ∀ e ∈ (readShortcuts [] s).1, Valued lines e :=
    readShortcuts_valued (List.forall_mem_nil _) s
  have there := readShortcuts_placed [] placed
  simp only [Attribute.read]
  split
  next scanned => exact readEntries_valued .markup shortcuts (there.scan? scanned)
  next =>
    split
    next scanned => exact readEntries_valued .host shortcuts (there.scan? scanned)
    next => exact shortcuts

end MarkupTemplate.Attribute
