import MarkupTemplate.Proofs.Attribute.Apart
import MarkupTemplate.Proofs.Outline.Switched

/-!
# The place of an output mark

An output mark stands behind the indentation of a line, or behind a tag with its attributes and
angle brackets. Two lines with different marks there do the same up to it, and take the same code
behind it (`step_remarked`). If the marks are `&=` and `=`, the two templates are both refused or
their trees differ by one switch (`ofSource_remarked`).
-/

namespace MarkupTemplate

open List
open Scan (andThen exactly)

open Text (Apart after?)

/-- Two texts that are the same but for `&=` in the first and `=` in the second, before `tail`. -/
abbrev Text.Remarked (tail : Text) : Text → Text → Prop :=
  Apart '&' '=' ('=' :: tail) tail

theorem Text.allBlank_of_trimLeft {s t : Text} (trimmed : trimLeft (s ++ t) = t) : allBlank s := by
  have whole : (s ++ t).takeWhile isBlank ++ trimLeft (s ++ t) = s ++ t :=
    takeWhile_append_dropWhile
  rw [trimmed] at whole
  have blank : ∀ c ∈ (s ++ t).takeWhile isBlank, isBlank c := fun _ => mem_takeWhile_imp
  rw [append_cancel_right whole] at blank
  exact all_eq_true.mpr blank

open Text (Remarked)

variable {tail : Text}

/-! ## Marks -/

namespace Mark

theorem tag_remarked : Scan.Steady (Remarked tail) tag :=
  Scan.map_steady (Scan.andThen_steady (Scan.exactly_apart (by decide) (by decide))
    (Scan.run_apart (by decide) (by decide)))

theorem shortcutAhead_remarked : Scan.Steady (Remarked tail) shortcutAhead := by
  rintro _ _ ⟨front⟩
  have foreign : Text.isShortcutChar '&' = false ∧ Text.isShortcutChar '=' = false := by decide
  match front with
  | [] =>
    have absent : shortcutAhead ('=' :: tail) = none := by
      cases tail with
      | nil | cons c tail => rfl
    rw [nil_append, nil_append, absent]
    exact .none
  | [c] =>
    simp only [cons_append, nil_append, shortcutAhead, foreign.1, foreign.2, Bool.and_false]
    exact .none
  | c :: d :: front =>
    simp only [cons_append, shortcutAhead]
    split
    · exact .some () (.behind (c :: d :: front))
    · exact .none

theorem equals_single (modifier : Option Char) (single : tail.head? ≠ some '=') :
    equals modifier ('=' :: tail) = some ((modifier, false), tail) := by
  cases tail with
  | nil => rfl
  | cons c tail =>
    have other : c ≠ '=' := by simpa using single
    simp [equals, other]

theorem output_escaped (single : tail.head? ≠ some '=') :
    output ('&' :: '=' :: tail) = some ((some '&', false), tail) :=
  equals_single (some '&') single

theorem output_byDefault (single : tail.head? ≠ some '=') :
    output ('=' :: tail) = some ((none, false), tail) :=
  equals_single none single

end Mark

namespace Indicator

variable {t rest : Text}

theorem read_of_tag {name : Text} (found : Mark.tag t = some (name, rest)) :
    read t = some (.tag name, rest) := by
  cases t with
  | nil => nomatch found
  | cons c t =>
    by_cases percent : '%' = c
    · subst percent
      simp [read, scans, found, Scan.map, Mark.doctype, Mark.condComment, Mark.comment, andThen,
        exactly,
        after?]
    · simp [Mark.tag, Scan.map, andThen, exactly, after?, percent] at found

theorem read_of_shortcutAhead (found : Mark.shortcutAhead t = some ((), rest)) :
    read t = some (.shortcut, rest) := by
  match t with
  | [] | [c] => nomatch found
  | c :: d :: t =>
    have sign : c = '.' ∨ c = '#' := by
      simp only [Mark.shortcutAhead] at found
      split at found
      · next ahead => simpa using (Bool.and_eq_true_iff.mp ahead).1
      · nomatch found
    rcases sign with rfl | rfl
    · simp [read, scans, found, Scan.map, Mark.doctype, Mark.condComment, Mark.comment, Mark.tag,
        andThen,
        exactly, after?]
    · simp [read, scans, found, Scan.map, Mark.doctype, Mark.condComment, Mark.comment, Mark.tag,
        andThen,
        exactly, after?]

theorem read_escaped (single : tail.head? ≠ some '=') :
    read ('&' :: '=' :: tail) = some (.output .escaped, tail) := by
  simp [read, scans, Scan.map, Mark.doctype, Mark.condComment, Mark.comment, Mark.tag,
    Mark.shortcutAhead,
    Mark.silent, andThen, exactly, after?, Mark.output_escaped single, OutputMark.ofParts]

theorem read_byDefault (single : tail.head? ≠ some '=') :
    read ('=' :: tail) = some (.output .byDefault, tail) := by
  have noShortcut : Mark.shortcutAhead ('=' :: tail) = none := by
    cases tail with
    | nil | cons c tail => rfl
  simp [read, scans, Scan.map, Mark.doctype, Mark.condComment, Mark.comment, Mark.tag, noShortcut,
    Mark.silent, andThen, exactly, after?, Mark.output_byDefault single, OutputMark.ofParts]

end Indicator

theorem Concur.agree {ε α β : Type} {related : α → β → Prop} {x : Except ε α} {y : Except ε β}
    (concur : Concur related x y) : Agree related x y := by
  cases concur with
  | ok here => exact .ok here
  | error e => exact .error e e

namespace Outline

/-! ## Places -/

/-- The place behind angle brackets, if there are any. -/
def behindAngles (spot : Spot) : Spot :=
  match spot.scan? Mark.angles with
  | some (_, after) => after
  | none => spot

/-- The place where the content of a tag starts, if its attributes are complete. -/
def contentPlace? : Attribute.Reading → Option Spot
  | .complete _ spot => some (behindAngles spot).skipBlanks
  | .continues _ _ _ => none

/-- Where an output mark may stand in a line by itself: behind a tag's attributes, or at first. -/
def linePlace? (spot : Spot) : Option Spot :=
  match spot.scan? Mark.tag with
  | some (_, after) => (Attribute.read after).toOption.bind contentPlace?
  | none =>
    match spot.scan? Mark.shortcutAhead with
    | some (_, after) => (Attribute.read after).toOption.bind contentPlace?
    | none => some spot

/-- Where an output mark may stand in the next line: not in a comment, text block or broken code. -/
def outputPlace? (o : Options) (s : State) (line : Text) : Option Spot :=
  match s.pending with
  | .nothing => linePlace? (Spot.start (s.number + 1) line).skipBlanks
  | .silent | .text _ _ =>
    if nested o s line then none else linePlace? (Spot.start (s.number + 1) line).skipBlanks
  | .attributes form entries _ _ _ =>
    (Attribute.resume form entries (s.number + 1) line).toOption.bind contentPlace?
  | .code _ _ => none

/-! ## Tags -/

variable {o : Options} {inTag : Bool} {spot spot' place : Spot}

theorem skipBlanks_remarked (remarked : Remarked tail spot.rest spot'.rest) :
    Remarked tail spot.skipBlanks.rest spot'.skipBlanks.rest :=
  Spot.advance_apart (by decide) (by decide) remarked

theorem tagContent_remarked (s : State) (head : TagHead)
    (remarked : Remarked tail spot.rest spot'.rest)
    (single : tail.head? ≠ some '=') (here : spot.skipBlanks.rest = '&' :: '=' :: tail) :
    Agree (State.Switched inTag) (tagContent s head spot) (tagContent s head spot') := by
  have skipped := skipBlanks_remarked remarked
  rw [here] at skipped
  have there : spot'.skipBlanks.rest = '=' :: tail := skipped.eq_cons
  obtain ⟨ink, ink'⟩ : spot.atEnd = false ∧ spot'.atEnd = false :=
    remarked.allBlank_eq (by decide) (by decide)
  have left : tail <:+ spot.rest := by
    have ahead : spot.skipBlanks.rest <:+ spot.rest := drop_suffix _ _
    rw [here] at ahead
    exact (suffix_append ['&', '='] tail).trans ahead
  have left' : tail <:+ spot'.rest := by
    have ahead : spot'.skipBlanks.rest <:+ spot'.rest := drop_suffix _ _
    rw [there] at ahead
    exact (suffix_cons '=' tail).trans ahead
  rw [Spot.rest_skipBlanks] at here there
  obtain ⟨after, output, rest⟩ : ∃ after,
    spot.scan? Mark.tagOutput = some ((some '&', false), after) ∧ after.rest = tail :=
    Spot.exists_scan? (by rw [Mark.tagOutput, here, Mark.output_escaped single]) left
  obtain ⟨after', output', rest'⟩ : ∃ after,
    spot'.scan? Mark.tagOutput = some ((none, false), after) ∧ after.rest = tail :=
    Spot.exists_scan? (by rw [Mark.tagOutput, there, Mark.output_byDefault single]) left'
  have unclosed : (Mark.tagClosed spot.rest).isNone ∧ (Mark.tagClosed spot'.rest).isNone := by
    simp [Mark.tagClosed, here, there]
  unfold tagContent
  rw [ink, ink', unclosed.1, unclosed.2, output, output']
  split
  · exact .error _ _
  · simp only [Spot.atEnd, rest, rest']
    split
    · exact .error _ _
    · exact .ok (takeCode_switched s.number s.layout _ _ _ (.tagOutput head))

theorem tagEnd_remarked (s : State) (name : Text) (entries : List Node) (extraLines : Nat)
    (remarked : Remarked tail spot.rest spot'.rest) (single : tail.head? ≠ some '=')
    (here : (behindAngles spot).skipBlanks.rest = '&' :: '=' :: tail) :
    Agree (State.Switched inTag) (tagEnd s name entries extraLines spot)
    (tagEnd s name entries extraLines spot') := by
  have angles := Spot.scan?_apart (Mark.angles_apart (by decide) (by decide)) remarked
  unfold behindAngles at here
  unfold tagEnd
  generalize spot.scan? Mark.angles = found at angles here
  generalize spot'.scan? Mark.angles = found' at angles
  cases angles with
  | some a left => exact tagContent_remarked s _ left single here
  | none => exact tagContent_remarked s _ remarked single here

theorem suffix_behindAngles (spot : Spot) : (behindAngles spot).skipBlanks.rest <:+ spot.rest := by
  refine (drop_suffix _ _).trans ?_
  unfold behindAngles
  split
  · next found => exact Spot.rest_suffix_of_scan? found
  · exact suffix_refl _

theorem exists_of_contentPlace {result : Except Fault Attribute.Reading}
    (found : result.toOption.bind contentPlace? = some place) :
    ∃ entries spot, result = .ok (.complete entries spot) ∧
    (behindAngles spot).skipBlanks = place := by
  cases result with
  | error fault => nomatch found
  | ok reading =>
    cases reading with
    | continues form entries spot => nomatch found
    | complete entries spot => exact ⟨entries, spot, rfl, Option.some.inj found⟩

theorem tag_remarked (s : State) (name : Text) (remarked : Remarked tail spot.rest spot'.rest)
    (single : tail.head? ≠ some '=')
    (found : (Attribute.read spot).toOption.bind contentPlace? = some place)
    (here : place.rest = '&' :: '=' :: tail) :
    Agree (State.Switched inTag) (tag s name spot) (tag s name spot') := by
  obtain ⟨entries, after, read, rfl⟩ := exists_of_contentPlace found
  obtain ⟨after', read', left⟩ :=
    Attribute.read_apart (by decide) (by decide) remarked read (here ▸ suffix_behindAngles after)
  rw [tag, tag, read, read']
  exact tagEnd_remarked s name entries 0 left single here

/-! ## Lines -/

theorem dispatch_remarked (s : State) (remarked : Remarked tail spot.rest spot'.rest)
    (single : tail.head? ≠ some '=')
    (found : linePlace? spot = some place) (here : place.rest = '&' :: '=' :: tail)
    (first : spot.rest = '&' :: '=' :: tail → inTag = false) :
    Agree (State.Switched inTag) (dispatch o s spot) (dispatch o s spot') := by
  have tags := Spot.scan?_apart Mark.tag_remarked remarked
  have shortcuts := Spot.scan?_apart Mark.shortcutAhead_remarked remarked
  unfold linePlace? at found
  generalize named : spot.scan? Mark.tag = result at tags found
  generalize named' : spot'.scan? Mark.tag = result' at tags
  cases tags with
  | some name left =>
    rw [dispatch, dispatch, Spot.scan?_congr named fun _ => Indicator.read_of_tag,
      Spot.scan?_congr named' fun _ => Indicator.read_of_tag]
    exact tag_remarked s name left single found here
  | none =>
    dsimp only at found
    generalize ahead : spot.scan? Mark.shortcutAhead = result at shortcuts found
    generalize ahead' : spot'.scan? Mark.shortcutAhead = result' at shortcuts
    cases shortcuts with
    | some _ left =>
      rw [dispatch, dispatch, Spot.scan?_congr ahead fun _ => Indicator.read_of_shortcutAhead,
        Spot.scan?_congr ahead' fun _ => Indicator.read_of_shortcutAhead]
      exact tag_remarked s _ left single found here
    | none =>
      cases found
      rw [here] at remarked
      have there : spot'.rest = '=' :: tail := remarked.eq_cons
      obtain ⟨after, output, rest⟩ :
          ∃ after, spot.scan? Indicator.read = some (.output .escaped, after) ∧ after.rest = tail :=
        Spot.exists_scan? (by rw [here, Indicator.read_escaped single])
          (here ▸ suffix_append ['&', '='] tail)
      obtain ⟨after', output', rest'⟩ :
          ∃ after, spot'.scan? Indicator.read = some (.output .byDefault, after) ∧
            after.rest = tail :=
        Spot.exists_scan? (by rw [there, Indicator.read_byDefault single])
          (there ▸ suffix_cons '=' tail)
      rw [dispatch, dispatch, output, output']
      simp only [marked, Spot.atEnd, rest, rest']
      split
      · exact .error _ _
      · exact .ok (takeCode_switched s.number s.layout _ _ _ (.output (first here)))

section Lines

variable {line line' : Text} (remarked : Remarked tail line line')

include remarked

theorem nested_remarked (s : State) : nested o s line = nested o s line' := by
  obtain ⟨ink, ink'⟩ := remarked.allBlank_eq (by decide) (by decide)
  rw [nested, nested, ink, ink', Indent.width_apart o.tabSize (by decide) (by decide) remarked]

variable (single : tail.head? ≠ some '=') (here : place.rest = '&' :: '=' :: tail)
  (first : Text.trimLeft line = '&' :: '=' :: tail → inTag = false)

include single here first

theorem fresh_remarked (s : State)
    (found : linePlace? (Spot.start s.number line).skipBlanks = some place) :
    Agree (State.Switched inTag) (fresh o s line) (fresh o s line') := by
  obtain ⟨ink, ink'⟩ := remarked.allBlank_eq (by decide) (by decide)
  have begun : Remarked tail (Spot.start s.number line).skipBlanks.rest
    (Spot.start s.number line').skipBlanks.rest :=
    skipBlanks_remarked remarked
  unfold fresh
  rw [ink, ink', Indent.width_apart o.tabSize (by decide) (by decide) remarked]
  simp only [Bool.false_eq_true, if_false]
  split
  · exact .error _ _
  · exact dispatch_remarked _ begun single found here fun start =>
      first ((Spot.rest_skipBlanks _).symm.trans start)

theorem step_remarked (s : State) (found : outputPlace? o s line = some place) :
    Agree (State.Switched inTag) (step o s line) (step o s line') := by
  obtain ⟨number, layout, pending⟩ := s
  cases pending with
  | nothing => exact fresh_remarked remarked single here first _ found
  | silent =>
    have same := nested_remarked (o := o) remarked ⟨number + 1, layout, .silent⟩
    simp only [outputPlace?] at found
    split at found
    next => cases found
    next outside =>
      have outside : nested o ⟨number + 1, layout, .silent⟩ line = false :=
        eq_false_of_ne_true outside
      simp only [step, ← same, outside, Bool.false_eq_true, if_false]
      exact fresh_remarked remarked single here first _ found
  | text block use =>
    have same := nested_remarked (o := o) remarked ⟨number + 1, layout, .text block use⟩
    obtain ⟨ink, ink'⟩ := remarked.allBlank_eq (by decide) (by decide)
    simp only [outputPlace?] at found
    split at found
    next => cases found
    next outside =>
      have outside : nested o ⟨number + 1, layout, .text block use⟩ line = false :=
        eq_false_of_ne_true outside
      have numbered : (State.finishText ⟨number + 1, layout, .text block use⟩ block use).number =
          number + 1 := by
        cases use with
        | embedded | comment | tag => rfl
      simp only [step, textLine, ink, ink', ← same, outside, Bool.false_eq_true, if_false]
      exact fresh_remarked remarked single here first _ (numbered.symm ▸ found)
  | attributes form entries left name extraLines =>
    have begun : Remarked tail (Spot.start (number + 1) line).skipBlanks.rest
        (Spot.start (number + 1) line').skipBlanks.rest := skipBlanks_remarked remarked
    obtain ⟨entries', after, read, rfl⟩ := exists_of_contentPlace found
    obtain ⟨after', read', left⟩ :=
      Attribute.readEntries_apart begun read (here ▸ suffix_behindAngles after)
    simp only [step, Attribute.resume] at read ⊢
    rw [read, read']
    exact tagEnd_remarked _ name entries' (extraLines + 1) left single here
  | code text use => cases found

theorem ofLines_remarked {s : State} {before : List Text} (read : before.foldlM (step o) {} = .ok s)
    (found : outputPlace? o s line = some place) (after : List Text) :
    Agree (Node.Switched inTag) (ofLines o (before ++ line :: after))
    (ofLines o (before ++ line' :: after)) := by
  rw [ofLines_of_run read, ofLines_of_run read]
  refine (step_remarked remarked single here first s found).bind fun s s' _ switched => ?_
  exact ((foldlM_switched switched after).bind fun _ _ => finish_switched).agree

end Lines

/-! ## Templates -/

/-- Whether the template `front`, `&=` and `back` has an output mark between the two. -/
def isOutputMark (o : Options) (front back : Text) : Bool :=
  match (Source.linesBefore front).foldlM (step o) {} with
  | .error _ => false
  | .ok s =>
    match outputPlace? o s (Source.lineStart front ++ "&=" ++ Source.lineEnd back) with
    | none => false
    | some place =>
      place.rest == "&=" ++ Source.lineEnd back && (Source.lineEnd back).head? != some '='

/-- Whether the line in which a text ends has begun: there is more than its indentation. -/
def isBegun (front : Text) : Bool :=
  !Text.allBlank (Source.lineStart front)

/-- With `=` in place of the output mark `&=`, a template is refused too, or differs by a switch. -/
theorem ofSource_remarked {front back : Text} (mark : isOutputMark o front back) :
    Agree (Node.Switched (isBegun front)) (ofSource o (front ++ "&=" ++ back))
      (ofSource o (front ++ "=" ++ back)) := by
  unfold isOutputMark at mark
  split at mark
  next => nomatch mark
  next s read =>
    split at mark
    next => nomatch mark
    next place found =>
      simp only [Bool.and_eq_true, beq_iff_eq, bne_iff_ne] at mark
      obtain ⟨here, single⟩ := mark
      rw [ofSource, ofSource, Source.lines_around (by decide) (by decide),
        Source.lines_around (by decide) (by decide)]
      refine ofLines_remarked ?_ single here ?_ read found _
      · rw [append_assoc, append_assoc]
        exact .behind _
      · intro start
        rw [append_assoc] at start
        rw [isBegun, Text.allBlank_of_trimLeft start]
        rfl

end Outline

end MarkupTemplate
