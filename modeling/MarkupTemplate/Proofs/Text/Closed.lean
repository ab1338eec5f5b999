import Mathlib.Data.List.Induction
import MarkupTemplate.Proofs.Attribute.Read
import MarkupTemplate.Interpolation

/-!
# Closed code

Three readers look for the brace that closes interpolated code. One takes a text apart and one tells
where the first code starts that is not closed; they agree (`unclosed?_eq_none_iff`). The third
looks for the end of a quoted text and takes the character behind a backslash as it is, also inside
code. So it may end a text early, but only at an opening brace behind a backslash: a quoted text
without one is closed (`isClosed_of_quoted?`).
-/

namespace MarkupTemplate

open List
open Text (isBlank cons_of_snoc trimRight trim)

/-! ## Characters and runs

`segments?` takes runs of plain characters at once, and `unclosed?` one character at a time.
`segments?` meets the equations of a reader that takes single characters (`segments?_char`), so what
is said about it can be shown by the induction that belongs to `unclosed?`.
-/

namespace Interpolation

/-- Adds a literal character in front of segments. -/
def consChar (c : Char) : List Segment → List Segment
  | .literal text :: segments => .literal (c :: text) :: segments
  | segments => .literal [c] :: segments

theorem consText_singleton (c : Char) : consText [c] = consChar c := by
  funext segments
  cases segments with
  | nil => rfl
  | cons segment segments =>
    cases segment with
    | literal text | code text => rfl

theorem consText_cons (c d : Char) (text : Text) (segments : List Segment) :
    consText (c :: d :: text) segments = consChar c (consText (d :: text) segments) := by
  cases segments with
  | nil => rfl
  | cons segment segments =>
    cases segment with
    | literal text | code text => rfl

/-! ## Equations -/

theorem segments?_escape (t : Text) :
    segments? ('\\' :: '#' :: '\x7b' :: t) =
      (segments? t).map fun segments => consChar '#' (consChar '\x7b' segments) := by
  rw [segments?]
  congr 1
  funext segments
  exact (consText_cons '#' '\x7b' [] segments).trans (by rw [consText_singleton])

theorem segments?_double (t : Text) :
    segments? ('\\' :: '\\' :: t) = (segments? t).map (consChar '\\') := by
  rw [segments?, ← consText_singleton]
  rfl

theorem segments?_code (t : Text) :
    segments? ('#' :: '\x7b' :: t) =
      match expression? 0 t with
      | none => none
      | some (code, rest) => (segments? rest).map (.code code :: ·) := by
  rw [segments?]
  split
  next unclosed => rw [unclosed]
  next code rest closed => rw [closed]

/-- A plain character goes in front of the run behind it. -/
theorem segments?_plain {c : Char} (plain : isPlain c) (t : Text) :
    segments? (c :: t) = (segments? t).map (consChar c) := by
  have run : ∀ {c : Char} (t : Text), isPlain c → segments? (c :: t) =
      (segments? (t.dropWhile isPlain)).map (consText (c :: t.takeWhile isPlain)) := by
    intro c t plain
    obtain ⟨noCode, noEscape⟩ : c ≠ '#' ∧ c ≠ '\\' := by simpa [isPlain] using plain
    rw [segments?, if_pos plain]
    · exact fun _ same => absurd same noEscape
    · exact fun _ same => absurd same noEscape
    · exact fun _ same => absurd same noCode
  rw [run t plain]
  cases t with
  | nil =>
    rw [takeWhile_nil, dropWhile_nil, consText_singleton]
  | cons d t =>
    by_cases next : isPlain d
    · rw [run t next, takeWhile_cons_of_pos next, dropWhile_cons_of_pos next, Option.map_map]
      congr 1
      funext segments
      exact consText_cons c d _ segments
    · rw [takeWhile_cons_of_neg next, dropWhile_cons_of_neg next, consText_singleton]

/-- A character that begins neither code nor an escape stands for itself. -/
theorem segments?_char {c : Char} {t : Text}
    (noEscape : ∀ u, c = '\\' → t = '#' :: '\x7b' :: u → False)
    (noDouble : ∀ u, c = '\\' → t = '\\' :: u → False)
    (noCode : ∀ u, c = '#' → t = '\x7b' :: u → False) :
    segments? (c :: t) = (segments? t).map (consChar c) := by
  by_cases plain : isPlain c
  · exact segments?_plain plain t
  · rw [segments?, if_neg plain, consText_singleton]
    · exact noEscape
    · exact noDouble
    · exact noCode

theorem segments?_cons {c : Char} (noEscape : c ≠ '\\') (noCode : c ≠ '#') (t : Text) :
    segments? (c :: t) = (segments? t).map (consChar c) :=
  segments?_plain (by simp [isPlain, noEscape, noCode]) t

/-- Whether every code in a text is closed. -/
def isClosed (t : Text) : Bool :=
  (segments? t).isSome

theorem isClosed_nil : isClosed [] = true := by
  rw [isClosed, segments?_nil]
  rfl

variable {c : Char} {t : Text} {depth : Nat}

theorem isClosed_cons (noEscape : ∀ u, c = '\\' → t ≠ '#' :: '\x7b' :: u)
    (noDouble : ∀ u, c = '\\' → t ≠ '\\' :: u)
    (noCode : ∀ u, c = '#' → t ≠ '\x7b' :: u) : isClosed (c :: t) = isClosed t := by
  rw [isClosed, segments?_char noEscape noDouble noCode, Option.isSome_map, isClosed]

theorem isClosed_plain (noEscape : c ≠ '\\') (noCode : c ≠ '#') (t : Text) :
    isClosed (c :: t) = isClosed t :=
  isClosed_cons (fun _ same => absurd same noEscape) (fun _ same => absurd same noEscape)
    fun _ same => absurd same noCode

theorem isClosed_escape (t : Text) : isClosed ('\\' :: '#' :: '\x7b' :: t) = isClosed t := by
  rw [isClosed, segments?_escape, Option.isSome_map, isClosed]

theorem isClosed_double (t : Text) : isClosed ('\\' :: '\\' :: t) = isClosed t := by
  rw [isClosed, segments?_double, Option.isSome_map, isClosed]

theorem isClosed_code (t : Text) :
    isClosed ('#' :: '\x7b' :: t) = (expression? 0 t).any fun found => isClosed found.2 := by
  rw [isClosed, segments?_code]
  cases expression? 0 t with
  | none => rfl
  | some found => exact Option.isSome_map ..

theorem unclosed?_eq_none_iff (t : Text) : unclosed? t = none ↔ isClosed t := by
  fun_induction unclosed? t with
  | case1 => simp [isClosed_nil]
  | case2 t ih => rw [Option.map_eq_none_iff, ih, isClosed_escape]
  | case3 t ih => rw [Option.map_eq_none_iff, ih, isClosed_double]
  | case4 t unclosed => simp [isClosed_code, unclosed]
  | case5 t code rest closed ih => rw [Option.map_eq_none_iff, ih, isClosed_code, closed]; rfl
  | case6 c t noEscape noDouble noCode ih =>
    rw [Option.map_eq_none_iff, ih, isClosed_cons]
    · exact noEscape
    · exact noDouble
    · exact noCode

/-! ## Blanks around a text -/

theorem ne_of_isBlank (blank : isBlank c) : c ≠ '\\' ∧ c ≠ '#' ∧ c ≠ '\x7b' ∧ c ≠ '\x7d' := by
  refine ⟨?_, ?_, ?_, ?_⟩
  all_goals
    rintro rfl
    exact absurd blank (by decide)

theorem isClosed_append {front : Text} (blanks : ∀ c ∈ front, isBlank c) (t : Text) :
    isClosed (front ++ t) = isClosed t := by
  induction front with
  | nil => rfl
  | cons c front ih =>
    have own := ne_of_isBlank (blanks c (.head _))
    rw [cons_append, isClosed_plain own.1 own.2.1, ih fun d mem => blanks d (.tail _ mem)]

theorem expression?_snoc {d : Char} (noOpen : d ≠ '\x7b') (noClose : d ≠ '\x7d') (depth : Nat)
    (t : Text) : expression? depth (t ++ [d]) =
      (expression? depth t).map fun (code, rest) => (code, rest ++ [d]) := by
  fun_induction expression? depth t with
  | case1 depth => simp [expression?, noOpen, noClose]
  | case2 depth t ih =>
    simp only [cons_append, expression?, ↓reduceIte, ih, Option.map_map]
    rfl
  | case3 t different => simp [expression?]
  | case4 t depth different ih =>
    simp only [cons_append, expression?, ↓reduceIte, different, ih, Option.map_map]
    rfl
  | case5 depth c t notOpen notClose ih =>
    simp only [cons_append, expression?, ↓reduceIte, notOpen, notClose, ih, Option.map_map]
    rfl

theorem isClosed_snoc (blank : isBlank c) (t : Text) : isClosed (t ++ [c]) = isClosed t := by
  obtain ⟨noEscape, noCode, noOpen, noClose⟩ := ne_of_isBlank blank
  induction t using unclosed?.induct with
  | case1 => exact isClosed_plain noEscape noCode []
  | case2 t ih =>
    rw [isClosed_escape, ← ih]
    exact isClosed_escape _
  | case3 t ih =>
    rw [isClosed_double, ← ih]
    exact isClosed_double _
  | case4 t unclosed =>
    show isClosed ('#' :: '\x7b' :: (t ++ [c])) = _
    rw [isClosed_code, isClosed_code, expression?_snoc noOpen noClose, unclosed]
    rfl
  | case5 t code rest closed ih =>
    show isClosed ('#' :: '\x7b' :: (t ++ [c])) = _
    rw [isClosed_code, isClosed_code, expression?_snoc noOpen noClose, closed]
    exact ih
  | case6 d t single double code ih =>
    rw [cons_append, isClosed_cons, ih, isClosed_cons single double code]
    · rintro u rfl same
      obtain ⟨t', rfl, behind⟩ := cons_of_snoc noCode.symm same
      obtain ⟨t'', rfl, _⟩ := cons_of_snoc noOpen.symm behind
      exact single t'' rfl rfl
    · rintro u rfl same
      obtain ⟨t', rfl, _⟩ := cons_of_snoc noEscape.symm same
      exact double t' rfl rfl
    · rintro u rfl same
      obtain ⟨t', rfl, _⟩ := cons_of_snoc noOpen.symm same
      exact code t' rfl rfl

theorem isClosed_trimLeft (t : Text) : isClosed (Text.trimLeft t) = isClosed t := by
  have front : ∀ c ∈ t.takeWhile isBlank, isBlank c := fun c mem => List.mem_takeWhile_imp mem
  have whole : t.takeWhile isBlank ++ Text.trimLeft t = t := List.takeWhile_append_dropWhile
  rw [← isClosed_append front, whole]

theorem isClosed_trimRight (t : Text) : isClosed (trimRight t) = isClosed t := by
  induction t using List.reverseRecOn with
  | nil => rfl
  | append_singleton t c ih =>
    cases blank : isBlank c with
    | true =>
      rw [Text.trimRight_append_of_eq_nil t (by simp [trimRight, blank]), ih, isClosed_snoc blank]
    | false =>
      have kept : trimRight [c] = [c] := by simp [trimRight, blank]
      rw [Text.trimRight_append_of_ne_nil t (by simp [kept]), kept]

theorem isClosed_trim (t : Text) : isClosed (trim t) = isClosed t := by
  rw [trim, isClosed_trimRight, isClosed_trimLeft]

/-! ## Inside code -/

/-- Whether every code is closed in a text that starts `depth` braces deep in code. -/
def ClosedAt : (depth : Nat) → Text → Prop
  | 0, t => isClosed t
  | depth + 1, t => ∃ code rest, expression? depth t = some (code, rest) ∧ isClosed rest

theorem closedAt_code (closed : ClosedAt 1 t) : isClosed ('#' :: '\x7b' :: t) := by
  obtain ⟨code, rest, found, closed⟩ := closed
  rw [isClosed_code, found]
  exact closed

theorem closedAt_open (closed : ClosedAt (depth + 2) t) : ClosedAt (depth + 1) ('\x7b' :: t) := by
  obtain ⟨code, rest, found, closed⟩ := closed
  exact ⟨'\x7b' :: code, rest, by simp [expression?, found], closed⟩

theorem closedAt_close (closed : ClosedAt depth t) : ClosedAt (depth + 1) ('\x7d' :: t) := by
  cases depth with
  | zero => exact ⟨[], t, by rw [expression?]; rfl, closed⟩
  | succ depth =>
    obtain ⟨code, rest, found, closed⟩ := closed
    exact ⟨'\x7d' :: code, rest, by simp [expression?, found], closed⟩

theorem closedAt_cons (noOpen : c ≠ '\x7b') (noClose : c ≠ '\x7d')
    (closed : ClosedAt (depth + 1) t) : ClosedAt (depth + 1) (c :: t) := by
  obtain ⟨code, rest, found, closed⟩ := closed
  exact ⟨c :: code, rest, by simp [expression?, noOpen, noClose, found], closed⟩

end Interpolation

/-! ## Quoted texts -/

namespace Attribute

open Interpolation

def escapedBrace : Text := ['\\', '\x7b']

variable {t text rest : Text} {c quote : Char} {depth : Nat}

theorem not_infix_of_cons {mark : Text} (free : ¬mark <:+: c :: t) : ¬mark <:+: t :=
  fun found => free (found.trans (List.infix_cons (List.infix_refl t)))

theorem closedAt_pair (noOpen : c ≠ '\x7b') (closed : ∀ p ≤ depth, ClosedAt p t) :
    ∀ p ≤ depth, ClosedAt p ('\\' :: c :: t) := by
  intro p le
  cases p with
  | zero =>
    have here : isClosed t := closed 0 le
    show isClosed ('\\' :: c :: t)
    by_cases double : c = '\\'
    · rw [double, isClosed_double]
      exact here
    by_cases escape : c = '#' ∧ ∃ u, t = '\x7b' :: u
    · obtain ⟨rfl, u, rfl⟩ := escape
      rw [isClosed_escape]
      rwa [isClosed_plain (by decide) (by decide)] at here
    · rw [isClosed_cons, isClosed_cons]
      · exact here
      · exact fun _ same => absurd same double
      · exact fun _ same => absurd same double
      · exact fun u sharp same => escape ⟨sharp, u, same⟩
      · exact fun u _ same => escape ⟨(List.cons.inj same).1, u, (List.cons.inj same).2⟩
      · exact fun u _ same => double (List.cons.inj same).1
      · exact fun u never => absurd never (by decide)
  | succ p =>
    refine closedAt_cons (by decide) (by decide) ?_
    by_cases close : c = '\x7d'
    · rw [close]
      exact closedAt_close (closed p (Nat.le_of_succ_le le))
    · exact closedAt_cons noOpen close (closed (p + 1) le)

theorem isClosed_of_rest (noPair : c ≠ '\\') (closed : isClosed t)
    (opens : c = '#' → ∀ u, t = '\x7b' :: u → ClosedAt 1 u) : isClosed (c :: t) := by
  by_cases code : c = '#' ∧ ∃ u, t = '\x7b' :: u
  · obtain ⟨rfl, u, rfl⟩ := code
    exact closedAt_code (opens rfl u rfl)
  · rw [isClosed_cons]
    · exact closed
    · exact fun _ same => absurd same noPair
    · exact fun _ same => absurd same noPair
    · exact fun u sharp same => code ⟨sharp, u, same⟩

/-- What the other readers find in a quoted text. They may be less deep in code than this reader,
since a closing brace behind a backslash counts for them, but never deeper. Where only this reader
is inside code, an opening brace may yet start code for them. -/
theorem closedAt_of_quoted? (read : quoted? quote depth t = some (text, rest))
    (free : ¬escapedBrace <:+: text) :
    (∀ p ≤ depth, ClosedAt p text) ∧ (0 < depth → ∀ u, text = '\x7b' :: u → ClosedAt 1 u) := by
  fun_induction quoted? quote depth t generalizing text rest with
  | case1 => cases read
  | case2 depth c t ih =>
    obtain ⟨⟨inner, after⟩, found, same⟩ := Option.map_eq_some_iff.mp read
    cases same
    have noOpen : c ≠ '\x7b' := by
      rintro rfl
      exact free ⟨[], inner, rfl⟩
    refine ⟨closedAt_pair noOpen (ih found (not_infix_of_cons (not_infix_of_cons free))).1, ?_⟩
    rintro _ _ ⟨⟩
  | case3 t ih =>
    obtain ⟨⟨inner, after⟩, found, same⟩ := Option.map_eq_some_iff.mp read
    cases same
    have closed := (ih found (not_infix_of_cons (not_infix_of_cons free))).1 1 (Nat.le_refl 1)
    refine ⟨fun p le => ?_, fun positive => absurd positive (Nat.lt_irrefl 0)⟩
    cases Nat.le_zero.mp le
    exact closedAt_code closed
  | case4 c t =>
    cases read
    refine ⟨fun p le => ?_, by rintro _ _ ⟨⟩⟩
    cases Nat.le_zero.mp le
    exact isClosed_nil
  | case5 c t noPair noCode other ih =>
    obtain ⟨⟨inner, after⟩, found, same⟩ := Option.map_eq_some_iff.mp read
    cases same
    have whole := quoted?_append found
    refine ⟨fun p le => ?_, fun positive => absurd positive (Nat.lt_irrefl 0)⟩
    cases Nat.le_zero.mp le
    refine isClosed_of_rest ?_ ((ih found (not_infix_of_cons free)).1 0 le) ?_
    · rintro rfl
      cases t with
      | nil => cases found
      | cons d t => exact noPair d t rfl rfl
    · rintro rfl u rfl
      exact (noCode _ rfl whole.symm).elim
  | case6 depth c t noPair depth' =>
    rename_i ih
    obtain ⟨⟨inner, after⟩, found, same⟩ := Option.map_eq_some_iff.mp read
    cases same
    obtain ⟨closed, opens⟩ := ih found (not_infix_of_cons free)
    have single : c ≠ '\\' := by
      rintro rfl
      cases t with
      | nil => cases found
      | cons d t => exact noPair d t rfl rfl
    constructor
    · intro p le
      cases p with
      | zero =>
        refine isClosed_of_rest single (closed 0 (Nat.zero_le _)) ?_
        rintro rfl
        exact opens (Nat.succ_pos depth)
      | succ p =>
        by_cases here : c = '\x7b'
        · have deeper : depth' = depth + 2 := by simp [depth', here]
          rw [here]
          exact closedAt_open (closed (p + 2) (by omega))
        by_cases ends : c = '\x7d'
        · have outside : depth' = depth := by simp [depth', ends]
          rw [ends]
          exact closedAt_close (closed p (by omega))
        · have kept : depth' = depth + 1 := by simp [depth', here, ends]
          exact closedAt_cons here ends (closed (p + 1) (by omega))
    · intro _ u same
      obtain ⟨rfl, rfl⟩ := List.cons.inj same
      exact closed 1 (Nat.succ_le_succ (Nat.zero_le _))

theorem isClosed_of_quoted? (read : quoted? quote 0 t = some (text, rest))
    (free : ¬escapedBrace <:+: text) : isClosed text :=
  (closedAt_of_quoted? read free).1 0 (Nat.le_refl 0)

end Attribute

end MarkupTemplate
