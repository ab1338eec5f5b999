import MarkupTemplate.Proofs.Outline.Measured
import MarkupTemplate.Proofs.Outline.Shift

/-!
# Spaces and tabs in front of a line

Of the spaces and tabs a line starts with only the indentation counts that they make. So with spaces
in place of all of them a template is read into the same tree, or refused in the same line for the
same cause (`ofSource_expandTabs`). Two lines are `Indent.Alike` if they have the same indentation
and are the same behind their spaces and tabs. What is read of them differs only in the part of a
line in front of some place: the places stay `Spot.Alike`.
-/

namespace MarkupTemplate

open List
open Text (isBlank trimLeft allBlank)

namespace Indent

/-! ## Lines with the same indentation -/

def isSpace (c : Char) : Bool :=
  c == ' ' || c == '\t'

def content (line : Text) : Text :=
  line.dropWhile isSpace

/-- A line with spaces in place of the spaces and tabs it starts with. -/
def expanded (tabSize : Nat) (line : Text) : Text :=
  Text.spaces (width tabSize line) ++ content line

/-- Lines that differ in the spaces and tabs that make their indentation. -/
structure Alike (tabSize : Nat) (line line' : Text) : Prop where
  width_eq : width tabSize line = width tabSize line'
  content_eq : content line = content line'

theorem isBlank_of_isSpace {c : Char} (space : isSpace c) : isBlank c := by
  rw [isSpace, Bool.or_eq_true, beq_iff_eq, beq_iff_eq] at space
  rcases space with rfl | rfl
  · rfl
  · rfl

theorem exists_eq_append_content (line : Text) :
    ∃ lead, lead.all isSpace ∧ line = lead ++ content line :=
  ⟨line.takeWhile isSpace, all_takeWhile, takeWhile_append_dropWhile.symm⟩

theorem content_append {lead : Text} (spaces : lead.all isSpace) (t : Text) :
    content (lead ++ t) = content t :=
  dropWhile_append_of_pos (all_eq_true.mp spaces)

theorem isSpace_of_content_eq_cons {line t : Text} {c : Char} (rest : content line = c :: t) :
    isSpace c = false := by
  have first := head?_dropWhile_not isSpace line
  rw [content] at rest
  rwa [rest] at first

theorem content_content (line : Text) : content (content line) = content line := by
  cases rest : content line with
  | nil => rfl
  | cons c t =>
    rw [content, dropWhile_cons, isSpace_of_content_eq_cons rest, if_neg Bool.false_ne_true]

theorem widthFrom_content (tab col : Nat) (line : Text) :
    widthFrom tab col (content line) = col := by
  cases rest : content line with
  | nil => rfl
  | cons c t =>
    have other := isSpace_of_content_eq_cons rest
    rw [widthFrom]
    · rintro t' ⟨⟩
      exact absurd other (by decide)
    · rintro t' ⟨⟩
      exact absurd other (by decide)

theorem widthFrom_spaces_append (tab col n : Nat) (t : Text) :
    widthFrom tab col (Text.spaces n ++ t) = widthFrom tab (col + n) t := by
  induction n generalizing col with
  | zero => rfl
  | succ n ih =>
    have first : Text.spaces (n + 1) ++ t = ' ' :: (Text.spaces n ++ t) := rfl
    rw [first, widthFrom, ih, Nat.add_assoc, Nat.add_comm 1]

theorem alike_expanded (tabSize : Nat) (line : Text) :
    Alike tabSize line (expanded tabSize line) where
  width_eq := by
    rw [width, expanded, width, widthFrom_spaces_append, widthFrom_content, Nat.zero_add]
    rfl
  content_eq := by
    have spaces : (Text.spaces (width tabSize line)).all isSpace := by simp [Text.spaces, isSpace]
    rw [expanded, content_append spaces, content_content]

theorem le_widthFrom (tab col : Nat) (line : Text) : col ≤ widthFrom tab col line := by
  induction line generalizing col with
  | nil => exact le_rfl
  | cons c t ih =>
    by_cases space : isSpace c
    · simp only [isSpace, Bool.or_eq_true, beq_iff_eq] at space
      rcases space with rfl | rfl
      · exact Nat.le_of_succ_le (ih (col + 1))
      · exact Nat.le_trans (Nat.le_add_right ..) (ih (col + (tab - col % tab)))
    · have same : content (c :: t) = c :: t := by rw [content, dropWhile_cons, if_neg space]
      exact Nat.le_of_eq (same ▸ (widthFrom_content tab col (c :: t)).symm)

theorem widthFrom_append (tab col : Nat) {lead : Text} (spaces : lead.all isSpace) (t : Text) :
    widthFrom tab col (lead ++ t) = widthFrom tab (widthFrom tab col lead) t := by
  induction lead generalizing col with
  | nil => rfl
  | cons c lead ih =>
    simp only [all_cons, Bool.and_eq_true, isSpace, Bool.or_eq_true, beq_iff_eq] at spaces
    obtain ⟨rfl | rfl, spaces⟩ := spaces
    · rw [cons_append, widthFrom, widthFrom, ih _ spaces]
    · rw [cons_append, widthFrom, widthFrom, ih _ spaces]

theorem content_of_width_eq_zero {tabSize : Nat} {line : Text} (flush : width tabSize line = 0) :
    content line = line := by
  cases line with
  | nil => rfl
  | cons c t =>
    have other : isSpace c = false := by
      by_contra space
      simp only [isSpace, Bool.not_eq_false, Bool.or_eq_true, beq_iff_eq] at space
      rcases space with rfl | rfl
      · have more := le_widthFrom (max tabSize 1) 1 t
        rw [width, widthFrom, Nat.zero_add] at flush
        omega
      · have more := le_widthFrom (max tabSize 1) (max tabSize 1) t
        rw [width, widthFrom, Nat.zero_mod, Nat.sub_zero, Nat.zero_add] at flush
        omega
    rw [content, dropWhile_cons, other, if_neg Bool.false_ne_true]

section Alike

variable {tabSize : Nat} {line line' : Text} (alike : Alike tabSize line line')

include alike

theorem Alike.exists_leads : ∃ lead lead' t, lead.all isBlank ∧ lead'.all isBlank ∧
    line = lead ++ t ∧ line' = lead' ++ t := by
  have blank {lead : Text} (spaces : lead.all isSpace) : lead.all isBlank := by
    rw [all_eq_true] at spaces ⊢
    exact fun c mem => isBlank_of_isSpace (spaces c mem)
  obtain ⟨lead, spaces, whole⟩ := exists_eq_append_content line
  obtain ⟨lead', spaces', whole'⟩ := exists_eq_append_content line'
  exact ⟨lead, lead', content line, blank spaces, blank spaces', whole, alike.content_eq ▸ whole'⟩

theorem Alike.dropReturn : Alike tabSize (Source.dropReturn line) (Source.dropReturn line') := by
  have bare {lead : Text} (spaces : lead.all isSpace) : Text.endsWith '\r' lead = false := by
    rw [Text.endsWith, beq_eq_false_iff_ne]
    intro last
    exact absurd (all_eq_true.mp spaces _ (mem_of_getLast? last)) (by decide)
  obtain ⟨lead, spaces, whole⟩ := exists_eq_append_content line
  obtain ⟨lead', spaces', whole'⟩ := exists_eq_append_content line'
  have same : widthFrom (max tabSize 1) 0 lead = widthFrom (max tabSize 1) 0 lead' := by
    have widths := alike.width_eq
    rw [whole, whole', width, width, widthFrom_append _ _ spaces, widthFrom_append _ _ spaces',
      widthFrom_content,
      widthFrom_content] at widths
    exact widths
  rw [whole, whole', ← alike.content_eq, Source.dropReturn_append (bare spaces),
    Source.dropReturn_append (bare spaces')]
  refine ⟨?_, ?_⟩
  · rw [width, width, widthFrom_append _ _ spaces, widthFrom_append _ _ spaces', same]
  · rw [content_append spaces, content_append spaces']

theorem Alike.eq_of_width_eq_zero (flush : width tabSize line = 0) : line = line' := by
  rw [← content_of_width_eq_zero flush, alike.content_eq,
    content_of_width_eq_zero (alike.width_eq ▸ flush)]

theorem Alike.symm : Alike tabSize line' line :=
  ⟨alike.width_eq.symm, alike.content_eq.symm⟩

theorem Alike.eq_nil_iff : line = [] ↔ line' = [] := by
  constructor
  · rintro rfl
    exact (alike.eq_of_width_eq_zero rfl).symm
  · rintro rfl
    exact (alike.symm.eq_of_width_eq_zero rfl).symm

theorem Alike.trimLeft_eq : trimLeft line = trimLeft line' := by
  obtain ⟨lead, lead', t, blank, blank', rfl, rfl⟩ := alike.exists_leads
  rw [trimLeft, trimLeft, dropWhile_append_of_pos (all_eq_true.mp blank),
    dropWhile_append_of_pos (all_eq_true.mp blank')]

theorem Alike.allBlank_eq : allBlank line = allBlank line' := by
  obtain ⟨lead, lead', t, blank, blank', rfl, rfl⟩ := alike.exists_leads
  rw [allBlank, allBlank, all_append, all_append, blank, blank']

end Alike

end Indent

/-! ## Templates -/

/-- Places that differ at most in what has been read in front of them. -/
structure Spot.Alike (s s' : Spot) : Prop where
  number_eq : s.number = s'.number
  rest_eq : s.rest = s'.rest

theorem Spot.parallel_alike : Spot.Parallel Spot.Alike :=
  ⟨Alike.rest_eq, fun alike n => ⟨alike.number_eq, congrArg (drop n) alike.rest_eq⟩⟩

namespace Outline

section Runs

variable {o : Options} {lines lines' : List Text}
  (alike : Forall₂ (Indent.Alike o.tabSize) lines lines')

include alike

theorem foldlM_alike {number : Nat} {s s' : State}
    (states : State.Parallel Spot.Alike Eq number number s s') :
    Fault.Parallel Spot.Alike (fun s s' => ∃ number,
      State.Parallel Spot.Alike Eq number number s s')
      (lines.foldlM (step o) s) (lines'.foldlM (step o) s') := by
  induction alike generalizing number s s' with
  | nil => exact .ok ⟨number, states⟩
  | @cons line line' _ _ first _ ih =>
    have start : Spot.Alike (Spot.start (number + 1) line).skipBlanks
      (Spot.start (number + 1) line').skipBlanks :=
      ⟨rfl, by simpa only [Spot.rest_skipBlanks, Spot.start] using first.trimLeft_eq⟩
    rw [foldlM_cons, foldlM_cons]
    exact (step_parallel Spot.parallel_alike Layout.steady_eq first.width_eq states start).bind
      fun _ _ => ih

omit alike in
theorem finish_alike {number : Nat} {s s' : State}
    (states : State.Parallel Spot.Alike Eq number number s s') :
    Fault.Parallel Spot.Alike Eq (finish s) (finish s') := by
  obtain ⟨_, layout, pending⟩ := s
  obtain ⟨_, _, pending'⟩ := s'
  obtain ⟨rfl, same, rfl, pendings⟩ := states
  cases same
  cases pendings with
  | attributes _ _ _ _ here => exact .error _ here
  | nothing | silent | text => exact .ok rfl
  | code => exact .error _ ⟨rfl, rfl⟩

theorem ofLines_alike : Fault.Parallel Spot.Alike Eq (ofLines o lines) (ofLines o lines') :=
  (foldlM_alike alike (s := {}) ⟨rfl, rfl, rfl, .nothing⟩).bind fun _ _ ⟨_, states⟩ =>
    finish_alike states

end Runs

end Outline

namespace Source

/-- The byte order mark a text starts with, if there is one. -/
def orderMark : Text → Text
  | c :: _ => if c.toNat = 0xFEFF then [c] else []
  | [] => []

/-- A template with spaces in place of the spaces and tabs its lines start with. -/
def expandTabs (tabSize : Nat) (source : Text) : Text :=
  orderMark source
    ++ Text.joinWith ['\n'] ((Text.split '\n' (dropOrderMark source)).map (Indent.expanded tabSize))

theorem dropOrderMark_expanded (tabSize : Nat) {line : Text}
    (unmarked : dropOrderMark line = line) :
    dropOrderMark (Indent.expanded tabSize line) = Indent.expanded tabSize line := by
  cases whole : Indent.expanded tabSize line with
  | nil => rfl
  | cons c t =>
    rw [dropOrderMark, if_neg]
    intro mark
    have flush : Indent.width tabSize (c :: t) = 0 := by
      rw [Indent.width, Indent.widthFrom]
      · rintro t' ⟨⟩
        exact absurd mark (by decide)
      · rintro t' ⟨⟩
        exact absurd mark (by decide)
    have same := (whole ▸ Indent.alike_expanded tabSize line).symm.eq_of_width_eq_zero flush
    rw [← same, dropOrderMark, if_pos mark] at unmarked
    exact absurd unmarked (cons_ne_self c t).symm

theorem split_expandTabs (tabSize : Nat) (source : Text) :
    Text.split '\n' (dropOrderMark (expandTabs tabSize source)) =
      (Text.split '\n' (dropOrderMark source)).map (Indent.expanded tabSize) := by
  have free (t : Text) : Text.split '\n'
    (Text.joinWith ['\n'] ((Text.split '\n' t).map (Indent.expanded tabSize))) =
      (Text.split '\n' t).map (Indent.expanded tabSize) := by
    refine Text.split_joinWith (by simp [Text.split_ne_nil]) ?_
    intro part mem feed
    obtain ⟨line, found, rfl⟩ := mem_map.mp mem
    rw [Indent.expanded, mem_append] at feed
    rcases feed with feed | feed
    · exact absurd (eq_of_mem_replicate feed) (by decide)
    · exact Text.not_mem_of_mem_split found ((dropWhile_sublist _).subset feed)
  by_cases marked : dropOrderMark source = source
  · have unmarked : orderMark source = [] := by
      cases source with
      | nil => rfl
      | cons c t =>
        rw [orderMark, if_neg]
        intro mark
        rw [dropOrderMark, if_pos mark] at marked
        exact absurd marked (cons_ne_self c t).symm
    rw [expandTabs, unmarked, nil_append, split_dropOrderMark, marked, free]
    have first := split_dropOrderMark source
    rw [marked] at first
    cases parts : Text.split '\n' source with
    | nil => rfl
    | cons part parts' =>
      rw [parts, modifyHead_cons, List.cons.injEq] at first
      rw [map_cons, modifyHead_cons, dropOrderMark_expanded tabSize first.1.symm]
  · cases source with
    | nil => exact absurd rfl marked
    | cons c t =>
      have mark : c.toNat = 0xFEFF := by
        by_contra other
        exact marked (by rw [dropOrderMark, if_neg other])
      rw [expandTabs, orderMark, if_pos mark, singleton_append, dropOrderMark, if_pos mark,
        dropOrderMark,
        if_pos mark, free]

section Lines

variable {tabSize : Nat} {lines lines' : List Text}
  (alike : Forall₂ (Indent.Alike tabSize) lines lines')

include alike

theorem dropReturns_alike :
    Forall₂ (Indent.Alike tabSize) (dropReturns lines) (dropReturns lines') := by
  induction alike with
  | nil => exact .nil
  | cons first rest ih =>
    cases rest with
    | nil => exact .cons first .nil
    | cons => exact .cons first.dropReturn ih

theorem dropEmptyEnd_alike :
    Forall₂ (Indent.Alike tabSize) (dropEmptyEnd lines) (dropEmptyEnd lines') := by
  induction alike with
  | nil => exact .nil
  | @cons line line' lines lines' first _ ih =>
    rw [dropEmptyEnd, dropEmptyEnd]
    generalize dropEmptyEnd lines = kept at ih
    generalize dropEmptyEnd lines' = kept' at ih
    cases ih with
    | nil =>
      simp only [List.isEmpty_iff, first.eq_nil_iff]
      split
      · exact .nil
      · exact .cons first .nil
    | cons second rest => exact .cons first (.cons second rest)

end Lines

theorem lines_expandTabs (tabSize : Nat) (source : Text) :
    Forall₂ (Indent.Alike tabSize) (lines source) (lines (expandTabs tabSize source)) := by
  rw [lines, lines, split_expandTabs]
  refine dropEmptyEnd_alike (dropReturns_alike ?_)
  exact forall₂_map_right_iff.mpr (forall₂_same.mpr fun line _ =>
    Indent.alike_expanded tabSize line)

end Source

theorem Outline.ofSource_expandTabs (o : Options) (source : Text) :
    Fault.Parallel Spot.Alike Eq (ofSource o source)
    (ofSource o (Source.expandTabs o.tabSize source)) :=
  ofLines_alike (Source.lines_expandTabs o.tabSize source)

theorem Source.measurable_expandTabs (o : Options) (source : Text) :
    Outline.measurable o (lines source) = Outline.measurable o
      (lines (expandTabs o.tabSize source)) := by
  have alike := lines_expandTabs o.tabSize source
  rw [Outline.measurable, Outline.measurable]
  congr 1
  generalize lines source = before, lines (expandTabs o.tabSize source) = after at alike
  induction alike with
  | nil => rfl
  | cons alike _ ih => rw [all_cons, all_cons, alike.allBlank_eq, ih]

/-- Tabs and spaces in front of a line are as good as the spaces that make the same indentation: the
template has the same tree, and if it cannot be read, then for the same cause and in the same line.
This holds for text and for bytes in any encoding. -/
theorem Source.tree_expandTabs {o : Options} {source source' : Source}
    (expanded : source'.decode o = (source.decode o).map (expandTabs o.tabSize)) :
    (∀ n, source'.tree o = .ok n ↔ source.tree o = .ok n) ∧
      (∀ report, source.tree o = .error (.template report) → ∃ report',
        source'.tree o = .error (.template report') ∧
        report'.message = report.message ∧ report'.number = report.number) := by
  cases decoded : source.decode o with
  | error e =>
    have same : source'.tree o = source.tree o := by rw [tree, tree, expanded, decoded]; rfl
    rw [same]
    exact ⟨fun n => Iff.rfl, fun report refused => ⟨report, refused, rfl, rfl⟩⟩
  | ok t =>
    have alike := Outline.ofSource_expandTabs o t
    have measured := measurable_expandTabs o t
    rw [tree_of_decode decoded, tree_of_decode (expanded.trans (congrArg _ decoded)), ← measured]
    cases Outline.measurable o (lines t) with
    | false => exact ⟨fun n => Iff.rfl, by rintro _ ⟨⟩⟩
    | true =>
    rw [if_pos rfl, if_pos rfl]
    generalize Outline.ofSource o t = result at alike
    generalize Outline.ofSource o (expandTabs o.tabSize t) = result' at alike
    cases alike with
    | ok same => exact ⟨fun n => by rw [same], by rintro _ ⟨⟩⟩
    | error cause places =>
      refine ⟨fun n => ⟨by rintro ⟨⟩, by rintro ⟨⟩⟩, ?_⟩
      rintro _ ⟨⟩
      exact ⟨_, rfl, rfl, places.number_eq.symm⟩

/-- A list with a text block in it whose lines start with tabs and spaces. -/
def tabbedList : Text :=
  "%ul\n\t%li\n  \t :plain\n\t\t\ta\n\t  \t\tb\n \t%li(c=d\n\te=f)"

def spacedList : Text :=
  "%ul\n   %li\n    :plain\n         a\n         b\n   %li(c=d\n   e=f)"

theorem Source.tree_expandTabs_list :
    expandTabs 3 tabbedList = spacedList ∧
      ∃ n, (Source.text tabbedList).tree { tabSize := 3 } = .ok n ∧
        (Source.text spacedList).tree { tabSize := 3 } = .ok n := by
  have expanded : expandTabs 3 tabbedList = spacedList := by decide +kernel
  have reads : ((Source.text tabbedList).tree { tabSize := 3 }).isOk := by decide +kernel
  refine ⟨expanded, ?_⟩
  obtain ⟨n, read⟩ := exists_of_isOk reads
  have decoded : (Source.text spacedList).decode { tabSize := 3 } =
      ((Source.text tabbedList).decode { tabSize := 3 }).map (expandTabs 3) :=
        congrArg Except.ok expanded.symm
  exact ⟨n, read, ((tree_expandTabs decoded).1 n).mpr read⟩

end MarkupTemplate
