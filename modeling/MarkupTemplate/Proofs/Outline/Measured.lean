import MarkupTemplate.Compiler
import MarkupTemplate.Proofs.Node.Walk
import MarkupTemplate.Proofs.Source

/-!
# Indentations that cannot be measured

If tab stops are too far apart, blank lines are still read, but the first line that is not blank
cannot be measured. Its indentation matters, since nothing is unfinished in front of it. So a
template is read as if all lines could be measured, or not at all (`readFrom_eq`).
-/

namespace MarkupTemplate

open List
open Indent (canExpand measure?)
open Outline (ofSource)
open Text (allBlank)

namespace Outline

variable {o : Options} {s : State} {lines : List Text}

/-- Whether the lines of a template can be measured as far as that matters. -/
def measurable (o : Options) (lines : List Text) : Bool :=
  canExpand o.tabSize || lines.all allBlank

theorem measurable_eq_false_iff :
    measurable o lines = false ↔ 2147483648 ≤ o.tabSize ∧ ∃ line ∈ lines,
    allBlank line = false := by
  simp [measurable, canExpand]

theorem measurable_of_lt (near : o.tabSize < 2147483648) (lines : List Text) :
    measurable o lines := by
  rw [measurable, canExpand, decide_eq_true near, Bool.true_or]

/-- If there is a mark in a template, its line has to be measured. -/
theorem measurable_around {mark : Text} (ink : allBlank mark = false)
    (inner : mark.all Source.isInner)
    (front back : Text) :
    measurable o (Source.lines (front ++ mark ++ back)) = canExpand o.tabSize := by
  have filled : mark ≠ [] := by
    rintro rfl
    cases ink
  have here : allBlank (Source.lineStart front ++ mark ++ Source.lineEnd back) = false := by
    rw [allBlank, all_append, all_append, show mark.all Text.isBlank = false from ink,
      Bool.and_false,
      Bool.false_and]
  rw [measurable, Source.lines_around filled inner, all_append, all_cons, here, Bool.false_and,
    Bool.and_false,
    Bool.or_false]

theorem readLine_eq {line : Text} (can : canExpand o.tabSize || allBlank line) (s : State) :
    readLine o s line = (step o s line).mapError .fault := by
  refine if_neg ?_
  rcases Bool.or_eq_true _ _ ▸ can with can | blank
  · simp [measure?, can]
  · simp [State.measures, blank]

theorem foldlM_readLine (can : measurable o lines) (s : State) :
    lines.foldlM (readLine o) s = (lines.foldlM (step o) s).mapError .fault := by
  induction lines generalizing s with
  | nil => rfl
  | cons line lines ih =>
    obtain ⟨here, rest⟩ : (canExpand o.tabSize || allBlank line) ∧ measurable o lines := by
      rw [measurable, all_cons, Bool.or_and_distrib_left, Bool.and_eq_true] at can
      exact can
    rw [foldlM_cons, foldlM_cons, readLine_eq here]
    cases step o s line with
    | error fault => rfl
    | ok s => exact ih rest s

theorem readFrom_of_measurable (can : measurable o lines) :
    readFrom o {} lines = (ofLines o lines).mapError .fault := by
  rw [readFrom, ofLines, foldlM_readLine can]
  cases lines.foldlM (step o) {} with
  | error fault | ok s => rfl

theorem step_of_blank {line : Text} (idle : s.pending = .nothing) (blank : allBlank line) :
    ∃ s', step o s line = .ok s' ∧ s'.pending = .nothing := by
  refine ⟨State.close { s with number := s.number + 1 } [], ?_, rfl⟩
  unfold step
  simp only [idle, fresh, blank, if_true]

/-- The first line that is not blank stops the reading. -/
theorem foldlM_overflow (far : canExpand o.tabSize = false) (idle : s.pending = .nothing)
    (ink : lines.all allBlank = false) : lines.foldlM (readLine o) s = .error .overflow := by
  induction lines generalizing s with
  | nil => cases ink
  | cons line lines ih =>
    rw [foldlM_cons]
    cases blank : allBlank line with
    | false =>
      have measured : s.measures line = true := by simp [State.measures, blank, idle]
      rw [readLine, measured, measure?, far]
      rfl
    | true =>
      obtain ⟨s', took, idle⟩ := step_of_blank (o := o) idle blank
      rw [readLine_eq (by simp [blank]), took]
      exact ih idle (by simpa [blank] using ink)

theorem readFrom_eq (o : Options) (lines : List Text) :
    readFrom o {} lines = if measurable o lines then (ofLines o lines).mapError .fault
      else .error .overflow := by
  split
  next can => exact readFrom_of_measurable can
  next cannot =>
    obtain ⟨far, ink⟩ : canExpand o.tabSize = false ∧ lines.all allBlank = false := by
      rw [measurable, Bool.not_eq_true, Bool.or_eq_false_iff] at cannot
      exact cannot
    rw [readFrom, foldlM_overflow far rfl ink]
    rfl

end Outline

namespace Source

variable {o : Options} {source : Source} {t : Text} {n : Node}

theorem tree_of_decode (decoded : source.decode o = .ok t) :
    source.tree o =
      if Outline.measurable o (lines t) then (ofSource o t).mapError fun fault =>
        .template (fault.report o)
      else .error .tabOverflow := by
  rw [tree, decoded]
  show (Outline.readFrom o {} (lines t)).mapError (errorOf o) = _
  rw [Outline.readFrom_eq]
  split
  next =>
    rw [ofSource]
    cases Outline.ofLines o (lines t) with
    | error fault | ok n => rfl
  next => rfl

theorem tree_text (o : Options) (t : Text) :
    (text t).tree o =
      if Outline.measurable o (lines t) then (ofSource o t).mapError fun fault =>
        .template (fault.report o)
      else .error .tabOverflow :=
  tree_of_decode rfl

theorem tree_of_ofSource (can : Outline.measurable o (lines t)) (read : ofSource o t = .ok n) :
    (text t).tree o = .ok n := by
  rw [tree_text, if_pos can, read]
  rfl

theorem ofSource_of_tree (decoded : source.decode o = .ok t) (read : source.tree o = .ok n) :
    Outline.measurable o (lines t) ∧ ofSource o t = .ok n := by
  rw [tree_of_decode decoded] at read
  split at read
  next can =>
    cases parsed : ofSource o t with
    | ok m =>
      rw [parsed] at read
      cases read
      exact ⟨can, rfl⟩
    | error fault =>
      rw [parsed] at read
      cases read
  next => cases read

/-- A template that cannot be read is refused with a report, or cannot be measured. -/
theorem error_of_tree {e : Error} (refused : (text t).tree o = .error e) :
    e = .tabOverflow ∧ Outline.measurable o (lines t) = false ∨ ∃ report, e = .template report := by
  rw [tree_text] at refused
  split at refused
  next =>
    cases read : ofSource o t with
    | ok n =>
      rw [read] at refused
      cases refused
    | error fault =>
      rw [read] at refused
      cases refused
      exact .inr ⟨_, rfl⟩
  next cannot =>
    cases refused
    exact .inl ⟨rfl, by simpa using cannot⟩

theorem tree_eq_tabOverflow_iff :
    (text t).tree o = .error .tabOverflow ↔ Outline.measurable o (lines t) = false := by
  constructor
  · intro refused
    rcases error_of_tree refused with ⟨_, cannot⟩ | ⟨_, other⟩
    · exact cannot
    · cases other
  · intro cannot
    rw [tree_text, if_neg (by simp [cannot])]

theorem exists_of_tree (read : source.tree o = .ok n) : ∃ t, ofSource o t = .ok n := by
  obtain ⟨t, decoded, _⟩ := exists_of_bind read
  exact ⟨t, (ofSource_of_tree decoded read).2⟩

end Source

end MarkupTemplate
