import MarkupTemplate.Node.Controlled
import MarkupTemplate.Proofs.Node.Grammar
import MarkupTemplate.Proofs.Text.Literal

/-!
# Interpolated texts and control lines

Expanding interpolated texts leaves none of them and fails only where code is not closed. The pass
on control and output lines leaves none of these and never fails. Both keep the lines of the tree.
-/

namespace MarkupTemplate.Node

variable {format : Format}

/-! ## Interpolated texts -/

theorem interpolatedAll_eq (ns : List Node) : interpolatedAll ns = ns.mapM interpolated :=
  eq_mapM interpolatedAll rfl (fun _ _ => rfl) ns

theorem extent_segment (feed : Nat) (segment : Interpolation.Segment) :
    segment.node.extent feed = feed * segment.feeds := by
  cases segment with
  | literal text => rfl
  | code text =>
    simp only [Interpolation.Segment.node]
    split
    next inside found =>
      simp [Frame.extent, Interpolation.Segment.feeds, Interpolation.count_unescaped? found]
    next => simp [Frame.extent, Interpolation.Segment.feeds]

theorem extentOf_segments (feed : Nat) (segments : List Interpolation.Segment) :
    extentOf feed (segments.map Interpolation.Segment.node) =
      feed * (segments.map Interpolation.Segment.feeds).sum := by
  induction segments with
  | nil => rfl
  | cons segment segments ih =>
    simp [extent_segment, ih, Nat.mul_add]

theorem ofInterpolated_keeps {p : Place} (nested : p.isOpen) (text : Text) :
    Yields (Keeps .expanded format p (.interpolate text)) (· = .unclosedInterpolation)
      (ofInterpolated text) := by
  unfold ofInterpolated
  split
  next segments found =>
    refine ⟨.seq nested ?_, ?_⟩
    · intro n mem
      obtain ⟨segment, _, rfl⟩ := List.mem_map.mp mem
      cases segment with
      | literal text => exact .static nested text
      | code text =>
        simp only [Interpolation.Segment.node]
        split <;> exact .frame nested rfl (.empty nested)
    · intro feed
      simp [extentOf_segments, Leaf.extent, Interpolation.feeds, found]
  next => rfl

theorem interpolated_keeps {p : Place} {n : Node} (fits : Fits .rendered format p n) :
    Yields (Keeps .expanded format p n) (· = .unclosedInterpolation) n.interpolated := by
  induction fits with
  | @leaf p l nested allowed =>
    cases l with
    | interpolate text => exact ofInterpolated_keeps nested text
    | newline | static | dynamic | code | doctype => exact ⟨.leaf nested allowed, fun _ => rfl⟩
    | _ => nomatch allowed
  | @frame p f inner nested allowed _ ih =>
    have still : Kinds.frame .expanded f := by
      cases f with
      | _ => exact allowed
    refine ih.bind ?_
    intro inner kept
    exact ⟨.frame nested still kept.fits, fun feed => by simp [kept.extent feed]⟩
  | seq nested _ ih =>
    rw [interpolated, interpolatedAll_eq]
    refine (Yields.mapM ih).bind ?_
    intro children kept
    obtain ⟨fits, extent⟩ := Keeps.all kept
    exact ⟨.seq nested fits, fun feed => by simp [extent feed]⟩
  | closed markup _ ih =>
    rw [interpolated, interpolatedAll_eq]
    refine (Yields.mapM ih).bind ?_
    intro entries kept
    obtain ⟨fits, extent⟩ := Keeps.all kept
    exact ⟨.closed markup fits, fun feed => by simp [extent feed]⟩
  | tag markup _ _ ihEntries ihBody =>
    rw [interpolated, interpolatedAll_eq]
    refine (Yields.mapM ihEntries).bind ?_
    intro entries kept
    obtain ⟨fits, extent⟩ := Keeps.all kept
    refine ihBody.bind ?_
    intro body keptBody
    exact ⟨.tag markup fits keptBody.fits, fun feed => by simp [extent feed, keptBody.extent feed]⟩
  | attr _ ih =>
    refine ih.bind ?_
    intro value kept
    exact ⟨.attr kept.fits, fun feed => by simp [kept.extent feed]⟩
  | shortcut _ ih =>
    refine ih.bind ?_
    intro value kept
    exact ⟨.shortcut kept.fits, fun feed => by simp [kept.extent feed]⟩
  | code plain => exact ⟨.code plain, fun _ => rfl⟩
  | known _ zero ih =>
    refine ih.imp ?_
    intro value kept
    exact ⟨.known kept.fits fun feed => (kept.extent feed).trans (zero feed), kept.extent⟩

/-! ## Control and output lines -/

theorem controlledAll_eq (noCapture : Bool) (used : Nat) (ns : List Node) :
    controlledAll noCapture used ns = thread (controlled noCapture) used ns := by
  induction ns generalizing used with
  | nil => rfl
  | cons n ns ih =>
    simp only [controlledAll, thread, ih]

theorem count_suiteHeader {source : Text} (inked : Text.trimRight source = source) :
    (Control.suiteHeader source).count '\n' = source.count '\n' := by
  simp only [Control.suiteHeader, inked]
  split
  · rfl
  · simp

theorem feed_not_mem_tempName (n : Nat) : '\n' ∉ Control.tempName n :=
  Text.feed_not_mem_append (by decide) (Text.feed_not_mem_ofNat n)

section Lines

variable {p : Place} (nested : p.isOpen)

include nested

theorem statement_keeps {source : Text} {body body' : Node}
    (inked : Text.trimRight source = source) (kept : Keeps .stated format p body body') :
    Keeps .stated format p (.control source body) (statement source body') := by
  unfold statement
  split
  · refine ⟨.seq nested (.cons (.statement nested _) (.cons (.block nested kept.fits) .nil)), ?_⟩
    intro feed
    simp [Leaf.extent, Frame.extent, count_suiteHeader inked, kept.extent feed]
  · refine ⟨.seq nested (.cons (.statement nested _) (.cons kept.fits .nil)), ?_⟩
    intro feed
    simp [Leaf.extent, Frame.extent, kept.extent feed]

theorem fits_putOut (escaped : Bool) (source : Text) :
    Fits .stated format p (putOut escaped source) := by
  cases escaped with
  | true => exact .dynamic nested source
  | false => exact .frame nested rfl (.dynamic nested source)

omit nested in

@[simp] theorem extent_putOut (feed : Nat) (escaped : Bool) (source : Text) :
    (putOut escaped source).extent feed = feed * source.count '\n' := by
  cases escaped with
  | true => simp [putOut, Leaf.extent]
  | false => simp [putOut, Leaf.extent, Frame.extent]

theorem captured_keeps (escaped : Bool) (source : Text) (number : Nat) {body body' : Node}
    (kept : Keeps .stated format p body body') :
    Keeps .stated format p (.output escaped source body)
      (captured escaped source (Control.tempName number) body') := by
  have plain := feed_not_mem_tempName number
  refine ⟨.seq nested (.cons (.capture nested plain kept.fits) (.cons (.statement nested _)
    (.cons (fits_putOut nested escaped source) .nil))), ?_⟩
  intro feed
  have bound : (Control.captureName ++ " = " ++ Control.tempName number).count '\n' = 0 := by
    rw [List.count_append, List.count_eq_zero_of_not_mem plain]
    decide
  simp only [captured, extent_group, extentOf_cons, extentOf_nil, extent_frame, extent_leaf,
    extent_putOut, Leaf.extent, Frame.extent, bound, kept.extent feed]
  omega

end Lines

theorem controlled_keeps {p : Place} {n : Node} (fits : Fits .expanded format p n)
    (noCapture : Bool) (used : Nat) :
    Yields (fun r => Keeps .stated format p n r.1) (fun _ => False)
    (n.controlled noCapture used) := by
  induction fits generalizing used with
  | @leaf p l nested allowed =>
    cases l with
    | newline | static | dynamic | code | doctype => exact ⟨.leaf nested allowed, fun _ => rfl⟩
    | _ => cases allowed
  | @frame p f inner nested allowed _ ih =>
    cases f with
    | control source =>
      have inked : Text.trimRight source = source := by
        simp only [Kinds.frame, Bool.and_eq_true, beq_iff_eq] at allowed
        exact allowed.2
      refine (ih used).bind ?_
      rintro ⟨body, used⟩ kept
      exact statement_keeps nested inked kept
    | output escaped source =>
      rw [controlled]
      split
      · refine (ih used).bind ?_
        rintro ⟨body, used⟩ kept
        refine ⟨.seq nested (.cons (fits_putOut nested escaped source) (.cons kept.fits .nil)), ?_⟩
        intro feed
        simp [Frame.extent, kept.extent feed]
      · refine (ih (used + 1)).bind ?_
        rintro ⟨body, used'⟩ kept
        exact captured_keeps nested escaped source (used + 1) kept
    | escape | comment | condComment | block | capture | trim =>
      refine (ih used).bind ?_
      rintro ⟨inner, used⟩ kept
      exact ⟨.frame nested allowed kept.fits, fun feed => by simp [kept.extent feed]⟩
    | _ => cases allowed
  | seq nested _ ih =>
    rw [controlled, controlledAll_eq]
    refine (Yields.thread ih used).bind ?_
    rintro ⟨children, used⟩ kept
    obtain ⟨fits, extent⟩ := Keeps.all kept
    exact ⟨.seq nested fits, fun feed => by simp [extent feed]⟩
  | closed markup _ ih =>
    rw [controlled, controlledAll_eq]
    refine (Yields.thread ih used).bind ?_
    rintro ⟨entries, used⟩ kept
    obtain ⟨fits, extent⟩ := Keeps.all kept
    exact ⟨.closed markup fits, fun feed => by simp [extent feed]⟩
  | tag markup _ _ ihEntries ihBody =>
    rw [controlled, controlledAll_eq]
    refine (Yields.thread ihEntries used).bind ?_
    rintro ⟨entries, used⟩ kept
    obtain ⟨fits, extent⟩ := Keeps.all kept
    refine (ihBody used).bind ?_
    rintro ⟨body, used⟩ keptBody
    exact ⟨.tag markup fits keptBody.fits, fun feed => by simp [extent feed, keptBody.extent feed]⟩
  | attr _ ih =>
    refine (ih used).bind ?_
    rintro ⟨v, used⟩ kept
    exact ⟨.attr kept.fits, fun feed => by simp [kept.extent feed]⟩
  | shortcut _ ih =>
    refine (ih used).bind ?_
    rintro ⟨v, used⟩ kept
    exact ⟨.shortcut kept.fits, fun feed => by simp [kept.extent feed]⟩
  | code plain => exact ⟨.code plain, fun _ => rfl⟩
  | known _ zero ih =>
    refine (ih used).imp ?_
    rintro ⟨v, used⟩ kept
    exact ⟨.known kept.fits fun feed => (kept.extent feed).trans (zero feed), kept.extent⟩

end MarkupTemplate.Node
