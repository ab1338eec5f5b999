import MarkupTemplate.Proofs.Outline.Step

/-!
# Lines that stand for themselves

A line stands for itself unless it is blank or something pending takes it. `dispatched?` says what
such a line is and where its mark ends; all that matters of the state is then how deep the line is
indented (`step_of_dispatched`).
-/

namespace MarkupTemplate.Outline

open Indent (width)

/-- Whether what is pending takes a line that is not blank. -/
def State.takes (o : Options) (s : State) (line : Text) : Bool :=
  match s.pending with
  | .nothing => false
  | .silent | .text _ _ => nested o s line
  | .attributes _ _ _ _ _ | .code _ _ => true

/-- What a line is that stands for itself, and the place behind its mark. -/
def dispatched? (o : Options) (s : State) (line : Text) : Option (Indicator × Spot) :=
  if Text.allBlank line || s.takes o line then none
  else
    let spot := (Spot.start (s.number + 1) line).skipBlanks
    some ((spot.scan? Indicator.read).getD (.text, spot))

theorem dispatch_eq (o : Options) (s : State) (spot : Spot) :
    dispatch o s spot =
      marked o s ((spot.scan? Indicator.read).getD (.text, spot)).2
        ((spot.scan? Indicator.read).getD (.text, spot)).1 := by
  unfold dispatch
  split
  next found => rw [found]; rfl
  next absent => rw [absent]; rfl

variable {o : Options} {s : State} {line : Text}

theorem resting_of_takes (ink : Text.allBlank line = false) (free : s.takes o line = false) :
    s.resting ∧ (s.pending ≠ .nothing → width o.tabSize line ≤ s.layout.width) := by
  obtain ⟨number, layout, pending⟩ := s
  constructor
  · cases pending with
    | nothing | silent | text => rfl
    | attributes | code => nomatch free
  · intro waiting
    cases pending with
    | nothing => exact absurd rfl waiting
    | silent | text =>
      simp only [State.takes, nested, ink, Bool.false_or, decide_eq_false_iff_not,
        Nat.not_lt] at free
      exact free
    | attributes | code => nomatch free

theorem of_dispatched {found : Indicator × Spot} (dispatched : dispatched? o s line = some found) :
    Text.allBlank line = false ∧ s.resting ∧
      (s.pending ≠ .nothing → width o.tabSize line ≤ s.layout.width) := by
  unfold dispatched? at dispatched
  split at dispatched
  next => nomatch dispatched
  next free =>
    simp only [Bool.or_eq_true, not_or, Bool.not_eq_true] at free
    exact ⟨free.1, resting_of_takes free.1 free.2⟩

theorem fresh_of_ink (ink : Text.allBlank line = false) (s : State) : fresh o s line =
      match s.layout.enter (width o.tabSize line) with
      | (some cause, _) => .error ⟨cause, (Spot.start s.number line).skipBlanks⟩
      | (none, layout) =>
        dispatch o ⟨s.number, layout, .nothing⟩ (Spot.start s.number line).skipBlanks := by
  unfold fresh
  exact if_neg (by simp [ink])

theorem step_of_ink (ink : Text.allBlank line = false) (resting : s.resting)
    (outside : s.pending ≠ .nothing → width o.tabSize line ≤ s.layout.width) : step o s line =
      match s.settled.enter (width o.tabSize line) with
      | (some cause, _) => .error ⟨cause, (Spot.start (s.number + 1) line).skipBlanks⟩
      | (none, layout) =>
        dispatch o ⟨s.number + 1, layout, .nothing⟩
          (Spot.start (s.number + 1) line).skipBlanks := by
  obtain ⟨number, layout, pending⟩ := s
  have free : pending ≠ .nothing → ¬nested o ⟨number + 1, layout, pending⟩ line := by
    intro waiting
    have shallow : width o.tabSize line ≤ layout.width := outside waiting
    simp [nested, ink, shallow]
  cases pending with
  | nothing => exact fresh_of_ink ink ⟨number + 1, layout, .nothing⟩
  | silent => exact (if_neg (free (by simp))).trans (fresh_of_ink ink ⟨number + 1, layout, .silent⟩)
  | text block use =>
    have finished : step o ⟨number, layout, .text block use⟩ line =
        fresh o (State.finishText ⟨number + 1, layout, .text block use⟩ block use) line :=
      (if_neg (by simp [ink])).trans (if_neg (free (by simp)))
    rw [finished, fresh_of_ink ink]
    cases use with
    | embedded | comment | tag => rfl
  | attributes | code => cases resting

theorem step_of_dispatched {s' : State} {indicator : Indicator} {spot : Spot}
    (dispatched : dispatched? o s line = some (indicator, spot)) (read : step o s line = .ok s') :
    ∃ layout, s.settled.enter (width o.tabSize line) = (none, layout) ∧
      marked o ⟨s.number + 1, layout, .nothing⟩ spot indicator = .ok s' := by
  obtain ⟨ink, resting, outside⟩ := of_dispatched dispatched
  rw [step_of_ink ink resting outside] at read
  split at read
  next => nomatch read
  next layout entered =>
    refine ⟨layout, entered, ?_⟩
    unfold dispatched? at dispatched
    split at dispatched
    next => nomatch dispatched
    next =>
      rw [dispatch_eq] at read
      simp only [Option.some.injEq] at dispatched
      rw [dispatched] at read
      exact read

end MarkupTemplate.Outline
