import MarkupTemplate.Proofs.Line.Recognized
import MarkupTemplate.Proofs.Source
import MarkupTemplate.Proofs.Text.Interpolated

/-!
# Lines behind a backslash

A line that starts with a backslash is text, whatever mark follows. The backslash is dropped, except
in front of a number sign: it may belong to an interpolation there, so the text keeps it even where
no brace follows.
-/

namespace MarkupTemplate

open List

variable {t : Text}

theorem Interpolation.unclosed?_eq_none (noSlash : '\\' ∉ t) (noCode : ¬ ['#', '\x7b'] <:+: t) :
    unclosed? t = none := by
  induction t with
  | nil => rw [unclosed?]
  | cons c t ih =>
    rw [mem_cons, not_or] at noSlash
    have alone : StandsAlone c t := by
      refine ⟨fun _ same => absurd same.symm noSlash.1, fun _ same => absurd same.symm noSlash.1,
        ?_⟩
      rintro u rfl rfl
      exact noCode (prefix_append ['#', '\x7b'] u).isInfix
    rw [unclosed?_alone alone, ih noSlash.2 fun code =>
      noCode (code.trans (suffix_cons c t).isInfix)]
    rfl

namespace Outline

/-- What a backslash in front of a line leaves as its text. -/
def literalLine (t : Text) : Text :=
  if t.head? = some '#' then '\\' :: t else t

theorem read_backslash (noSlash : '\\' ∉ t) :
    Indicator.read ('\\' :: t) = some (.text, literalLine t) := by
  have last : Indicator.scans = Indicator.scans.dropLast ++
    [Scan.map (fun _ => .text) Mark.escapedLine] := rfl
  have unmarked : Indicator.scans.dropLast.findSome? (· ('\\' :: t)) = none := by
    cases t with
    | nil | cons => rfl
  rw [Indicator.read, last, findSome?_append, unmarked, literalLine]
  cases t with
  | nil => rfl
  | cons c t =>
    by_cases sign : c = '#'
    · subst sign
      rfl
    · have other : c ≠ '\\' := fun same => noSlash (same ▸ .head _)
      simp [Scan.map, Mark.escapedLine, sign, other]

theorem unclosed?_literalLine (noSlash : '\\' ∉ t) (noCode : ¬ ['#', '\x7b'] <:+: t) :
    Interpolation.unclosed? (literalLine t) = none := by
  have plain := Interpolation.unclosed?_eq_none noSlash noCode
  unfold literalLine
  split
  · have alone : Interpolation.StandsAlone '\\' t := by
      refine ⟨?_, ?_, nofun⟩
      · rintro u _ rfl
        exact noCode (prefix_append ['#', '\x7b'] u).isInfix
      · rintro u _ rfl
        exact noSlash (.head _)
    rw [Interpolation.unclosed?_alone alone, plain]
    rfl
  · exact plain

/-- A line behind a backslash is text. The backslash stays if a number sign follows. -/
theorem ofSource_backslash (o : Options) (line : '\n' ∉ t) (noSlash : '\\' ∉ t)
    (noCode : ¬ ['#', '\x7b'] <:+: t) : ofSource o ('\\' :: t) =
      .ok (.seq [.interpolate (if t.head? = some '#' then '\\' :: t else t), .newline]) := by
  have noFeed : '\n' ∉ '\\' :: t := by simpa using line
  have single : Source.rawLines ('\\' :: t) = [] ++ ['\\' :: t] :=
    congrArg Source.dropReturns (Text.split_of_not_mem noFeed)
  obtain ⟨taken, whole⟩ : ∃ taken, '\\' :: t = taken ++ literalLine t := by
    unfold literalLine
    split
    · exact ⟨[], rfl⟩
    · exact ⟨['\\'], rfl⟩
  have mark := read_backslash noSlash
  rw [whole] at mark
  have start : (Spot.start 1 ('\\' :: t)).skipBlanks = ⟨1, [], '\\' :: t⟩ := rfl
  have done : step o {} ('\\' :: t) =
      .ok (State.close ⟨1, {}, .nothing⟩ [.interpolate (literalLine t)]) := by
    show dispatch o ⟨1, {}, .nothing⟩ (Spot.start 1 ('\\' :: t)).skipBlanks = _
    rw [start, whole, dispatch, Spot.scan?_append 1 [] mark]
    simp only [marked, checkText, unclosed?_literalLine noSlash noCode]
  rw [ofSource, Source.lines_eq, single, Source.dropEmptyEnd_append_singleton [] (by simp),
    nil_append, ofLines,
    foldlM_cons, done]
  rfl

theorem ofSource_backslash_tag : '\n' ∉ "%p a # b".toList ∧ '\\' ∉ "%p a # b".toList ∧
    ¬ ['#', '\x7b'] <:+: "%p a # b".toList ∧
    ofSource {}
    ('\\' :: "%p a # b".toList) = .ok (.seq [.interpolate "%p a # b".toList, .newline]) := by
  have noCode : ¬ ['#', '\x7b'] <:+: "%p a # b".toList := by decide +kernel
  exact ⟨by decide, by decide, noCode, ofSource_backslash {} (by decide) (by decide) noCode⟩

/-- A backslash in front of a shortcut is part of the text. -/
theorem ofSource_backslash_shortcut :
    ofSource {} "\\#main" = .ok (.seq [.interpolate "\\#main", .newline]) := by
  decide +kernel

end Outline

end MarkupTemplate
