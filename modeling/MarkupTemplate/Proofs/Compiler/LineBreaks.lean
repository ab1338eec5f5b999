import MarkupTemplate.Proofs.Compiler.Escaping
import MarkupTemplate.Proofs.Node.LineStarts

/-!
# Line breaks in templates

With line breaks on, the break in front of every tag, comment and document type follows from what
stands in front of it (`transform_lineBreaks`). A tag with trimmed outer breaks that comes last in a
comment takes the break behind the comment too (`transform_lineBreak_behind_comment`).
-/

namespace MarkupTemplate

open Node (Tidy Inert)
open Markup (Start)
open Embedded (Registry Cache Agrees verbatim)
open Embedded.Registry (builtin)

namespace Pass

variable {o : Options} {r : Registry}

theorem tidy_of_runAll {n kept : Node} (read : Outline.IsRead o.format n) {met met' : Cache}
    (agrees : Agrees met r)
    (ran : runAll o r (untilMerged o) n met = (.ok kept, met')) : Tidy false Inert kept := by
  replace ran : runAll o r
    ([embed, interpolate] ++ (control :: override :: if o.sortAttrs then [sort] else []) ++
    [merge]) n met = (.ok kept, met') := ran
  obtain ⟨listed, _, first, last⟩ := exists_of_runAll_append ran
  obtain ⟨expanded, _, seen, rest⟩ := exists_of_runAll_append first
  obtain ⟨⟨hi, stated⟩, _⟩ := stated_of_runAll (said_of_runAll agrees read seen) rest
  obtain ⟨_, _, merged, done⟩ := exists_of_runAll_cons last
  cases done
  have yields : Yields (Node.Tidies Inert listed) (fun _ => True) (runPure o merge listed) :=
    (Node.tidies_attributed o stated.tidy 0).map fun _ tidies => tidies
  exact (yields.of_ok (Prod.mk.inj merged).1).1

end Pass

/-! ## Templates -/

/-- The pieces of a template as it is laid out: of its tree, and of what is written for it. -/
def Source.pieces? (o : Options) (r : Registry) (source : Source) (met : Cache) :
    Option (List Markup.Piece) :=
  match source.tree o with
  | .error _ => none
  | .ok n =>
    match Pass.runAll o r (Pass.untilMerged o) n met with
    | (.error _, _) => none
    | (.ok kept, met) =>
      match Pass.markup.run o r kept met with
      | (.error _, _) => none
      | (.ok laid, _) => some (kept.pieces {} laid)

/-- In every template that is compiled with line breaks on, the line break in front of a tag,
comment or document type is the one that belongs there. -/
theorem transform_lineBreaks {o : Options} (pretty : o.pretty) {source : Source} {final : Node}
    {r : Registry}
    {met met' : Cache} (agrees : Agrees met r)
    (compiled : transform o r source met = (.ok final, met')) :
    ∃ pieces, source.pieces? o r met = some pieces ∧
      ∀ front start lineBreak? back, pieces = front ++ .start start lineBreak? :: back →
        lineBreak? = start.lineBreak? o.indent front := by
  obtain ⟨n, read⟩ := Source.tree_of_transform compiled
  obtain ⟨t, parsed⟩ := Source.exists_of_tree read
  have ran := exists_of_transform read compiled
  rw [Pass.all_eq_append] at ran
  obtain ⟨kept, met₁, first, rest⟩ := Pass.exists_of_runAll_append ran
  have tidy := Pass.tidy_of_runAll (Outline.isRead_of_source parsed).1 agrees first
  obtain ⟨flat, _, rest, _⟩ := Pass.exists_of_runAll_append rest
  obtain ⟨laid, met₂, written, _⟩ := Pass.exists_of_runAll_cons rest
  have belong := Node.allBelong_markup pretty tidy (Prod.mk.inj written).1
  refine ⟨kept.pieces {} laid, ?_, fun front start lineBreak? back found => ?_⟩
  · simp only [Source.pieces?, read, first, written]
  · rw [found] at belong
    exact belong.lineBreak

/-- A document type, a comment that ends in a tag with trimmed outer breaks, an inline tag in a tag,
and a tag with trimmed inner breaks around another. -/
def trimmedInComment : Source :=
  .text "!!!\n/\n  %p> a\n%p\n  %b c\n%div<\n  %p d\n%p e"

theorem transform_lineBreaks_trimmed :
    ∃ final, transform { pretty := true } (builtin verbatim) trimmedInComment [] = (.ok final, []) ∧
      ∃ pieces, trimmedInComment.pieces? { pretty := true } (builtin verbatim) [] = some pieces ∧
        ∀ front start lineBreak? back, pieces = front ++ .start start lineBreak? :: back →
          lineBreak? = start.lineBreak? 2 front := by
  have compiles : (transform { pretty := true } (builtin verbatim) trimmedInComment []).1.isOk := by
    decide +kernel
  have still : (transform { pretty := true } (builtin verbatim) trimmedInComment []).2 = [] := by
    decide +kernel
  obtain ⟨final, compiled⟩ := exists_of_fst_isOk compiles still
  exact ⟨final, compiled, transform_lineBreaks rfl nofun compiled⟩

/-- The tag behind the comment loses its line break, though the comment ends in front of it. -/
theorem transform_lineBreak_behind_comment :
    trimmedInComment.pieces? { pretty := true } (builtin verbatim) [] = some [
      .start { level := 0 } (some []),
      .start { level := 0 } (some "\n"), .start { level := 0, trimmed := true } none, .ink,
        .tagEnd true,
      .commentEnd,
      .start { level := 0 } (some []), .start { level := 1, inline := true } none, .ink,
        .tagEnd false, .tagEnd false,
      .start { level := 0 } (some "\n"), .start { level := 1, inside := true } none, .ink,
        .tagEnd false,
      .tagEnd false,
      .start { level := 0 } (some "\n"), .ink, .tagEnd false] := by
  decide +kernel

end MarkupTemplate
