import MarkupTemplate.Proofs.Compiler.Escaping
import MarkupTemplate.Proofs.Node.Explicit
import MarkupTemplate.Proofs.Outline.OutputPlace

/-!
# Output that is escaped by default

With escaping on by default, the output marks `&=` and `=` give the same program if the block below
is captured or empty. Any other block comes under the switch of `&=` as well: there `&=` means `=`
with a switch around the block (`generate_remarked`).
-/

namespace MarkupTemplate

open Embedded (Registry Cache EngineM verbatim)
open Embedded.Registry (builtin)

/-! ## Results of passes -/

theorem Twin.concur {ε α β : Type} {related : α → β → Prop} {x : Except ε α} {y : Except ε β}
    (twin : Twin related x y) : Concur related x y := by
  obtain ⟨both, rfl, rfl⟩ := twin
  exact .same fun p => .ok p.2

/-- Two passes have met the same engines, and their results are related or the same failure. -/
def Meet (related : Node → Node → Prop) (x y : Except Failure Node × Cache) : Prop :=
  Concur related x.1 y.1 ∧ x.2 = y.2

theorem meet_of_twin {related : Node → Node → Prop} {x y : EngineM Node} (twin : Twin related x y)
    (met : Cache) : Meet related (x.run met) (y.run met) := by
  obtain ⟨both, rfl, rfl⟩ := twin
  have ran : ∀ f : { p : Node × Node // related p.1 p.2 } → Node,
      (both >>= fun p => pure (f p)).run met = ((both.run met).1.map f, (both.run met).2) := by
    intro f
    show (ExceptT.bindCont (fun p => pure (f p)) (both.run met).1 : StateM Cache _)
      (both.run met).2 = _
    cases (both.run met).1 with
    | ok p | error e => rfl
  rw [ran, ran]
  exact ⟨(Concur.refl _ fun _ => rfl).map fun p _ same => same ▸ p.2, rfl⟩

namespace Pass

variable {o : Options} {r : Registry} {related related' : Node → Node → Prop}

/-- Several passes do the same to trees that are related. -/
def Alike (o : Options) (r : Registry) (related : Node → Node → Prop) (passes : List Pass) : Prop :=
  ∀ n n' met, related n n' → runAll o r passes n met = runAll o r passes n' met

theorem alike_eq (passes : List Pass) : Alike o r Eq passes := by
  rintro n _ met rfl
  rfl

theorem Alike.cons {passes : List Pass} (alike : Alike o r related' passes) (pass : Pass)
    (first : ∀ n n' met, related n n' → Meet related' (pass.run o r n met) (pass.run o r n' met)) :
    Alike o r related (pass :: passes) := by
  intro n n' met here
  obtain ⟨concur, same⟩ := first n n' met here
  rw [runAll, runAll]
  generalize pass.run o r n met = x at concur same
  generalize pass.run o r n' met = y at concur same
  obtain ⟨x, met₁⟩ := x
  obtain ⟨y, _⟩ := y
  cases same
  cases concur with
  | ok here => exact alike _ _ _ here
  | error e => rfl

theorem Alike.consPure {passes : List Pass} (alike : Alike o r related' passes) (pass : Pass)
    (other : pass ≠ .embed)
    (first : ∀ n n', related n n' → Concur related' (pass.runPure o n) (pass.runPure o n')) :
    Alike o r related (pass :: passes) := by
  refine alike.cons pass fun n n' met here => ?_
  have pure : ∀ n, pass.run o r n met = (pass.runPure o n, met) := by
    intro n
    cases pass with
    | embed => exact absurd rfl other
    | _ => rfl
  rw [pure, pure]
  exact ⟨first n n' here, rfl⟩

theorem alike_escape (escapes : o.escapeHtml) (passes : List Pass) :
    Alike o r (Node.Differ Node.Lowered) (escape :: passes) := by
  refine (alike_eq passes).consPure escape (by simp) fun n n' differ => ?_
  rw [runPure, runPure, escapes, Node.escaped_differ rfl differ]
  exact .refl _ fun _ => rfl

theorem alike_merge (escapes : o.escapeHtml) (passes : List Pass) :
    Alike o r (Node.Differ Node.Lowered) (merge :: markup :: escape :: passes) := by
  have written : Alike o r (Node.Differ Node.Lowered) (markup :: escape :: passes) :=
    (alike_escape escapes passes).consPure markup (by simp) fun n n' differ =>
      (twin_iff.mp (Node.writing_differ o differ ⟨o.pretty, 0⟩) {}).map fun _ _ inside => inside.1
  exact written.consPure merge (by simp) fun n n' differ =>
    (twin_iff.mp ((Node.attributed_descends o).lowered_differ differ) 0).map fun _ _ inside =>
      inside.1

/-- All passes do the same to trees with an output that is escaped explicitly or by default. -/
theorem alike_explicit (escapes : o.escapeHtml) :
    Alike o r (Node.Differ (Node.Explicit o.disableCapture)) (all o) := by
  have merged := alike_merge (r := r) escapes ([flatten] ++ if o.streaming then [] else [join])
  have sorted : Alike o r (Node.Differ Node.Lowered) ((if o.sortAttrs then [sort] else []) ++
      merge :: markup :: escape :: ([flatten] ++ if o.streaming then [] else [join])) := by
    split
    next sorts =>
      refine merged.consPure sort (by simp) fun n n' differ => ?_
      rw [runPure, runPure, if_pos sorts, if_pos sorts]
      exact ((Node.sorted_descends o.sortAttrKeys).lowered_differ differ).concur
    next => exact merged
  have overridden : Alike o r (Node.Differ Node.Lowered) _ :=
    sorted.consPure override (by simp) fun n n' differ =>
      ((Node.overridden_descends o.overrideAttrs).lowered_differ differ).concur
  have controlled : Alike o r (Node.Differ (Node.Explicit o.disableCapture)) _ :=
    overridden.consPure control (by simp) fun n n' differ =>
      (twin_iff.mp (Node.lowered_differ differ) 0).map fun _ _ inside => inside.1
  have interpolated : Alike o r (Node.Differ (Node.Explicit o.disableCapture)) _ :=
    controlled.consPure interpolate (by simp) fun n n' differ =>
      (Node.interpolated_descends.explicit_differ differ).concur
  have embedded : Alike o r (Node.Differ (Node.Explicit o.disableCapture)) _ :=
    interpolated.cons embed fun n n' met differ =>
      meet_of_twin ((Node.rendered_descends o r).explicit_differ differ) met
  simpa [all] using embedded

end Pass

/-! ## Templates -/

variable {o : Options}

theorem generate_congr {r : Registry} {met : Cache} {source source' : Source} {n n' : Node}
    (read : source.tree o = .ok n) (read' : source'.tree o = .ok n')
    (same : Pass.runAll o r (Pass.all o) n met = Pass.runAll o r (Pass.all o) n' met) :
    generate o r source met = generate o r source' met := by
  simp only [generate, transform, read, read', same]

/-- With escaping on by default, the output marks `&=` and `=` do the same to a block below that is
captured or empty, as it always is behind a tag. Where blocks are put out without a capture, `&=`
does what `=` does with a switch around the block. -/
theorem generate_remarked (escapes : o.escapeHtml) {front back : Text}
    (mark : Outline.isOutputMark o front back)
    {source source' : Source} (explicit : source.decode o = .ok (front ++ "&=".toList ++ back))
    (byDefault : source'.decode o = .ok (front ++ "=".toList ++ back)) (r : Registry)
    (met : Cache) : (∃ e e', source.tree o = .error e ∧ source'.tree o = .error e') ∨
      ∃ (c : Node.Context) (code : Text) (block : Node),
        source.tree o = .ok (c.fill (.escape true (.output true code block))) ∧
        source'.tree o = .ok (c.fill (.output true code block)) ∧
        (Outline.isBegun front → block.isEmpty) ∧
        (o.disableCapture = false ∨ block.isEmpty →
          generate o r source met = generate o r source' met) ∧
        (o.disableCapture →
          Pass.runAll o r (Pass.all o) (c.fill (.escape true (.output true code block))) met =
            Pass.runAll o r (Pass.all o)
            (c.fill (.output true code (.escape true block))) met) := by
  have trees := Outline.ofSource_remarked mark
  have measured : ∀ mark ∈ ["&=".toList, "=".toList],
    Outline.measurable o (Source.lines (front ++ mark ++ back)) =
      Indent.canExpand o.tabSize := by
    intro mark mem
    have known : Text.allBlank mark = false ∧ mark.all Source.isInner := by
      revert mark
      decide
    exact Outline.measurable_around known.1 known.2 front back
  have tree := Source.tree_of_decode explicit
  have tree' := Source.tree_of_decode byDefault
  rw [measured _ (.head _)] at tree
  rw [measured _ (.tail _ (.head _))] at tree'
  cases near : Indent.canExpand o.tabSize with
  | false =>
    rw [near] at tree tree'
    exact .inl ⟨_, _, tree, tree'⟩
  | true =>
  rw [near, if_pos rfl] at tree tree'
  generalize read : Outline.ofSource o (front ++ "&=".toList ++ back) = result at trees
  generalize read' : Outline.ofSource o (front ++ "=".toList ++ back) = result' at trees
  cases trees with
  | error e e' =>
    rw [read] at tree
    rw [read'] at tree'
    exact .inl ⟨_, _, tree, tree'⟩
  | ok switched =>
    obtain ⟨c, code, block, bare, rfl, rfl⟩ := switched
    rw [read] at tree
    rw [read'] at tree'
    have clear : c.isClear := Outline.isClear_of_isRead (Outline.isRead_of_source read).1
    have alike := Pass.alike_explicit (r := r) escapes
    refine .inr ⟨c, code, block, tree, tree', bare, ?_, ?_⟩
    · rintro (captures | empty)
      · exact generate_congr tree tree'
          (alike _ _ met (Node.Context.differ clear (.captured code block captures)))
      · exact generate_congr tree tree'
          (alike _ _ met (Node.Context.differ clear (.empty code empty)))
    · intro inline
      exact alike _ _ met (Node.Context.differ clear (.inline code block inline))

/-- A list, up to an output line in it. -/
def listFront : Text :=
  "%ul\n  %li.a(b=\"c\")> x\n  "

/-- The code of the output line, which is broken after a comma, and the block below it. -/
def listBack : Text :=
  " f(1,\n  2)\n    %b hi\n    = g"

theorem generate_remarked_list :
    Outline.isOutputMark { escapeHtml := true } listFront listBack ∧
      generate { escapeHtml := true } (builtin verbatim) (.text (listFront ++ "&=" ++ listBack))
        [] =
        generate { escapeHtml := true } (builtin verbatim) (.text (listFront ++ "=" ++ listBack))
          [] := by
  have mark : Outline.isOutputMark { escapeHtml := true } listFront listBack := by decide +kernel
  have reads : ((Source.text (listFront ++ "&=" ++ listBack)).tree
      { escapeHtml := true }).isOk := by decide +kernel
  have decoded (mark : Text) : (Source.text (listFront ++ mark ++ listBack)).decode
    { escapeHtml := true } =
      .ok (listFront ++ mark ++ listBack) := rfl
  refine ⟨mark, ?_⟩
  obtain ⟨e, _, refused, _⟩ | ⟨_, _, _, _, _, _, same, _⟩ :=
    generate_remarked rfl mark (decoded _) (decoded _) (builtin verbatim) []
  · rw [refused] at reads
    nomatch reads
  · exact same (.inl rfl)

def escapedInline : Options :=
  { escapeHtml := true, disableCapture := true }

/-- A block that is put out where it stands is escaped below `&=` and kept below `=`. -/
theorem generate_inline_block_differs :
    Outline.isOutputMark escapedInline [] " f\n  %p hi" ∧
      (generate escapedInline (builtin verbatim) (.text "&= f\n  %p hi") []).1.isOk ∧
      (generate escapedInline (builtin verbatim) (.text "= f\n  %p hi") []).1.isOk ∧
      (generate escapedInline (builtin verbatim) (.text "&= f\n  %p hi") []).1.toOption.map
        Program.source ≠
        (generate escapedInline (builtin verbatim) (.text "= f\n  %p hi")
          []).1.toOption.map Program.source := by
  decide +kernel

end MarkupTemplate
