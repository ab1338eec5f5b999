import MarkupTemplate.Proofs.Compiler.Complete

/-!
# Line marks

Every pass keeps the line marks of a tree: rendering puts back those of each block, and the other
passes replace a node by one that takes up as many lines.
-/

namespace MarkupTemplate

open List
open Embedded.Registry (builtin)

open Node (Fits)
open Embedded (Registry Cache Agrees verbatim)

namespace Pass

variable {o : Options} {r : Registry} {passes : List Pass} {n : Node} {met : Cache}

theorem extent_of_mem_steps {stage stage' : Stage} (leads : Leads stage passes stage')
    (fits : Fits stage.kinds o.format .tree n) {taken : Pass × Except Failure Node}
    (mem : taken ∈ steps o r passes n met) :
    ∃ n', taken.2 = .ok n' ∧ ∀ feed, n'.extent feed = n.extent feed := by
  induction leads generalizing n with
  | nil => nomatch mem
  | cons pass late _ ih =>
    obtain ⟨m, stepped, kept⟩ := (runPure_keeps o late fits).exists_ok
    rw [steps, run_late o r late n met, stepped] at mem
    rcases mem_cons.mp mem with rfl | mem
    · exact ⟨m, rfl, kept.extent⟩
    · obtain ⟨n', gives, same⟩ := ih kept.fits mem
      exact ⟨n', gives, fun feed => (same feed).trans (kept.extent feed)⟩

theorem marks_of_mem_steps (complete : ∀ entry ∈ r, entry.2.isComplete) (agrees : Agrees met r)
    (read : Outline.IsRead o.format n) {pass : Pass} {n' : Node}
    (mem : (pass, .ok n') ∈ steps o r (all o) n met) : n'.marks = n.marks := by
  rw [← Node.extent_zero, ← Node.extent_zero]
  obtain ⟨met', ran, agrees'⟩ := Node.run_rendered o r n met agrees
  have rendered := Node.embed_embeds (o := o) complete read
  rw [all_eq, steps, run, ran] at mem
  cases embedded : n.embed (Embedded.resolve o r) o.format with
  | error failure =>
    rw [embedded] at mem
    cases mem_singleton.mp mem
  | ok m =>
    have embeds := rendered.of_ok embedded
    have sameMarks : m.extent 0 = n.extent 0 := by
      rw [embeds.extent 0, Nat.zero_mul, Nat.add_zero]
    rw [embedded] at mem
    rcases mem_cons.mp mem with first | mem
    · cases first
      exact sameMarks
    · rw [steps] at mem
      simp only [run, runPure] at mem
      have expands := Node.interpolated_keeps embeds.fits
      cases interpolated : m.interpolated with
      | error failure =>
        rw [interpolated] at mem
        cases mem_singleton.mp mem
      | ok m' =>
        have kept := expands.of_ok interpolated
        rw [interpolated] at mem
        rcases mem_cons.mp mem with second | mem
        · cases second
          exact (kept.extent 0).trans sameMarks
        · obtain ⟨n'', gives, same⟩ := extent_of_mem_steps (leads_late o) kept.fits mem
          cases gives
          exact (same 0).trans ((kept.extent 0).trans sameMarks)

theorem steps_of_runAll {n' : Node} {met' : Cache}
    (ran : runAll o r passes n met = (.ok n', met')) :
    (steps o r passes n met).map Prod.fst = passes ∧
      ∃ trees : List Node, (steps o r passes n met).map Prod.snd = trees.map .ok ∧
        (n :: trees).getLast? = some n' := by
  induction passes generalizing n met with
  | nil =>
    cases ran
    exact ⟨rfl, [], rfl, rfl⟩
  | cons pass passes ih =>
    obtain ⟨m, met₁, first, rest⟩ := exists_of_runAll_cons ran
    obtain ⟨names, trees, results, last⟩ := ih rest
    rw [steps, first]
    refine ⟨congrArg (pass :: ·) names, m :: trees, congrArg (Except.ok m :: ·) results, ?_⟩
    rw [getLast?_cons_cons, last]

end Pass

/-- A template that is compiled has one tree behind each pass, the last one included, and all have
as many line marks as the tree that was read. -/
theorem transform_marks {markdown : Embedded.Renderer} (o : Options) {source : Source}
    {met met' : Cache} {final : Node} (agrees : Agrees met (builtin markdown))
    (transformed : transform o (builtin markdown) source met = (.ok final, met')) :
    ∃ (tree : Node) (trees : List Node), source.tree o = .ok tree ∧
      (Pass.steps o (builtin markdown) (Pass.all o) tree met).map Prod.fst = Pass.all o ∧
      (Pass.steps o (builtin markdown) (Pass.all o) tree met).map Prod.snd = trees.map .ok ∧
      trees.getLast? = some final ∧ (∀ n ∈ trees, n.marks = tree.marks) ∧
      final.marks = tree.marks := by
  obtain ⟨tree, read⟩ := Source.tree_of_transform transformed
  obtain ⟨t, parsed⟩ := Source.exists_of_tree read
  obtain ⟨names, trees, results, last⟩ :=
    Pass.steps_of_runAll (exists_of_transform read transformed)
  have marks : ∀ n ∈ trees, n.marks = tree.marks := by
    intro n mem
    have given : .ok n ∈ (Pass.steps o (builtin markdown) (Pass.all o) tree met).map Prod.snd := by
      rw [results]
      exact mem_map_of_mem mem
    obtain ⟨⟨pass, _⟩, taken, rfl⟩ := mem_map.mp given
    exact Pass.marks_of_mem_steps Embedded.isComplete_builtin agrees
      (Outline.isRead_of_source parsed).1 taken
  -- There is a pass, so the last tree is not the one that was read.
  have filled : trees ≠ [] := by
    rintro rfl
    have empty := map_eq_nil_iff.mp results
    rw [empty] at names
    nomatch names
  rw [getLast?_cons_of_ne_nil filled] at last
  exact ⟨tree, trees, read, names, results, last, marks, marks final (mem_of_getLast? last)⟩

/-- Attributes and a code over two lines each, a captured block, and an embedded one with a gap. -/
def mixedLines : Source :=
  .text "%p(a=b\n  c)= f(d,\n  e)\n= g\n  - if h\n    i\n\n:plain\n  j\n\n  k"

theorem transform_marks_mixed : Agrees [] (builtin verbatim) ∧
    ∃ (tree final : Node) (trees : List Node), mixedLines.tree {} = .ok tree ∧ tree.marks = 10 ∧
      (transform {} (builtin verbatim) mixedLines []).1 = .ok final ∧
      (Pass.steps {} (builtin verbatim) (Pass.all {}) tree []).map Prod.snd = trees.map .ok ∧
      trees.getLast? = some final ∧ ∀ n ∈ trees, n.marks = 10 := by
  have agrees : Agrees [] (builtin verbatim) := nofun
  have compiles : (transform {} (builtin verbatim) mixedLines []).1.isOk := by decide +kernel
  have marks : (mixedLines.tree {}).toOption.map Node.marks = some 10 := by decide +kernel
  refine ⟨agrees, ?_⟩
  obtain ⟨final, compiled⟩ := exists_of_fst_isOk compiles rfl
  obtain ⟨tree, trees, read, _, results, last, kept, _⟩ := transform_marks {} agrees compiled
  rw [read] at marks
  have ten : tree.marks = 10 := Option.some.inj marks
  rw [ten] at kept
  exact ⟨tree, final, trees, read, ten, congrArg Prod.fst compiled, results, last, kept⟩

end MarkupTemplate
