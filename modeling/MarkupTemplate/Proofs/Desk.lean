import MarkupTemplate.Desk
import MarkupTemplate.Proofs.Compiler.Passes

/-!
# The notes of a compiler

A compiler answers the same whatever is on its desk, and whatever a failing pass leaves there. What
a pass makes of a tree behind `Desk.start` does not depend on the notes there were
(`Desk.work_start`), and a run of passes follows step by step (`Compiler.runAll_eq`).
-/

namespace MarkupTemplate

open Embedded (Registry Cache Engine engineBy overlay)
open Program (ofTree)

/-! ## Engines met before

Nothing but what names stand for matters for what a template is compiled to. `Works` says of a way
to compile which engines it uses and meets.
-/

/-- The names that are met while a template is compiled. -/
def Source.meets (o : Options) (stands : Text → Option Engine) (source : Source) : List Text :=
  match source.tree o with
  | .ok n => n.meets (engineBy o stands) o.format
  | .error _ => []

/-- Something is done with a template that depends on what names stand for, and meets names. -/
structure Works {α : Type} (source : Source)
    (work : Options → Registry → Cache → Except Error α × Cache) : Prop where
  congr {o : Options} {r r' : Registry} {met met' : Cache} :
    overlay met r = overlay met' r' → (work o r met).1 = (work o r' met').1
  extend (o : Options) (r : Registry) (met : Cache) :
    Embedded.Extends r met (source.meets o (overlay met r)) (work o r met).2

theorem Pass.run_pure {o : Options} {pass : Pass} (pure : pass ≠ .embed) (r : Registry) (n : Node)
    (met : Cache) : pass.run o r n met = (pass.runPure o n, met) := by
  cases pass with
  | embed => exact absurd rfl pure
  | _ => rfl

theorem Pass.runAll_pure {o : Options} {passes : List Pass} (pure : .embed ∉ passes)
    (r r' : Registry) (n : Node)
    (met met' : Cache) : runAll o r passes n met = ((runAll o r' passes n met').1, met) := by
  induction passes generalizing n met met' with
  | nil => rfl
  | cons pass passes ih =>
    rw [List.mem_cons, not_or] at pure
    have apart : pass ≠ .embed := fun same => pure.1 same.symm
    rw [runAll, runAll, run_pure apart, run_pure apart]
    cases pass.runPure o n with
    | error e => rfl
    | ok m => exact ih pure.2 m met met'

theorem embed_not_mem (o : Options) : .embed ∉ Pass.interpolate :: Pass.late o := by
  unfold Pass.late
  split
  · split <;> decide
  · split <;> decide

theorem transform_works (source : Source) :
    Works source (fun o r met => transform o r source met) := by
  -- The first pass is left with the engines met, and the result of the others does not depend on
  -- them.
  have ran : ∀ o r met n, source.tree o = .ok n →
      ∃ met', Embedded.Extends r met (source.meets o (overlay met r)) met' ∧
        transform o r source met =
          ((n.embed (engineBy o (overlay met r)) o.format).mapError Error.step >>=
          fun m => (Pass.runAll o [] (.interpolate :: Pass.late o) m []).1.mapError Error.step,
            met') := by
    intro o r met n read
    obtain ⟨met', ran, extended⟩ := n.rendered_meets o r _ met rfl
    refine ⟨met', by rw [Source.meets, read]; exact extended, ?_⟩
    rw [transform, read]
    simp only
    rw [Pass.all_eq, Pass.runAll, Pass.run, ran]
    cases n.embed (engineBy o (overlay met r)) o.format with
    | error failure => rfl
    | ok m =>
      change _ = ((Pass.runAll o [] (.interpolate :: Pass.late o) m []).1.mapError Error.step, met')
      simp only
      rw [Pass.runAll_pure (embed_not_mem o) r [] m met' []]
      cases (Pass.runAll o [] (.interpolate :: Pass.late o) m []).1 with
      | ok | error => rfl
  constructor
  · intro o r r' met met' same
    cases read : source.tree o with
    | error e => simp only [transform, read]
    | ok n =>
      obtain ⟨_, _, first⟩ := ran o r met n read
      obtain ⟨_, _, second⟩ := ran o r' met' n read
      rw [first, second, same]
  · intro o r met
    cases read : source.tree o with
    | error e =>
      simp only [transform, Source.meets, read]
      exact .refl r met
    | ok n =>
      obtain ⟨met', extended, ran⟩ := ran o r met n read
      rw [ran]
      exact extended

theorem Works.bind {α β : Type} {source : Source}
    {work : Options → Registry → Cache → Except Error α × Cache}
    (works : Works source work) (next : Options → α → Except Error β) :
    Works source fun o r met => ((work o r met).1 >>= next o, (work o r met).2) :=
  ⟨fun same => by rw [works.congr same], works.extend⟩

theorem generate_works (source : Source) :
    Works source (fun o r met => generate o r source met) := by
  have same : (fun o r met => generate o r source met) = fun o r met =>
      ((transform o r source met).1 >>= fun n => (ofTree o n).mapError Error.step,
        (transform o r source met).2) := by
    funext o r met
    rw [generate]
    cases transform o r source met with
    | mk result met' =>
      cases result with
      | error e => rfl
      | ok n =>
        simp only [bind, Except.bind]
        cases ofTree o n with
        | ok | error => rfl
  rw [same]
  exact (transform_works source).bind fun o n => (ofTree o n).mapError Error.step

/-! ## Desks -/

namespace Desk

variable {o : Options}

/-- A pass that has put its notes back does what it does at the start of a template. -/
theorem work_start (d : Desk) (pass : Pass) (n : Node) :
    ((d.start o pass).work o pass n).map (·.1) = pass.runPure o n := by
  cases pass with
  | control =>
    simp only [work, start, note, if_pos, Pass.runPure]
    cases n.controlled o.disableCapture 0 with
    | ok | error => rfl
  | merge =>
    simp only [work, start, note, if_pos, Pass.runPure]
    cases n.attributed o 0 with
    | ok | error => rfl
  | markup =>
    simp only [work, start, Pass.runPure]
    cases n.markup o ⟨o.pretty, 0⟩ {} with
    | ok | error => rfl
  | escape =>
    simp only [work, start, Pass.runPure]
    cases n.escaped o.escapeHtml none with
    | ok | error => rfl
  | embed | interpolate | override | sort | flatten | join =>
    simp only [work]
    generalize Pass.runPure o _ n = made
    cases made with
    | ok | error => rfl

theorem write_startWriting (d : Desk) (n : Node) :
    ((d.startWriting o).write n).map
      (fun d => ({ file := o.file, strategy := o.generator, body := d.body } : Program)) =
      ofTree o n := by
  simp only [write, startWriting, ofTree]
  cases Program.statements ⟨o.generator, Program.buffer⟩ 1 n with
  | ok | error => rfl

end Desk

/-! ## Compilers -/

/-- A compiler that works in the one way has the results and the engines of the other way. -/
def IgnoresDesk {α : Type} (works : Compiler → Registry → Desk → Except Error α × Compiler)
    (work : Options → Registry → Cache → Except Error α × Cache) : Prop :=
  ∀ c r left, ∃ desk, works c r left =
    ((work c.options r c.met).1, { c with met := (work c.options r c.met).2, desk })

namespace Compiler

variable {source : Source}

theorem tree_eq (c : Compiler) (source : Source) :
    ∃ desk, c.tree source = (source.tree c.options, { c with desk }) := by
  rw [tree, Source.tree]
  cases source.decode c.options with
  | error e => exact ⟨c.desk, rfl⟩
  | ok t => exact ⟨_, rfl⟩

theorem runAll_eq (r : Registry) (left : Desk) (passes : List Pass) (n : Node) (c : Compiler) :
    ∃ desk, runAll r left passes n c =
      ((Pass.runAll c.options r passes n c.met).1,
        { c with met := (Pass.runAll c.options r passes n c.met).2, desk }) := by
  induction passes generalizing n c with
  | nil => exact ⟨c.desk, rfl⟩
  | cons pass passes ih =>
    -- The engines met are kept by one pass, and notes by the others.
    cases pass with
    | embed =>
      rw [runAll, Pass.runAll, Pass.run]
      cases (n.rendered c.options r).run c.met with
      | mk result met =>
        cases result with
        | error failure => exact ⟨left, rfl⟩
        | ok m => exact ih m { c with met, desk := c.desk.start c.options .embed }
    | interpolate | control | override | sort | merge | markup | escape | flatten | join =>
      simp only [runAll]
      rw [Pass.runAll, Pass.run_pure (by decide), ← c.desk.work_start]
      generalize (c.desk.start c.options _).work c.options _ n = result
      cases result with
      | error failure => exact ⟨left, rfl⟩
      | ok made => exact ih made.1 { c with desk := made.2 }

theorem transform_ignoresDesk (source : Source) :
    IgnoresDesk (fun c r left => c.transform r left source)
      fun o r met => MarkupTemplate.transform o r source met := by
  intro c r left
  obtain ⟨desk, read⟩ := c.tree_eq source
  simp only [transform, MarkupTemplate.transform, read]
  cases source.tree c.options with
  | error e => exact ⟨desk, rfl⟩
  | ok n =>
    obtain ⟨desk', ran⟩ := runAll_eq r left (Pass.all c.options) n { c with desk }
    simp only [ran]
    cases Pass.runAll c.options r (Pass.all c.options) n c.met with
    | mk result met =>
      cases result with
      | ok | error => exact ⟨desk', rfl⟩

theorem generate_ignoresDesk (source : Source) :
    IgnoresDesk (fun c r left => c.generate r left source)
      fun o r met => MarkupTemplate.generate o r source met := by
  intro c r left
  obtain ⟨desk, made⟩ := transform_ignoresDesk source c r left
  simp only [generate, MarkupTemplate.generate, made]
  cases MarkupTemplate.transform c.options r source c.met with
  | mk result met =>
    cases result with
    | error e => exact ⟨desk, rfl⟩
    | ok n =>
      simp only
      rw [← desk.write_startWriting n]
      cases (desk.startWriting c.options).write n with
      | error failure => exact ⟨left, rfl⟩
      | ok desk' => exact ⟨desk', rfl⟩

end Compiler

theorem IgnoresDesk.map {α β : Type}
    {works : Compiler → Registry → Desk → Except Error α × Compiler}
    {work : Options → Registry → Cache → Except Error α × Cache} (ignores : IgnoresDesk works work)
    (f : Options → α → β) :
    IgnoresDesk (fun c r left => ((works c r left).1.map (f c.options), (works c r left).2))
      fun o r met => ((work o r met).1.map (f o), (work o r met).2) := by
  intro c r left
  obtain ⟨desk, same⟩ := ignores c r left
  exact ⟨desk, by simp only [same]⟩

end MarkupTemplate
