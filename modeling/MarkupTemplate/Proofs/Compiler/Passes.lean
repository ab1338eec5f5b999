import MarkupTemplate.Proofs.Attribute.Merge
import MarkupTemplate.Proofs.Embedded.Render
import MarkupTemplate.Proofs.Node.Written
import MarkupTemplate.Proofs.Outline.Measured

/-!
# The passes of a compilation

A pass takes a tree at one stage and leaves it at another, with fewer kinds of nodes. Rendering
embedded blocks and expanding interpolated text can fail; the others cannot (`runAll_keeps`).
-/

namespace MarkupTemplate

open Node (Kinds Fits Keeps)
open Embedded (Registry Cache Agrees resolve)

/-! ## Stages -/

/-- How far a tree has come. -/
inductive Stage where
  | rendered
  | expanded
  | stated
  | merged
  | written
  | escaped
  | flat

def Stage.kinds : Stage → Kinds
  | .rendered => .rendered
  | .expanded => .expanded
  | .stated => .stated
  | .merged => .merged
  | .written => .written
  | .escaped | .flat => .core

namespace Pass

def takes : Pass → Stage
  | .embed | .interpolate => .rendered
  | .control => .expanded
  | .override | .sort | .merge => .stated
  | .markup => .merged
  | .escape => .written
  | .flatten => .escaped
  | .join => .flat

def leaves : Pass → Stage
  | .embed => .rendered
  | .interpolate => .expanded
  | .control | .override | .sort => .stated
  | .merge => .merged
  | .markup => .written
  | .escape => .escaped
  | .flatten | .join => .flat

/-- Whether a pass comes behind those that can fail. -/
def isLate : Pass → Bool
  | .embed | .interpolate => false
  | _ => true

variable {pass : Pass} {n n' : Node} {o : Options} {r : Registry} {passes passes' : List Pass}
  {met met' : Cache}
  {stage stage' : Stage}

theorem runPure_keeps (o : Options) (late : pass.isLate)
    (fits : Fits pass.takes.kinds o.format .tree n) :
    Yields (Keeps pass.leaves.kinds o.format .tree n) (fun _ => False) (pass.runPure o n) := by
  cases pass with
  | embed | interpolate => nomatch late
  | control => exact (Node.controlled_keeps fits o.disableCapture 0).map fun _ kept => kept
  | override => exact Node.overridden_keeps rfl o.overrideAttrs fits
  | sort =>
    rw [runPure]
    split
    · exact Node.sorted_keeps rfl o.sortAttrKeys fits
    · exact ⟨fits, fun _ => rfl⟩
  | merge => exact (Node.attributed_keeps o fits rfl 0).map fun _ kept => kept
  | markup => exact (Node.markup_keeps fits rfl ⟨o.pretty, 0⟩ {}).map fun _ kept => kept
  | escape => exact Node.escaped_keeps o.escapeHtml fits rfl none
  | flatten => exact Node.flattened_keeps fits
  | join => exact Node.joined_keeps fits

/-! ## Sequences of passes -/

theorem exists_of_runAll_cons (ran : runAll o r (pass :: passes) n met = (.ok n', met')) :
    ∃ m met₁, pass.run o r n met = (.ok m, met₁) ∧ runAll o r passes m met₁ = (.ok n', met') := by
  rw [runAll] at ran
  split at ran
  next m met₁ first => exact ⟨m, met₁, first, ran⟩
  next => nomatch ran

theorem exists_of_runAll_append (ran : runAll o r (passes ++ passes') n met = (.ok n', met')) :
    ∃ m met₁, runAll o r passes n met = (.ok m, met₁) ∧
    runAll o r passes' m met₁ = (.ok n', met') := by
  induction passes generalizing n met with
  | nil => exact ⟨n, met, rfl, ran⟩
  | cons pass passes ih =>
    obtain ⟨m, met₁, first, rest⟩ := exists_of_runAll_cons ran
    obtain ⟨m', met₂, second, last⟩ := ih rest
    refine ⟨m', met₂, ?_, last⟩
    rw [runAll, first]
    exact second

/-- Late passes, each of which takes a tree where the one in front has left it. -/
inductive Leads : Stage → List Pass → Stage → Prop where
  | nil {stage : Stage} : Leads stage [] stage
  | cons (pass : Pass) {passes : List Pass} {stage : Stage} :
    pass.isLate → Leads pass.leaves passes stage → Leads pass.takes (pass :: passes) stage

theorem Leads.append {stage'' : Stage} (first : Leads stage passes stage')
    (rest : Leads stage' passes' stage'') : Leads stage (passes ++ passes') stage'' := by
  induction first with
  | nil => exact rest
  | cons pass late _ ih => exact .cons pass late (ih rest)

def late (o : Options) : List Pass :=
  [control, override]
    ++ (if o.sortAttrs then [sort] else [])
    ++ [merge, markup, escape, flatten]
    ++ (if o.streaming then [] else [join])

theorem all_eq (o : Options) : all o = .embed :: .interpolate :: late o := rfl

theorem leads_late (o : Options) : Leads .expanded (late o) .flat := by
  have state : Leads .expanded [.control, .override] .stated :=
    .cons .control rfl (.cons .override rfl .nil)
  have sort : Leads .stated (if o.sortAttrs then [.sort] else []) .stated := by
    split
    · exact .cons .sort rfl .nil
    · exact .nil
  have write : Leads .stated [.merge, .markup, .escape, .flatten] .flat :=
    .cons .merge rfl (.cons .markup rfl (.cons .escape rfl (.cons .flatten rfl .nil)))
  have join : Leads .flat (if o.streaming then [] else [.join]) .flat := by
    split
    · exact .nil
    · exact .cons .join rfl .nil
  exact ((state.append sort).append write).append join

theorem run_late (o : Options) (r : Registry) (late : pass.isLate) (n : Node) (met : Cache) :
    pass.run o r n met = (pass.runPure o n, met) := by
  cases pass with
  | embed => nomatch late
  | _ => rfl

theorem runAll_keeps (o : Options) (r : Registry) (leads : Leads stage passes stage') (met : Cache)
    (fits : Fits stage.kinds o.format .tree n) :
    ∃ n', runAll o r passes n met = (.ok n', met) ∧ Keeps stage'.kinds o.format .tree n n' := by
  induction leads generalizing n with
  | nil => exact ⟨n, rfl, fits, fun _ => rfl⟩
  | cons pass late _ ih =>
    obtain ⟨m, stepped, kept⟩ := (runPure_keeps o late fits).exists_ok
    obtain ⟨n', rest, kept'⟩ := ih kept.fits
    rw [runAll, run_late o r late n met, stepped]
    exact ⟨n', rest, kept'.fits, fun feed => (kept'.extent feed).trans (kept.extent feed)⟩

theorem embed_interpolated (complete : ∀ entry ∈ r, entry.2.isComplete)
    (read : Outline.IsRead o.format n) : Yields (fun n' => Fits .expanded o.format .tree n' ∧
        ∀ feed, n'.extent feed = n.extent feed + feed * n.drift r)
      Node.EmbedFails (n.embed (resolve o r) o.format >>= Node.interpolated) := by
  refine (Node.embed_embeds complete read).bind ?_
  intro m embeds
  refine (Node.interpolated_keeps embeds.fits).mono ?_ ?_
  · intro n' kept
    exact ⟨kept.fits, fun feed => (kept.extent feed).trans (embeds.extent feed)⟩
  · rintro failure rfl
    exact .render .unclosed

theorem runAll_all (o : Options) (r : Registry) (agrees : Agrees met r) (n : Node) :
    ∃ met', Agrees met' r ∧ runAll o r (all o) n met =
      match n.embed (resolve o r) o.format >>= Node.interpolated with
      | .ok n' => runAll o r (late o) n' met'
      | .error failure => (.error failure, met') := by
  obtain ⟨met', ran, agrees'⟩ := Node.run_rendered o r n met agrees
  refine ⟨met', agrees', ?_⟩
  rw [all_eq, runAll, run, ran]
  cases n.embed (resolve o r) o.format with
  | error failure => rfl
  | ok m =>
    simp only [runAll, run, runPure, bind, Except.bind]
    cases m.interpolated with
    | error failure | ok n' => rfl

end Pass

/-! ## Templates -/

variable {o : Options} {n : Node} {r : Registry} {source : Source}

theorem transform_of_error {e : Error} (refused : source.tree o = .error e) (r : Registry)
    (met : Cache) : transform o r source met = (.error e, met) := by
  rw [transform, refused]

theorem transform_of_tree (read : source.tree o = .ok n) {met : Cache} (agrees : Agrees met r) :
    ∃ met', Agrees met' r ∧ transform o r source met =
      match n.embed (resolve o r) o.format >>= Node.interpolated with
      | .ok n' =>
        ((Pass.runAll o r (Pass.late o) n' met').1.mapError Error.step,
          (Pass.runAll o r (Pass.late o) n' met').2)
      | .error failure => (.error (.step failure), met') := by
  obtain ⟨met', agrees', ran⟩ := Pass.runAll_all o r agrees n
  refine ⟨met', agrees', ?_⟩
  rw [transform, read]
  simp only [ran]
  cases n.embed (resolve o r) o.format >>= Node.interpolated with
  | error failure => rfl
  | ok n' =>
    dsimp only
    generalize Pass.runAll o r (Pass.late o) n' met' = ran
    obtain ⟨result, met''⟩ := ran
    cases result with
    | error failure | ok n'' => rfl

theorem Source.tree_of_transform {final : Node} {met met' : Cache}
    (compiled : transform o r source met = (.ok final, met')) : ∃ n, source.tree o = .ok n := by
  cases read : source.tree o with
  | ok n => exact ⟨n, rfl⟩
  | error e =>
    rw [transform, read] at compiled
    nomatch compiled

theorem Source.tree_of_generate {p : Program} {met : Cache}
    (compiled : (generate o r source met).1 = .ok p) : ∃ n, source.tree o = .ok n := by
  cases read : source.tree o with
  | ok n => exact ⟨n, rfl⟩
  | error e =>
    rw [generate, transform_of_error read] at compiled
    nomatch compiled

theorem exists_of_transform {final : Node} {met met' : Cache} (read : source.tree o = .ok n)
    (compiled : transform o r source met = (.ok final, met')) :
    Pass.runAll o r (Pass.all o) n met = (.ok final, met') := by
  rw [transform, read] at compiled
  simp only at compiled
  split at compiled
  next ran =>
    cases compiled
    exact ran
  next => nomatch compiled

end MarkupTemplate
