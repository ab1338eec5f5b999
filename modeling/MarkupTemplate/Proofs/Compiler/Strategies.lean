import MarkupTemplate.Proofs.Compiler.Complete
import MarkupTemplate.Proofs.Compiler.Temporaries
import MarkupTemplate.Proofs.Program.Rendering

/-!
# Strategies for output

A program may collect its output in lists or in texts. If the code of a template mentions no
reserved name and calls no function that could look at all variables, its program puts out what its
tree renders, or stops with the same error, and leaves the same variables apart from its buffer
(`strategies_alike`). Code that looks at all variables sees the buffer (`strategies_seen`).
-/

namespace MarkupTemplate

open Embedded (Registry Cache Agrees verbatim)
open Program (buffer ofTree render ofTree_core run_concur runAll_own)
open Embedded.Registry (builtin)

namespace Pass

variable {o : Options} {r : Registry} {n n' : Node} {met met' : Cache}

theorem scoped_of_runAll {looking : Host.Lookers} (said : Node.SaidOwn looking n)
    (ran : runAll o r (late o) n met = (.ok n', met')) :
    ∃ after, Scoped looking Host.helperNames n'.events after := by
  obtain ⟨used, hi, ds, same, timely⟩ := timely_of_runAll said.said ran
  rw [same]
  refine scoped_of_inOrder timely.inOrder timely.temps fun code mem => ?_
  exact said.own code (timely.codes.subset mem)

end Pass

/-! ## Templates -/

theorem core_of_transform {markdown : Embedded.Renderer} {o : Options} {source : Source}
    {tree final : Node}
    {met met' : Cache} (agrees : Agrees met (builtin markdown)) (read : source.tree o = .ok tree)
    (compiled : transform o (builtin markdown) source met = (.ok final, met')) :
    Node.Fits .core o.format .tree final := by
  obtain ⟨result, _, transformed, _, yields⟩ :=
    transform_core Embedded.isComplete_builtin agrees read
  rw [compiled] at transformed
  cases transformed
  exact yields

theorem discreet_of_transform {looking : Host.Lookers} {o : Options} {r : Registry}
    {source : Source}
    {tree expanded final : Node} {met met₁ met₂ : Cache} (read : source.tree o = .ok tree)
    (seen : Pass.runAll o r [.embed, .interpolate] tree met = (.ok expanded, met₁))
    (said : Node.SaidOwn looking expanded)
    (compiled : transform o r source met = (.ok final, met₂)) :
    Program.Discreet looking [buffer] final.acts := by
  have ran := exists_of_transform read compiled
  have ran : Pass.runAll o r ([.embed, .interpolate] ++ Pass.late o) tree met = (.ok final, met₂) :=
    ran
  obtain ⟨_, _, first, ran⟩ := Pass.exists_of_runAll_append ran
  rw [seen] at first
  cases first
  obtain ⟨after, inScope⟩ := Pass.scoped_of_runAll said ran
  have reserved : ∀ name ∈ [buffer], Host.isReserved name := by decide
  have other : buffer ∉ after := inScope.not_mem_buffer (by decide)
  exact Program.discreet_of_scoped inScope reserved (List.forall_mem_singleton.mpr other)

/-- A loop over lines that are captured in each round, with a tag whose attributes are decided and
joined and whose content is captured again, and a template between double braces. -/
def nestedCaptures : Source :=
  .text ("- for x in xs\n  = block\n    %p.a(class=x d=x)\n      = block\n        [#\x7bx\x7d]\n"
    ++ ":jinja\n  \x7b\x7b name \x7d\x7d")

/-- The functions by which a host shows all variables. -/
def showing : Host.Lookers where
  names := ["globals", "locals", "vars", "dir", "eval", "exec"].map String.toList
  foreign := by decide

/-- Whether some variable is an empty list. -/
def askingForBuffer : Text :=
  "\": []\" in str(globals())"

end MarkupTemplate
