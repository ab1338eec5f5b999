import MarkupTemplate.Proofs.Embedded.Render

/-!
# What engines make

`MakesContent` lists the nodes that a kind without element makes, as rules for a property of trees,
and `Makes` adds the element. So every tree that an engine makes has the property (`Makes.render`).
-/

namespace MarkupTemplate

open List

open Outline (IsTextNode)

def Leaf.isMade : Leaf → Bool
  | .newline | .static _ | .interpolate _ | .code _ => true
  | .unknown | .dynamic _ | .doctype _ | .value _ _ | .trim _ => false

namespace Embedded

/-- A property that the trees made by kinds without element have, node by node. -/
structure MakesContent (holds : Node → Prop) : Prop where
  leaf {l : Leaf} : l.isMade → holds (.leaf l)
  escape (on : Bool) {l : Leaf} : l.isMade → holds (.escape on (.leaf l))
  deferred (text : Text) : holds (.escape false (.dynamic (deferredCode text)))
  output (escaped : Bool) (source : Text) : holds (.output escaped source (.seq []))
  seq {children : List Node} : (∀ n ∈ children, holds n) → holds (.seq children)

/-- A property that the trees made by engines have, node by node. -/
structure Makes (holds : Node → Prop) : Prop extends MakesContent holds where
  tag (name : Text) (attributes : List (Text × Text)) {body : Node} : holds body →
    holds (.tag name (attributes.map fun (name, value) => .attr name (.static value)) (some body))

namespace MakesContent

variable {holds : Node → Prop} {nodes : List Node}

variable (makes : MakesContent holds)

include makes

theorem text {n : Node} (text : IsTextNode n) : holds n := by
  cases text with
  | newline | text => exact makes.leaf rfl

theorem withMarks (texts : ∀ n ∈ nodes, IsTextNode n) {content : List Node}
    (each : ∀ n ∈ content, holds n) :
    Yields holds (fun _ => True) (withMarks content (.seq nodes)) := by
  rw [withMarks_block texts]
  refine makes.seq (forall_mem_append.mpr ⟨each, forall_mem_singleton.mpr (makes.seq ?_)⟩)
  intro n mem
  rw [eq_of_mem_replicate mem]
  exact makes.leaf rfl

theorem preservedNodes (lines : List Text) : ∀ n ∈ preservedNodes lines, holds n := by
  fun_induction Embedded.preservedNodes lines with
  | case1 => exact forall_mem_nil _
  | case2 line => exact forall_mem_singleton.mpr (makes.escape true rfl)
  | case3 line lines _ ih =>
    exact forall_mem_cons.mpr ⟨makes.escape true rfl, forall_mem_cons.mpr ⟨makes.leaf rfl, ih⟩⟩

theorem outputs (segments : List Interpolation.Segment) :
    ∀ n ∈ Protected.outputs (segments.map Interpolation.Segment.piece), holds n := by
  induction segments with
  | nil => nofun
  | cons segment segments ih =>
    cases segment with
    | literal text => exact ih
    | code source =>
      refine forall_mem_cons.mpr ⟨?_, ih⟩
      obtain ⟨escaped, inside, same⟩ := Interpolation.node_code source
      rw [same]
      exact makes.output escaped _

theorem markdown (render : Text → Text) (texts : ∀ n ∈ nodes, IsTextNode n) :
    Yields holds (fun _ => True) (renderMarkdown render (.seq nodes)) := by
  rw [renderMarkdown_eq render texts]
  split
  next segments found =>
    have nodes := restoreFrom_holds (fun _ => makes.leaf rfl) (makes.outputs segments) 0
      (render (Protected.text (segments.map Interpolation.Segment.piece)))
    have restored : Yields holds (fun _ => True) (Protected.restore _ _) :=
      (nodes.mono (fun _ each => each) fun _ _ => trivial).bind fun _ each => makes.seq each
    exact restored.bind fun _ here => makes.withMarks texts (forall_mem_singleton.mpr here)
  next => trivial

theorem content (render : Text → Text) (kind : Kind) (escape : Bool)
    (texts : ∀ n ∈ nodes, IsTextNode n) :
    Yields holds (fun _ => True) (renderContent render kind escape (.seq nodes)) := by
  have withText : ∀ {content : Text → List Node}, (∀ text, ∀ n ∈ content text, holds n) →
      Yields holds (fun _ => True)
        ((Node.seq nodes).collectText >>= fun text => Embedded.withMarks (content text)
          (.seq nodes)) := by
    intro content each
    rw [collectText_block texts]
    exact makes.withMarks texts (each _)
  cases kind with
  | abstract | element | script => trivial
  | markdown => exact makes.markdown render texts
  | deferred => exact withText fun text => forall_mem_singleton.mpr (makes.deferred text)
  | host => exact withText fun text => forall_mem_singleton.mpr (makes.leaf rfl)
  | plain => exact withText fun text => forall_mem_singleton.mpr (makes.escape escape rfl)
  | preserve => exact withText fun text => makes.preservedNodes _
  | cdata =>
    refine withText fun text => ?_
    simp only [forall_mem_cons]
    exact ⟨makes.leaf rfl, makes.leaf rfl, makes.leaf rfl, nofun⟩

variable (e : Engine) (format : Format) (tag : ∀ name, e.settings.tag? = some name →
  ∀ {body : Node}, holds body →
      holds (.tag name (e.settings.attributes.map fun (name, value) => .attr name (.static value))
        (some body))) (texts : ∀ n ∈ nodes, IsTextNode n)

include tag texts

theorem element :
    Yields holds (fun _ => True) (e.renderElement format (.seq nodes)) := by
  have inside : ∀ {content : Node}, holds content → holds (wrapped e.kind format content) := by
    intro content here
    unfold wrapped
    split
    · refine makes.seq ?_
      simp only [forall_mem_cons]
      exact ⟨makes.leaf rfl, here, makes.leaf rfl, nofun⟩
    · exact here
  obtain ⟨kind, ⟨tag?, attributes, content?, escape, more⟩, markdown⟩ := e
  cases content? with
  | some kind =>
    refine (makes.content _ kind false texts).bind fun _ here => ?_
    cases tag? with
    | none => trivial
    | some name => exact tag name rfl (inside here)
  | none =>
    cases tag? with
    | none => trivial
    | some name => exact tag name rfl (inside (makes.seq fun n mem => makes.text (texts n mem)))

/-- What an engine makes of texts has a property that `MakesContent` gives, if its element has. -/
theorem render : Yields holds (fun _ => True) (e.render format (.seq nodes)) := by
  unfold Engine.render
  split
  · exact makes.element e format tag texts
  · exact makes.element e format tag texts
  · exact makes.content _ _ _ texts

end MakesContent

theorem Makes.render {holds : Node → Prop} (makes : Makes holds) (e : Engine) (format : Format)
    {nodes : List Node}
    (texts : ∀ n ∈ nodes, IsTextNode n) :
    Yields holds (fun _ => True) (e.render format (.seq nodes)) :=
  makes.toMakesContent.render e format (fun name _ => makes.tag name e.settings.attributes) texts

end Embedded

end MarkupTemplate
