import MarkupTemplate.Proofs.Embedded.Render

/-!
# Accepted blocks

Whether an engine can render a block, and the result be expanded, is decided by the texts of the
block alone (`render_accepts`), not by its line marks or anything around it.
-/

namespace MarkupTemplate

open List
open Interpolation (segments? node_code)
open Protected (restore restoreFrom staticNodes textFrom)

open Outline (IsTextNode)

namespace Node

theorem succeeds_interpolate (t : Text) :
    Succeeds (Node.interpolate t).interpolated ↔ Interpolation.isClosed t := by
  rw [interpolated, ofInterpolated, Interpolation.isClosed]
  cases segments? t with
  | none => exact ⟨(by rintro ⟨_, ⟨⟩⟩), (by rintro ⟨⟩)⟩
  | some segments => exact ⟨fun _ => rfl, fun _ => succeeds_ok _⟩

theorem succeeds_seq {ns : List Node} :
    Succeeds (Node.seq ns).interpolated ↔ ∀ n ∈ ns, Succeeds n.interpolated := by
  rw [interpolated, interpolatedAll_eq]
  exact succeeds_bind_ok.trans succeeds_mapM

theorem succeeds_frame {f : Frame} {n : Node} :
    Succeeds (Node.frame f n).interpolated ↔ Succeeds n.interpolated := by
  rw [interpolated]
  exact succeeds_bind_ok

theorem succeeds_static (t : Text) : Succeeds (Node.static t).interpolated :=
  succeeds_ok _

end Node

namespace Embedded

open Node (textsOf)
open Interpolation (isClosed segmentsOf?)

/-- Whether a kind accepts a block with these texts. -/
def Kind.Accepts (markdown : Text → Text) (kind : Kind) (texts : List Text) : Prop :=
  match kind with
  | .markdown => ∃ segments, segmentsOf? texts = some segments ∧
      let pieces := segments.map Interpolation.Segment.piece
      Succeeds (restore pieces (markdown (Protected.text pieces)))
  | .plain => isClosed texts.flatten
  | .preserve => ∀ line ∈ Text.split '\n' texts.flatten, isClosed line
  | .deferred | .host | .cdata => True
  | .abstract | .element | .script => False

def Engine.Accepts (e : Engine) (texts : List Text) : Prop :=
  match e.kind with
  | .element | .script => e.settings.tag?.isSome ∧
      match e.settings.content? with
      | some kind => kind.Accepts (e.markdown {}) texts
      | none => ∀ t ∈ texts, isClosed t
  | kind => kind.Accepts (e.markdown e.settings) texts

variable {nodes : List Node}

/-! ## Kinds -/

theorem succeeds_block (texts : ∀ n ∈ nodes, IsTextNode n) :
    Succeeds (Node.seq nodes).interpolated ↔ ∀ t ∈ textsOf nodes, isClosed t := by
  rw [Node.succeeds_seq]
  induction nodes with
  | nil => exact ⟨fun _ _ mem => (nomatch mem), nofun⟩
  | cons n ns ih =>
    have rest := ih fun m mem => texts m (.tail _ mem)
    rw [forall_mem_cons, rest]
    cases texts n (.head _) with
    | newline => exact and_iff_right (succeeds_ok _)
    | text => rw [textsOf, forall_mem_cons, Node.succeeds_interpolate]

theorem succeeds_withMarks (texts : ∀ n ∈ nodes, IsTextNode n) (content : List Node) :
    Succeeds (withMarks content (.seq nodes) >>= Node.interpolated) ↔
      ∀ n ∈ content, Succeeds n.interpolated := by
  have marks : Succeeds
      (Node.seq (List.replicate (Node.seq nodes).marks .newline)).interpolated := by
    rw [Node.succeeds_seq]
    intro n mem
    rw [eq_of_mem_replicate mem]
    exact succeeds_ok _
  rw [withMarks_block texts]
  refine Node.succeeds_seq.trans ?_
  rw [forall_mem_append, forall_mem_singleton]
  exact and_iff_left marks

theorem succeeds_restoreFrom {outputs ns : List Node} {index : Nat} {t : Text}
    (known : ∀ n ∈ outputs, Succeeds n.interpolated)
    (restored : restoreFrom index outputs t = .ok ns) : ∀ n ∈ ns, Succeeds n.interpolated := by
  have static : ∀ t, ∀ n ∈ staticNodes t, Succeeds n.interpolated := by
    intro t n mem
    unfold staticNodes at mem
    split at mem
    · cases mem
    · rw [mem_singleton.mp mem]
      exact Node.succeeds_static t
  induction outputs generalizing index t ns with
  | nil =>
    cases restored
    exact static t
  | cons output outputs ih =>
    rw [restoreFrom] at restored
    split at restored
    next => cases restored
    next head rest _ =>
      obtain ⟨ms, behind, same⟩ := exists_of_bind restored
      cases same
      have others := ih (fun n mem => known n (.tail _ mem)) behind
      rw [forall_mem_append, forall_mem_cons]
      exact ⟨static head, known output (.head _), others⟩

theorem succeeds_outputs (segments : List Interpolation.Segment) :
    ∀ n ∈ Protected.outputs (segments.map Interpolation.Segment.piece),
    Succeeds n.interpolated := by
  induction segments with
  | nil => nofun
  | cons segment segments ih =>
    cases segment with
    | literal t => exact ih
    | code source =>
      intro n mem
      rcases mem_cons.mp mem with rfl | mem
      · obtain ⟨escaped, inside, same⟩ := node_code source
        rw [same]
        exact succeeds_ok _
      · exact ih n mem

variable (markdown : Text → Text)

theorem succeeds_renderMarkdown (texts : ∀ n ∈ nodes, IsTextNode n) :
    Succeeds (renderMarkdown markdown (.seq nodes) >>= Node.interpolated) ↔
      Kind.markdown.Accepts markdown (textsOf nodes) := by
  rw [renderMarkdown_eq markdown texts, Kind.Accepts]
  cases segmentsOf? (textsOf nodes) with
  | none =>
    refine ⟨fun ⟨_, same⟩ => (nomatch same), ?_⟩
    rintro ⟨_, same, _⟩
    nomatch same
  | some segments =>
    simp only [bind_assoc, Option.some.injEq, exists_eq_left']
    constructor
    · intro succeeds
      obtain ⟨restored, same, _⟩ := succeeds_bind.mp succeeds
      exact ⟨restored, same⟩
    · rintro ⟨restored, same⟩
      refine succeeds_bind.mpr ⟨restored, same, ?_⟩
      rw [succeeds_withMarks texts, forall_mem_singleton]
      obtain ⟨ns, found, rest⟩ := exists_of_bind same
      cases rest
      exact Node.succeeds_seq.mpr (succeeds_restoreFrom (succeeds_outputs segments) found)

theorem succeeds_preservedNodes (lines : List Text) :
    (∀ n ∈ preservedNodes lines, Succeeds n.interpolated) ↔ ∀ line ∈ lines, isClosed line := by
  fun_induction preservedNodes lines with
  | case1 => exact iff_of_true (forall_mem_nil _) (forall_mem_nil _)
  | case2 line =>
    rw [forall_mem_singleton, forall_mem_singleton, Node.succeeds_frame,
      Node.succeeds_interpolate]
  | case3 line lines _ ih =>
    rw [forall_mem_cons, forall_mem_cons, forall_mem_cons, Node.succeeds_frame,
      Node.succeeds_interpolate, ih]
    exact and_congr_right fun _ => and_iff_right (Node.succeeds_static _)

theorem succeeds_renderContent (kind : Kind) (escape : Bool) (texts : ∀ n ∈ nodes, IsTextNode n) :
    Succeeds (renderContent markdown kind escape (.seq nodes) >>= Node.interpolated) ↔
      kind.Accepts markdown (textsOf nodes) := by
  have collected : (Node.seq nodes).collectText = .ok (textsOf nodes).flatten := by
    rw [collectText_block texts, Node.rawText_block texts]
  cases kind with
  | abstract | element | script => exact ⟨fun ⟨_, same⟩ => (nomatch same), fun never => never.elim⟩
  | markdown => exact succeeds_renderMarkdown markdown texts
  | deferred =>
    rw [renderContent, collected, Kind.Accepts]
    refine (succeeds_withMarks texts _).trans ?_
    rw [forall_mem_singleton, Node.succeeds_frame]
    exact iff_true_intro (succeeds_ok _)
  | host =>
    rw [renderContent, collected, Kind.Accepts]
    refine (succeeds_withMarks texts _).trans ?_
    rw [forall_mem_singleton]
    exact iff_true_intro (succeeds_ok _)
  | plain =>
    rw [renderContent, collected, Kind.Accepts]
    refine (succeeds_withMarks texts _).trans ?_
    rw [forall_mem_singleton, Node.succeeds_frame, Node.succeeds_interpolate]
  | preserve =>
    rw [renderContent, collected, Kind.Accepts]
    exact (succeeds_withMarks texts _).trans (succeeds_preservedNodes _)
  | cdata =>
    rw [renderContent, collected, Kind.Accepts]
    refine (succeeds_withMarks texts _).trans (iff_true_intro ?_)
    simp only [forall_mem_cons]
    exact ⟨Node.succeeds_static _, Node.succeeds_static _, Node.succeeds_static _,
      nofun⟩

theorem succeeds_element (kind : Kind) (format : Format) (tag : Text)
    (attributes : List (Text × Text)) (content : Node) :
    Succeeds (Node.tag tag (attributes.map fun (name, value) => .attr name (.static value))
        (some (wrapped kind format content))).interpolated ↔ Succeeds content.interpolated := by
  have entries : Succeeds (Node.interpolatedAll
      (attributes.map fun (name, value) => .attr name (.static value))) := by
    rw [Node.interpolatedAll_eq, succeeds_mapM]
    intro e mem
    obtain ⟨⟨name, value⟩, _, rfl⟩ := mem_map.mp mem
    exact succeeds_ok _
  have inside : Succeeds (wrapped kind format content).interpolated ↔
      Succeeds content.interpolated := by
    unfold wrapped
    split
    · rw [Node.succeeds_seq, forall_mem_cons, forall_mem_cons, forall_mem_singleton]
      exact ⟨fun each => each.2.1, fun succeeds => ⟨succeeds_ok _, succeeds, succeeds_ok _⟩⟩
    · rfl
  obtain ⟨found, same⟩ := entries
  rw [Node.interpolated, same]
  exact succeeds_bind_ok.trans inside

section

variable (e : Engine) (format : Format) (texts : ∀ n ∈ nodes, IsTextNode n)

include texts

theorem succeeds_renderElement :
    Succeeds (e.renderElement format (.seq nodes) >>= Node.interpolated) ↔
      e.settings.tag?.isSome ∧
        match e.settings.content? with
        | some kind => kind.Accepts (e.markdown {}) (textsOf nodes)
        | none => ∀ t ∈ textsOf nodes, isClosed t := by
  obtain ⟨kind, ⟨tag?, attributes, content?, escape, more⟩, markdown⟩ := e
  cases tag? with
  | none =>
    refine ⟨?_, fun never => nomatch never.1⟩
    intro succeeds
    obtain ⟨_, rendered, _⟩ := succeeds_bind.mp succeeds
    cases content? with
    | none => nomatch rendered
    | some content =>
      obtain ⟨_, _, same⟩ := exists_of_bind rendered
      nomatch same
  | some tag =>
    refine Iff.trans ?_ (and_iff_right rfl).symm
    cases content? with
    | none => exact (succeeds_element kind format tag attributes _).trans (succeeds_block texts)
    | some content =>
      rw [Engine.renderElement, bind_assoc]
      exact (succeeds_bind_congr fun inside =>
        succeeds_element kind format tag attributes inside).trans
          (succeeds_renderContent (markdown {}) content false texts)

/-- Whether a block is accepted is decided by its texts. -/
theorem render_accepts :
    Succeeds (e.render format (.seq nodes) >>= Node.interpolated) ↔ e.Accepts (textsOf nodes) := by
  obtain ⟨kind, settings, markdown⟩ := e
  cases kind with
  | element | script => exact succeeds_renderElement _ format texts
  | abstract => exact succeeds_renderContent (markdown settings) .abstract settings.escape texts
  | markdown => exact succeeds_renderContent (markdown settings) .markdown settings.escape texts
  | deferred => exact succeeds_renderContent (markdown settings) .deferred settings.escape texts
  | host => exact succeeds_renderContent (markdown settings) .host settings.escape texts
  | plain => exact succeeds_renderContent (markdown settings) .plain settings.escape texts
  | preserve => exact succeeds_renderContent (markdown settings) .preserve settings.escape texts
  | cdata => exact succeeds_renderContent (markdown settings) .cdata settings.escape texts

end

end Embedded

end MarkupTemplate
