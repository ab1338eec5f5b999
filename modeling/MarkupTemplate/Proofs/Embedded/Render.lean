import MarkupTemplate.Proofs.Embedded.Resolved
import MarkupTemplate.Proofs.Outline.Shape
import MarkupTemplate.Proofs.Source
import MarkupTemplate.Proofs.Node.Expanded

/-!
# Rendered blocks

An engine gives a tree without embedded blocks, or fails because interpolated code is not closed or
a stand-in was lost. It puts back the line marks of its block. Code that is run as it stands, and
text whose interpolated code runs over several lines, also hold line feeds of the block, which are
counted again. `Engine.drift` is how many lines too many that makes.
-/

namespace MarkupTemplate

open List
open Node (Kinds Fits extentOf)
open Outline (IsTextNode IsRead)
open Protected (piecesOf restoreFrom staticNodes restore)

/-! ## Texts of blocks -/

namespace Interpolation

/-- The part of a block that a segment is. -/
def Segment.piece : Segment → Protected.Piece
  | .literal text => .text text
  | .code source => .output (Segment.code source).node

/-- The segments of several texts, if every code in them is closed. -/
def segmentsOf? : List Text → Option (List Segment)
  | [] => some []
  | t :: ts =>
    match segments? t, segmentsOf? ts with
    | some first, some rest => some (first ++ rest)
    | _, _ => none

theorem node_code (source : Text) :
    ∃ escaped inside, (Segment.code source).node = .output escaped inside (.seq []) := by
  simp only [Segment.node]
  split <;> exact ⟨_, _, rfl⟩

theorem piecesOf_segments (segments : List Segment) :
    piecesOf (segments.map Segment.node) = .ok (segments.map Segment.piece) := by
  induction segments with
  | nil => rfl
  | cons segment segments ih =>
    rw [List.map_cons, piecesOf, ih]
    cases segment with
    | literal text => rfl
    | code source =>
      obtain ⟨escaped, inside, same⟩ := node_code source
      rw [List.map_cons, Segment.piece, same]
      rfl

end Interpolation

open Interpolation

namespace Node

/-- The texts of a block. -/
def textsOf : List Node → List Text
  | [] => []
  | .leaf (.interpolate t) :: ns => t :: textsOf ns
  | _ :: ns => textsOf ns

variable {nodes : List Node}

theorem rawText_block (texts : ∀ n ∈ nodes, IsTextNode n) :
    (Node.seq nodes).rawText = (textsOf nodes).flatten := by
  rw [rawText]
  induction nodes with
  | nil => rfl
  | cons n ns ih =>
    have rest := ih fun m mem => texts m (.tail _ mem)
    cases texts n (.head _) with
    | newline => exact rest
    | text => rw [rawTexts, rest, textsOf, List.flatten_cons, rawText]

theorem interpolated_piecesOf_cons {n m : Node} {ps : List Protected.Piece} (ns : List Node)
    (expanded : n.interpolated = .ok m) (found : Protected.pieces m = .ok ps) :
    (interpolatedAll (n :: ns) >>= piecesOf) =
      (interpolatedAll ns >>= piecesOf).map (ps ++ ·) := by
  rw [interpolatedAll, expanded]
  cases interpolatedAll ns with
  | error e => rfl
  | ok ms =>
    simp only [bind, Except.bind, pure, Except.pure, piecesOf, found]
    cases piecesOf ms with
    | error e | ok qs => rfl

theorem interpolated_pieces (texts : ∀ n ∈ nodes, IsTextNode n) :
    ((Node.seq nodes).interpolated >>= Protected.pieces) =
      match segmentsOf? (textsOf nodes) with
      | some segments => .ok (segments.map Segment.piece)
      | none => .error .unclosedInterpolation := by
  have list : (interpolatedAll nodes >>= piecesOf) =
      match segmentsOf? (textsOf nodes) with
      | some segments => .ok (segments.map Segment.piece)
      | none => .error .unclosedInterpolation := by
    induction nodes with
    | nil => rfl
    | cons n ns ih =>
      have rest := ih fun m mem => texts m (.tail _ mem)
      cases texts n (.head _) with
      | newline =>
        rw [interpolated_piecesOf_cons ns rfl rfl, rest]
        cases same : segmentsOf? (textsOf ns) with
        | none | some segments => simp only [textsOf, same]; rfl
      | @text front t _ _ =>
        rw [textsOf, segmentsOf?]
        cases found : segments? (front ++ t) with
        | none =>
          have refused : (Node.interpolate (front ++ t)).interpolated =
              .error .unclosedInterpolation := by
            rw [interpolated, ofInterpolated, found]
          rw [interpolatedAll, refused]
          rfl
        | some segments =>
          have expanded : (Node.interpolate (front ++ t)).interpolated =
              .ok (.seq (segments.map Segment.node)) := by
            rw [interpolated, ofInterpolated, found]
          rw [interpolated_piecesOf_cons ns expanded (piecesOf_segments segments), rest]
          cases segmentsOf? (textsOf ns) with
          | none => rfl
          | some others => exact congrArg Except.ok (List.map_append ..).symm
  rw [← list, interpolated]
  cases interpolatedAll nodes with
  | error e | ok ns => rfl

end Node

namespace Embedded

/-! ## Engines -/

/-- Whether a kind renders text by itself. -/
def Kind.rendersText : Kind → Bool
  | .abstract | .element | .script => false
  | _ => true

/-- Whether an engine says how to render. -/
def Engine.isComplete (e : Engine) : Bool :=
  match e.kind with
  | .element | .script => e.settings.tag?.isSome && e.settings.content?.all Kind.rendersText
  | kind => kind.rendersText

/-- A way to render Markdown: the text as it is. -/
def verbatim : Renderer := fun _ t => t

theorem isComplete_builtin {markdown : Renderer} :
    ∀ entry ∈ Registry.builtin markdown, entry.2.isComplete := by
  simp only [Registry.builtin, forall_mem_cons]
  exact ⟨rfl, rfl, rfl, rfl, rfl, rfl, rfl, rfl, rfl, nofun⟩

/-- The lines of a block that a kind has counted twice. -/
def Kind.drift (kind : Kind) (body : Node) : Nat :=
  match kind with
  | .host => body.rawText.count '\n'
  | .plain => feeds body.rawText
  | _ => 0

/-- The lines of a block that an engine has counted twice. -/
def Engine.drift (e : Engine) (body : Node) : Nat :=
  match e.kind with
  | .element | .script => (e.settings.content?.map fun kind => kind.drift body).getD 0
  | kind => kind.drift body

/-- Failures of an engine that says how to render. -/
inductive RenderFails : Failure → Prop where
  | unclosed : RenderFails .unclosedInterpolation
  | lost (index : Nat) : RenderFails (.lostOutput index)

variable {format : Format} {nodes : List Node}

/-! ## Blocks -/

theorem fits_text {k : Kinds} (texts : k.texts) {n : Node} (text : IsTextNode n) :
    Fits k format .tree n := by
  cases text with
  | newline => exact .newline rfl
  | text => exact .leaf rfl texts

theorem known_block (texts : ∀ n ∈ nodes, IsTextNode n) :
    (Node.seq nodes).known = .ok (.seq nodes) := by
  have known : Node.anyUnknown nodes = false := by
    induction nodes with
    | nil => rfl
    | cons n ns ih =>
      have first : n.hasUnknown = false := by
        cases texts n (.head _) with
        | newline | text => rfl
      rw [Node.anyUnknown, first, ih fun m mem => texts m (.tail _ mem)]
      rfl
  simp [Node.known, Node.hasUnknown, known]

theorem extentOf_block (texts : ∀ n ∈ nodes, IsTextNode n) (feed : Nat) :
    extentOf feed nodes = (Node.seq nodes).marks := by
  rw [Node.marks]
  induction nodes with
  | nil => rfl
  | cons n ns ih =>
    rw [Node.extentOf_cons, Node.marksOf, Outline.extent_isTextNode (texts n (.head _)),
      ih fun m mem => texts m (.tail _ mem)]

/-- A step on a block gives a tree without embedded blocks, with `drift` lines more. -/
structure Rendered (format : Format) (nodes : List Node) (drift : Nat) (n : Node) : Prop where
  fits : Fits .rendered format .tree n
  extent : ∀ feed, n.extent feed = extentOf feed nodes + feed * drift

theorem withMarks_block (texts : ∀ n ∈ nodes, IsTextNode n) (content : List Node) :
    withMarks content (.seq nodes) =
      .ok (.seq (content ++ [.seq (List.replicate (Node.seq nodes).marks .newline)])) := by
  simp only [withMarks, Node.collectMarks, known_block texts]
  rfl

variable {drift : Nat} {segments : List Interpolation.Segment}

theorem withMarks_rendered (texts : ∀ n ∈ nodes, IsTextNode n) {content : List Node}
    (fits : ∀ n ∈ content, Fits .rendered format .tree n)
    (extent : ∀ feed, extentOf feed content = feed * drift) :
    Yields (Rendered format nodes drift) RenderFails (withMarks content (.seq nodes)) := by
  rw [withMarks_block texts]
  refine ⟨.seq rfl (.append fits (.cons (.seq rfl (.newlines rfl _)) .nil)), fun feed => ?_⟩
  simp [extent feed, extentOf_block texts feed, Nat.add_comm]

/-! ## Kept output -/

/-- A node that stands in a rendered text: it takes up no lines. -/
def IsKept (format : Format) (n : Node) : Prop :=
  Fits .rendered format .tree n ∧ ∀ feed, n.extent feed = 0

theorem feeds_texts (texts : ∀ n ∈ nodes, IsTextNode n) :
    ∀ t ∈ Node.textsOf nodes, feeds t = 0 := by
  induction nodes with
  | nil => nofun
  | cons n ns ih =>
    have rest := ih fun m mem => texts m (.tail _ mem)
    cases texts n (.head _) with
    | newline => exact rest
    | @text front t margin plain =>
      intro found mem
      rcases mem_cons.mp mem with rfl | mem
      · rw [feeds_append margin t, feeds_eq_zero plain]
      · exact rest found mem

theorem feeds_segmentsOf {ts : List Text} (oneLine : ∀ t ∈ ts, feeds t = 0)
    (found : segmentsOf? ts = some segments) :
    (segments.map Interpolation.Segment.feeds).sum = 0 := by
  fun_induction segmentsOf? ts generalizing segments with
  | case1 =>
    cases found
    rfl
  | case2 t ts first rest here behind ih =>
    cases found
    have alone := oneLine t (.head _)
    rw [feeds, behind] at alone
    rw [map_append, sum_append, ih (fun t mem => oneLine t (.tail _ mem)) here]
    simpa using alone
  | case3 => cases found

theorem kept_segments (format : Format)
    (oneLine : (segments.map Interpolation.Segment.feeds).sum = 0) :
    ∀ n ∈ Protected.outputs (segments.map Interpolation.Segment.piece), IsKept format n := by
  induction segments with
  | nil => nofun
  | cons segment segments ih =>
    rw [map_cons, sum_cons, Nat.add_eq_zero_iff] at oneLine
    cases segment with
    | literal text => exact ih oneLine.2
    | code source =>
      have lineless : ∀ feed, (Interpolation.Segment.code source).node.extent feed = 0 := by
        intro feed
        rw [Node.extent_segment, oneLine.1, Nat.mul_zero]
      intro n mem
      rcases mem_cons.mp mem with rfl | mem
      · obtain ⟨escaped, inside, same⟩ := node_code source
        rw [same] at lineless ⊢
        exact ⟨.frame rfl rfl (.empty rfl), lineless⟩
      · exact ih oneLine.2 n mem

/-- What holds of the outputs of a block and of texts holds of a text with the outputs put back. -/
theorem restoreFrom_holds {holds : Node → Prop} (text : ∀ text, holds (.static text))
    {outputs : List Node} (each : ∀ n ∈ outputs, holds n) (index : Nat) (t : Text) :
    Yields (fun ns => ∀ n ∈ ns, holds n) RenderFails (restoreFrom index outputs t) := by
  have static : ∀ t, ∀ n ∈ staticNodes t, holds n := by
    intro t
    unfold staticNodes
    split
    · nofun
    · exact forall_mem_singleton.mpr (text t)
  induction outputs generalizing index t with
  | nil => exact static t
  | cons output outputs ih =>
    rw [forall_mem_cons] at each
    rw [restoreFrom]
    split
    next => exact .lost index
    next head rest found =>
      refine (ih each.2 _ rest).bind fun ns others => ?_
      exact forall_mem_append.mpr ⟨static head, forall_mem_cons.mpr ⟨each.1, others⟩⟩

theorem restore_kept {ps : List Protected.Piece}
    (kept : ∀ n ∈ Protected.outputs ps, IsKept format n) (text : Text) :
    Yields (IsKept format) RenderFails (restore ps text) := by
  refine (restoreFrom_holds (fun text => ⟨.static rfl text, fun _ => rfl⟩) kept 0 text).bind ?_
  intro ns each
  refine ⟨.seq rfl fun n mem => (each n mem).1, fun feed => ?_⟩
  rw [Node.extent_group]
  exact Node.extentOf_eq_zero feed fun n mem => (each n mem).2 feed

/-! ## Kinds -/

variable (markdown : Text → Text)

section

variable (texts : ∀ n ∈ nodes, IsTextNode n)

include texts

theorem renderMarkdown_eq :
    renderMarkdown markdown (.seq nodes) =
      match segmentsOf? (Node.textsOf nodes) with
      | some segments => do
        let pieces := segments.map Interpolation.Segment.piece
        let restored ← restore pieces (markdown (Protected.text pieces))
        withMarks [restored] (.seq nodes)
      | none => .error .unclosedInterpolation := by
  have pieces := Node.interpolated_pieces texts
  rw [renderMarkdown, ← bind_assoc, pieces]
  cases segmentsOf? (Node.textsOf nodes) with
  | none | some segments => rfl

theorem renderMarkdown_rendered :
    Yields (Rendered format nodes 0) RenderFails (renderMarkdown markdown (.seq nodes)) := by
  rw [renderMarkdown_eq markdown texts]
  split
  next segments found =>
    have kept := kept_segments format (feeds_segmentsOf (feeds_texts texts) found)
    refine (restore_kept kept _).bind ?_
    intro restored isKept
    exact withMarks_rendered texts (.cons isKept.1 .nil) fun feed => by simp [isKept.2 feed]
  next => exact .unclosed

theorem collectText_block :
    (Node.seq nodes).collectText = .ok (Node.seq nodes).rawText := by
  rw [Node.collectText, known_block texts]
  rfl

end

theorem preservedNodes_kept (format : Format) {lines : List Text}
    (plain : ∀ line ∈ lines, '\n' ∉ line) : ∀ n ∈ preservedNodes lines, IsKept format n := by
  have one : ∀ {line : Text}, '\n' ∉ line → IsKept format (.escape true (.interpolate line)) := by
    intro line plain
    refine ⟨.frame rfl rfl (.leaf rfl rfl), fun feed => ?_⟩
    simp [Frame.extent, Leaf.extent, feeds_eq_zero plain]
  fun_induction preservedNodes lines with
  | case1 => exact forall_mem_nil _
  | case2 line =>
    intro n mem
    rw [mem_singleton.mp mem]
    exact one (plain line (mem_singleton_self _))
  | case3 line lines _ ih =>
    intro n mem
    rcases mem_cons.mp mem with rfl | mem
    · exact one (plain line (.head _))
    · rcases mem_cons.mp mem with rfl | mem
      · exact ⟨.static rfl _, fun _ => rfl⟩
      · exact ih (fun l mem => plain l (.tail _ mem)) n mem

theorem renderContent_rendered (format : Format) {kind : Kind} (renders : kind.rendersText)
    (escape : Bool) (texts : ∀ n ∈ nodes, IsTextNode n) :
    Yields (Rendered format nodes (kind.drift (.seq nodes))) RenderFails
      (renderContent markdown kind escape (.seq nodes)) := by
  have text : Yields (· = (Node.seq nodes).rawText) RenderFails (Node.seq nodes).collectText := by
    rw [collectText_block texts]
    rfl
  cases kind with
  | abstract | element | script => nomatch renders
  | markdown => exact renderMarkdown_rendered markdown texts
  | deferred =>
    refine text.bind ?_
    rintro _ rfl
    refine withMarks_rendered texts (.cons (.frame rfl rfl (.dynamic rfl _)) .nil) fun feed => ?_
    have plain : '\n' ∉ deferredCode (Node.seq nodes).rawText :=
      Text.feed_not_mem_append (Text.feed_not_mem_append (by decide)
        (Text.feed_not_mem_quote _)) (by decide)
    simp [Frame.extent, Leaf.extent, count_eq_zero_of_not_mem plain, Kind.drift]
  | host =>
    refine text.bind ?_
    rintro _ rfl
    refine withMarks_rendered texts (.cons (.statement rfl _) .nil) fun feed => ?_
    simp [Leaf.extent, Kind.drift]
  | plain =>
    refine text.bind ?_
    rintro _ rfl
    refine withMarks_rendered texts (.cons (.frame rfl rfl (.leaf rfl rfl)) .nil) fun feed => ?_
    simp [Frame.extent, Leaf.extent, Kind.drift]
  | preserve =>
    refine text.bind ?_
    rintro _ rfl
    have plain : ∀ line ∈ Text.split '\n' (Node.seq nodes).rawText, '\n' ∉ line :=
      fun line mem => Text.not_mem_of_mem_split mem
    have kept := preservedNodes_kept format plain
    refine withMarks_rendered texts (fun n mem => (kept n mem).1) fun feed => ?_
    rw [Node.extentOf_eq_zero feed fun n mem => (kept n mem).2 feed]
    simp [Kind.drift]
  | cdata =>
    refine text.bind ?_
    rintro _ rfl
    refine withMarks_rendered texts (.cons (.static rfl _) (.cons (.static rfl _)
      (.cons (.static rfl _) .nil))) fun feed => ?_
    simp [Leaf.extent, Kind.drift]

theorem wrapped_rendered {content : Node} (kind : Kind)
    (rendered : Rendered format nodes drift content) :
    Rendered format nodes drift (wrapped kind format content) := by
  unfold wrapped
  split
  · refine ⟨.seq rfl (.cons (.static rfl _) (.cons rendered.fits (.cons (.static rfl _) .nil))),
      fun feed => ?_⟩
    simp [Leaf.extent, rendered.extent feed]
  · exact rendered

theorem renderElement_rendered {e : Engine} (named : e.settings.tag?.isSome)
    (renders : e.settings.content?.all Kind.rendersText) (texts : ∀ n ∈ nodes, IsTextNode n) :
    Yields (Rendered format nodes
        ((e.settings.content?.map fun kind => kind.drift (.seq nodes)).getD 0)) RenderFails
      (e.renderElement format (.seq nodes)) := by
  obtain ⟨kind, ⟨tag?, attributes, content?, escape, more⟩, markdown⟩ := e
  obtain ⟨tag, rfl⟩ := Option.isSome_iff_exists.mp named
  have finish : ∀ {drift : Nat} {content : Node}, Rendered format nodes drift content →
      Rendered format nodes drift
        (.tag tag (attributes.map fun a => .attr a.1 (.static a.2))
          (some (wrapped kind format content))) := by
    intro drift content rendered
    have inside := wrapped_rendered kind rendered
    have entries : ∀ e ∈ attributes.map (fun a => Node.attr a.1 (.static a.2)),
        Fits .rendered format .entry e := by
      intro e mem
      obtain ⟨a, _, rfl⟩ := mem_map.mp mem
      exact .attr (.known (.static rfl a.2) fun _ => rfl)
    refine ⟨.tag rfl entries inside.fits, fun feed => ?_⟩
    have zero : extentOf feed (attributes.map fun a => Node.attr a.1 (.static a.2)) = 0 := by
      refine Node.extentOf_eq_zero feed ?_
      intro e mem
      obtain ⟨a, _, rfl⟩ := mem_map.mp mem
      rfl
    rw [Node.extent_tag, zero, inside.extent feed, Nat.zero_add]
  cases content? with
  | none =>
    refine finish ⟨.seq rfl fun n mem => fits_text rfl (texts n mem), fun feed => ?_⟩
    simp
  | some content =>
    refine (renderContent_rendered (markdown {}) format renders false texts).bind ?_
    intro n rendered
    exact finish rendered

theorem render_rendered {e : Engine} (complete : e.isComplete) (texts : ∀ n ∈ nodes, IsTextNode n) :
    Yields (Rendered format nodes (e.drift (.seq nodes))) RenderFails
      (e.render format (.seq nodes)) := by
  obtain ⟨kind, settings, markdown⟩ := e
  cases kind with
  | element | script =>
    rw [Engine.isComplete, Bool.and_eq_true] at complete
    exact renderElement_rendered complete.1 complete.2 texts
  | abstract => nomatch complete
  | markdown =>
    exact @renderContent_rendered nodes (markdown settings) format .markdown rfl settings.escape
      texts
  | deferred =>
    exact @renderContent_rendered nodes (markdown settings) format .deferred rfl settings.escape
      texts
  | host =>
    exact @renderContent_rendered nodes (markdown settings) format .host rfl settings.escape texts
  | plain =>
    exact @renderContent_rendered nodes (markdown settings) format .plain rfl settings.escape texts
  | preserve =>
    exact @renderContent_rendered nodes (markdown settings) format .preserve rfl settings.escape
      texts
  | cdata =>
    exact @renderContent_rendered nodes (markdown settings) format .cdata rfl settings.escape texts

end Embedded

/-! ## Trees -/

namespace Node

open Embedded

mutual

/-- The lines of a template that its engines have counted twice. -/
def drift (r : Registry) : Node → Nat
  | .leaf _ => 0
  | .frame (.embedded name) body => ((r.find? name).map fun e => e.drift body).getD 0
  | .frame _ inner => drift r inner
  | .group _ children => driftOf r children
  | .tag _ _ none => 0
  | .tag _ _ (some body) => drift r body

def driftOf (r : Registry) : List Node → Nat
  | [] => 0
  | n :: ns => drift r n + driftOf r ns

end

/-- Failures of rendering by engines that say how to render. -/
inductive EmbedFails : Failure → Prop where
  | disabled (name : Text) : EmbedFails (.engineDisabled name)
  | unknown (name : Text) : EmbedFails (.engineNotFound name)
  | render {failure : Failure} : RenderFails failure → EmbedFails failure

variable {r : Registry} {o : Options}

theorem fits_isEntry {k : Kinds} {format : Format} (texts : k.texts) (escapes : k.escapes)
    {e : Node} (entry : Attribute.IsEntry e) : Fits k format .entry e := by
  cases entry with
  | text plain =>
    refine .attr (.known (.frame rfl escapes (.leaf rfl texts)) fun feed => ?_)
    simp [Frame.extent, Leaf.extent, feeds_eq_zero plain]
  | code plain => exact .attr (.code plain)
  | shortcut sign name =>
    unfold Attribute.shortcutEntry
    split
    · exact .shortcut (.known (.static rfl name) fun _ => rfl)
    · exact .attr (.known (.static rfl name) fun _ => rfl)

theorem embed_isEntry (engine : Text → Except Failure Engine) (format : Format)
    {entries : List Node} (each : ∀ e ∈ entries, Attribute.IsEntry e) :
    embedAll engine format entries = .ok entries := by
  induction entries with
  | nil => rfl
  | cons e entries ih =>
    have first : embed engine format e = .ok e := by
      cases each e (.head _) with
      | text | code => rfl
      | shortcut sign name =>
        unfold Attribute.shortcutEntry
        split <;> rfl
    rw [embedAll, first, ih fun e mem => each e (.tail _ mem)]
    rfl

/-- Rendering gives a tree without embedded blocks, with the lines engines count twice added. -/
structure Embeds (r : Registry) (format : Format) (n n' : Node) : Prop where
  fits : Fits .rendered format .tree n'
  extent : ∀ feed, n'.extent feed = n.extent feed + feed * n.drift r

theorem Embeds.all {format : Format} {ns ns' : List Node}
    (each : List.Forall₂ (Embeds r format) ns ns') : (∀ n' ∈ ns', Fits .rendered format .tree n') ∧
      ∀ feed, extentOf feed ns' = extentOf feed ns + feed * driftOf r ns := by
  induction each with
  | nil => exact ⟨.nil, fun _ => rfl⟩
  | cons first _ ih =>
    refine ⟨.cons first.fits ih.1, fun feed => ?_⟩
    rw [extentOf_cons, extentOf_cons, driftOf, first.extent feed, ih.2 feed, Nat.mul_add]
    omega

theorem isComplete_of_find? (complete : ∀ entry ∈ r, entry.2.isComplete) {name : Text}
    {e : Engine} (found : r.find? name = some e) : e.isComplete := by
  obtain ⟨before, after, same, _⟩ := lookup_eq_some_iff.mp found
  refine complete (name, e) ?_
  rw [same]
  exact mem_append_right _ (.head _)

/-- Rendering a template whose engines all say how to render. -/
theorem embed_embeds (complete : ∀ entry ∈ r, entry.2.isComplete) {n : Node}
    (read : IsRead o.format n) :
    Yields (Embeds r o.format n) EmbedFails (n.embed (resolve o r) o.format) := by
  induction read with
  | @leaf l read =>
    cases l with
    | unknown => nomatch read
    | _ => exact ⟨.leaf rfl (Outline.kinds_leaf read), fun _ => rfl⟩
  | @frame f inner read _ _ ih =>
    cases f with
    | embedded name => nomatch read
    | _ =>
      refine ih.bind ?_
      intro inner embeds
      refine ⟨.frame rfl (Outline.kinds_frame read) embeds.fits, fun feed => ?_⟩
      simp [drift, embeds.extent feed, Nat.add_assoc]
  | @embedded name nodes texts =>
    rw [embed, resolve]
    split
    · cases found : r.find? name with
      | none => exact .unknown name
      | some e =>
        refine (render_rendered (isComplete_of_find? complete found) texts).mono ?_
          fun _ fails => .render fails
        intro n rendered
        refine ⟨rendered.fits, fun feed => ?_⟩
        rw [rendered.extent feed]
        simp [drift, found, Frame.extent]
    · exact .disabled name
  | seq _ ih =>
    rw [embed, embedAll_eq]
    refine (Yields.mapM ih).bind ?_
    intro children each
    obtain ⟨fits, extent⟩ := Embeds.all each
    exact ⟨.seq rfl fits, fun feed => by simp [drift, extent feed]⟩
  | closed entries =>
    rw [embed, embed_isEntry _ _ entries]
    exact ⟨.closed rfl fun e mem => fits_isEntry rfl rfl (entries e mem),
      fun feed => by simp [drift]⟩
  | tag entries _ ih =>
    rw [embed, embed_isEntry _ _ entries]
    refine ih.bind ?_
    intro body embeds
    exact ⟨.tag rfl (fun e mem => fits_isEntry rfl rfl (entries e mem)) embeds.fits,
      fun feed => by simp [drift, embeds.extent feed, Nat.add_assoc]⟩

end Node

end MarkupTemplate
