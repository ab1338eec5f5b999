import MarkupTemplate.Proofs.Outline.Concat
import MarkupTemplate.Proofs.Compiler.Passes
import MarkupTemplate.Proofs.Program.Statements
import MarkupTemplate.Proofs.Embedded.Accepted

/-!
# Line numbers behind a template

A line that puts out a value below a template has a higher number than its own if the template holds
blocks whose engines put code with line feeds into the tree: these are counted as lines of the code
and of the block (`Node.drift`). Nothing else makes the numbers drift (`generate_lineMap_drift`).
-/

namespace MarkupTemplate

open List
open Node (Kinds Fits Keeps extentOf escapedCode)
open Embedded (Registry Cache Agrees verbatim resolve)
open Embedded.Registry (builtin)
open Source (dropReturn rawLines)
open Outline (IsTextNode IsRead)

/-! ## Trees that are compiled alike

Only the first two passes can refuse a tree. Trees are `Alike` if both accept or refuse them
together and they have the same drift, as a tree and the tree without line marks do
(`alike_unmarked`).
-/

namespace Node

variable {o : Options} {r : Registry}

/-! ## Accepted trees -/

/-- The first two passes accept a tree. -/
def Accepted (o : Options) (r : Registry) (n : Node) : Prop :=
  Succeeds (n.embed (resolve o r) o.format >>= interpolated)

def AllAccepted (o : Options) (r : Registry) (ns : List Node) : Prop :=
  ∀ n ∈ ns, Accepted o r n

variable {ns nodes entries ms : List Node} {f : Frame} {n m : Node} {name : Text}

theorem succeeds_lists :
    Succeeds (embedAll (resolve o r) o.format ns >>= interpolatedAll) ↔ AllAccepted o r ns := by
  have steps : (embedAll (resolve o r) o.format ns >>= interpolatedAll) =
      ns.mapM (embed (resolve o r) o.format) >>= fun ms => ms.mapM interpolated := by
    rw [embedAll_eq]
    exact congrArg _ (funext interpolatedAll_eq)
  rw [steps]
  exact succeeds_mapM_mapM

theorem accepted_seq : Accepted o r (.seq ns) ↔ AllAccepted o r ns := by
  rw [← succeeds_lists, Accepted, embed, bind_assoc]
  exact succeeds_bind_congr fun ms => succeeds_bind_ok

theorem accepted_frame (other : ∀ name, f ≠ .embedded name) :
    Accepted o r (.frame f n) ↔ Accepted o r n := by
  have step : embed (resolve o r) o.format (.frame f n) =
      embed (resolve o r) o.format n >>= fun m => .ok (.frame f m) := by
    cases f with
    | embedded name => exact absurd rfl (other name)
    | _ => rfl
  rw [Accepted, step, bind_assoc]
  exact succeeds_bind_congr fun m => succeeds_bind_ok

theorem accepted_embedded (texts : ∀ n ∈ nodes, IsTextNode n) :
    Accepted o r (.embedded name (.seq nodes)) ↔
      ∃ e, resolve o r name = .ok e ∧ e.Accepts (textsOf nodes) := by
  rw [Accepted, embed, bind_assoc, succeeds_bind]
  exact exists_congr fun e => and_congr_right fun _ => Embedded.render_accepts e o.format texts

theorem accepted_tag {body : Node} :
    Accepted o r (.tag name entries (some body)) ↔ AllAccepted o r entries ∧ Accepted o r body := by
  rw [← succeeds_lists, Accepted, Accepted, embed]
  cases embedAll (resolve o r) o.format entries with
  | error e => exact ⟨(by rintro ⟨_, ⟨⟩⟩), (by rintro ⟨⟨_, ⟨⟩⟩, _⟩)⟩
  | ok es =>
    cases body.embed (resolve o r) o.format with
    | error e => exact ⟨(by rintro ⟨_, ⟨⟩⟩), (by rintro ⟨_, _, ⟨⟩⟩)⟩
    | ok m =>
      show Succeeds (Node.tag name es (some m)).interpolated ↔
        Succeeds (interpolatedAll es) ∧ Succeeds m.interpolated
      rw [interpolated]
      cases interpolatedAll es with
      | error e => exact ⟨(by rintro ⟨_, ⟨⟩⟩), (by rintro ⟨⟨_, ⟨⟩⟩, _⟩)⟩
      | ok es' => exact succeeds_bind_ok.trans (and_iff_right (succeeds_ok es')).symm

theorem allAccepted_append : AllAccepted o r (ns ++ ms) ↔ AllAccepted o r ns ∧ AllAccepted o r ms :=
  List.forall_mem_append

theorem driftOf_append (ns ms : List Node) :
    driftOf r (ns ++ ms) = driftOf r ns + driftOf r ms := by
  induction ns with
  | nil => simp [driftOf]
  | cons n ns ih => simp [driftOf, ih, Nat.add_assoc]

theorem drift_frame (other : ∀ name, f ≠ .embedded name) : drift r (.frame f n) = drift r n := by
  cases f with
  | embedded name => exact absurd rfl (other name)
  | _ => rfl

/-! ## Trees that are alike -/

/-- Two lists of trees are accepted or refused together, with as many lines too many. -/
structure Alike (o : Options) (r : Registry) (ns ms : List Node) : Prop where
  accepted : AllAccepted o r ns ↔ AllAccepted o r ms
  drift : driftOf r ns = driftOf r ms

theorem Alike.refl (ns : List Node) : Alike o r ns ns :=
  ⟨Iff.rfl, rfl⟩

theorem Alike.symm (alike : Alike o r ns ms) : Alike o r ms ns :=
  ⟨alike.accepted.symm, alike.drift.symm⟩

theorem Alike.trans {ks : List Node} (first : Alike o r ns ms) (rest : Alike o r ms ks) :
    Alike o r ns ks :=
  ⟨first.accepted.trans rest.accepted, first.drift.trans rest.drift⟩

theorem Alike.append {ns' ms' : List Node} (first : Alike o r ns ms) (rest : Alike o r ns' ms') :
    Alike o r (ns ++ ns') (ms ++ ms') := by
  refine ⟨?_, ?_⟩
  · rw [allAccepted_append, allAccepted_append, first.accepted, rest.accepted]
  · rw [driftOf_append, driftOf_append, first.drift, rest.drift]

theorem alike_of (accepted : Accepted o r n ↔ Accepted o r m) (drift : n.drift r = m.drift r) :
    Alike o r [n] [m] := by
  refine ⟨?_, ?_⟩
  · simpa [AllAccepted] using accepted
  · simpa [driftOf] using drift

theorem Alike.single (alike : Alike o r [n] [m]) :
    (Accepted o r n ↔ Accepted o r m) ∧ n.drift r = m.drift r := by
  refine ⟨?_, ?_⟩
  · simpa [AllAccepted] using alike.accepted
  · simpa [driftOf] using alike.drift

theorem Alike.seq (alike : Alike o r ns ms) : Alike o r [.seq ns] [.seq ms] := by
  refine alike_of ?_ alike.drift
  rw [accepted_seq, accepted_seq, alike.accepted]

theorem Alike.frame (other : ∀ name, f ≠ .embedded name) (alike : Alike o r [n] [m]) :
    Alike o r [.frame f n] [.frame f m] := by
  refine alike_of ?_ ?_
  · rw [accepted_frame other, accepted_frame other, alike.single.1]
  · rw [drift_frame other, drift_frame other, alike.single.2]

theorem Alike.tag (alike : Alike o r [n] [m]) :
    Alike o r [.tag name entries (some n)] [.tag name entries (some m)] := by
  refine alike_of ?_ alike.single.2
  rw [accepted_tag, accepted_tag, alike.single.1]

theorem alike_embedded {nodes' : List Node} (texts : ∀ n ∈ nodes, IsTextNode n)
    (texts' : ∀ n ∈ nodes', IsTextNode n)
    (accepts : ∀ e : Embedded.Engine, e.Accepts (textsOf nodes) ↔ e.Accepts (textsOf nodes'))
    (drift : ∀ e : Embedded.Engine, e.drift (.seq nodes) = e.drift (.seq nodes')) :
    Alike o r [.embedded name (.seq nodes)] [.embedded name (.seq nodes')] := by
  refine alike_of ?_ ?_
  · rw [accepted_embedded texts, accepted_embedded texts']
    exact exists_congr fun e => and_congr_right fun _ => accepts e
  · simp only [Node.drift, drift]

/-! ## Line marks -/

theorem alike_newline : Alike o r [.newline] [] := by
  refine ⟨⟨fun _ _ mem => (nomatch mem), ?_⟩, rfl⟩
  intro _ n mem
  rw [List.mem_singleton.mp mem]
  exact succeeds_ok _

theorem textsOf_unmarkedAll (texts : ∀ n ∈ nodes, IsTextNode n) :
    textsOf (unmarkedAll nodes) = textsOf nodes ∧ ∀ n ∈ unmarkedAll nodes, IsTextNode n := by
  induction nodes with
  | nil => exact ⟨rfl, nofun⟩
  | cons n ns ih =>
    obtain ⟨same, others⟩ := ih fun m mem => texts m (.tail _ mem)
    have first := texts n (.head _)
    cases first with
    | newline => exact ⟨same, others⟩
    | @text front t margin plain =>
      rw [unmarkedAll_cons (by exact fun same => nomatch same)]
      refine ⟨congrArg (List.cons _) same, ?_⟩
      rw [List.forall_mem_cons]
      exact ⟨.text margin plain, others⟩

theorem unmarkedAll_entries (each : ∀ e ∈ entries, Attribute.IsEntry e) :
    unmarkedAll entries = entries := by
  induction entries with
  | nil => rfl
  | cons e entries ih =>
    have rest := ih fun e mem => each e (.tail _ mem)
    cases each e (.head _) with
    | text | code => exact congrArg (List.cons _) rest
    | shortcut sign name =>
      unfold Attribute.shortcutEntry
      split <;> exact congrArg (List.cons _) rest

theorem alike_unmarkedAll (each : ∀ n ∈ ns, Alike o r [n] [n.unmarked]) :
    Alike o r ns (unmarkedAll ns) := by
  induction ns with
  | nil => exact .refl []
  | cons n ns ih =>
    have rest := ih fun m mem => each m (.tail _ mem)
    by_cases mark : n = .newline
    · rw [mark, unmarkedAll_newline]
      exact alike_newline.append rest
    · rw [unmarkedAll_cons mark]
      exact (each n (.head _)).append rest

theorem alike_unmarked (read : IsRead o.format n) : Alike o r [n] [n.unmarked] := by
  induction read with
  | leaf => exact .refl _
  | frame read _ _ ih => exact ih.frame (Outline.ne_embedded_of_isRead read)
  | @embedded name nodes texts =>
    obtain ⟨same, texts'⟩ := textsOf_unmarkedAll texts
    have raw : (Node.seq nodes).rawText = (Node.seq (unmarkedAll nodes)).rawText := by
      rw [rawText_block texts, rawText_block texts', same]
    refine alike_embedded texts texts' (fun e => by rw [same]) fun e => ?_
    simp only [Embedded.Engine.drift, Embedded.Kind.drift, raw]
  | seq _ ih => exact (alike_unmarkedAll ih).seq
  | closed entries =>
    rw [unmarked, unmarkedAll_entries entries]
    exact .refl _
  | tag entries _ ih =>
    rw [unmarked, unmarkedAll_entries entries]
    exact ih.tag

theorem alike_of_unmarkedAll (read : ∀ n ∈ ns, IsRead o.format n)
    (read' : ∀ n ∈ ms, IsRead o.format n)
    (same : unmarkedAll ns = unmarkedAll ms) : Alike o r ns ms := by
  have first : Alike o r ns (unmarkedAll ns) :=
    alike_unmarkedAll fun n mem => alike_unmarked (read n mem)
  have second : Alike o r ms (unmarkedAll ms) :=
    alike_unmarkedAll fun n mem => alike_unmarked (read' n mem)
  rw [same] at first
  exact first.trans second.symm

end Node

/-! ## The last line of a template -/

def Stage.line (o : Options) (source : Text) : Stage → List Node
  | .rendered | .expanded => [.output true source (.seq [.newline])]
  | .stated | .merged | .written => [.seq [.dynamic source, .seq [.newline]]]
  | .escaped => [.seq [.dynamic (escapedCode o.escapeHtml none source), .seq [.newline]]]
  | .flat => [.dynamic (escapedCode o.escapeHtml none source), .newline]

/-! ## Nodes in front of a line -/

/-- A step has replaced the nodes in front of a line by others of some kinds. -/
structure Replaces (k : Kinds) (format : Format) (front front' : List Node) : Prop where
  fits : ∀ n ∈ front', Fits k format .tree n
  extent : ∀ feed, extentOf feed front' = extentOf feed front

section Lists

variable {k : Kinds} {format : Format} {front last last' : List Node}

theorem mapM_append_ok {f : Node → Except Failure Node} {front' : List Node}
    (first : front.mapM f = .ok front') (rest : last.mapM f = .ok last') :
    (front ++ last).mapM f = .ok (front' ++ last') := by
  rw [List.mapM_append, first, rest]
  rfl

theorem mapM_replaces {f : Node → Except Failure Node}
    (each : ∀ n ∈ front, Yields (Keeps k format .tree n) (fun _ => False) (f n))
    (rest : last.mapM f = .ok last') :
    ∃ front', (front ++ last).mapM f = .ok (front' ++ last') ∧ Replaces k format front front' := by
  obtain ⟨front', first, kept⟩ := (Yields.mapM each).exists_ok
  exact ⟨front', mapM_append_ok first rest, (Keeps.all kept).1, (Keeps.all kept).2⟩

theorem thread_replaces {σ : Type} {f : σ → Node → Except Failure (Node × σ)}
    (each : ∀ n ∈ front, ∀ s, Yields (fun r => Keeps k format .tree n r.1) (fun _ => False) (f s n))
    (rest : ∀ s, ∃ s', thread f s last = .ok (last', s')) (s : σ) :
    ∃ front' s', thread f s (front ++ last) = .ok (front' ++ last', s') ∧
      Replaces k format front front' := by
  obtain ⟨⟨front', between⟩, first, kept⟩ := (Yields.thread each s).exists_ok
  obtain ⟨s', second⟩ := rest between
  exact ⟨front', s', thread_append first second, (Keeps.all kept).1, (Keeps.all kept).2⟩

theorem Node.joinedSeq_append {front front' : List Node} {r : Run}
    (joined : joinedSeq r front = .ok front') (source : Text) :
    joinedSeq r (front ++ [.dynamic source, .newline]) =
      .ok (front' ++ [.dynamic source, .newline]) := by
  rw [joinedSeq_append_cons rfl, joined]
  rfl

end Lists

/-! ## Passes -/

namespace Pass

variable {o : Options} {front : List Node}

theorem runPure_line {pass : Pass} (late : pass.isLate)
    (fits : ∀ n ∈ front, Fits pass.takes.kinds o.format .tree n) (source : Text) :
    ∃ front', pass.runPure o (.seq (front ++ pass.takes.line o source)) =
        .ok (.seq (front' ++ pass.leaves.line o source)) ∧
      Replaces pass.leaves.kinds o.format front front' := by
  cases pass with
  | embed | interpolate => nomatch late
  | control =>
    have line : ∀ used,
      thread (Node.controlled o.disableCapture) used (Stage.expanded.line o source) =
        .ok (Stage.stated.line o source, used) := fun _ => rfl
    obtain ⟨front', used, ran, replaces⟩ := thread_replaces
      (fun n mem => Node.controlled_keeps (fits n mem) o.disableCapture)
      (fun used => ⟨used, line used⟩) 0
    refine ⟨front', ?_, replaces⟩
    rw [runPure, Node.controlled, Node.controlledAll_eq, takes, ran]
    rfl
  | override =>
    have line : (Stage.stated.line o source).mapM (Node.overridden o.overrideAttrs) =
        .ok (Stage.stated.line o source) := rfl
    obtain ⟨front', ran, replaces⟩ := mapM_replaces
      (fun n mem => Node.overridden_keeps rfl o.overrideAttrs (fits n mem)) line
    refine ⟨front', ?_, replaces⟩
    rw [runPure, (Node.overridden_listPass o.overrideAttrs).seq, takes, ran]
    rfl
  | sort =>
    rw [runPure]
    split
    · have line : (Stage.stated.line o source).mapM (Node.sorted o.sortAttrKeys) =
          .ok (Stage.stated.line o source) := rfl
      obtain ⟨front', ran, replaces⟩ := mapM_replaces
        (fun n mem => Node.sorted_keeps rfl o.sortAttrKeys (fits n mem)) line
      refine ⟨front', ?_, replaces⟩
      rw [(Node.sorted_listPass o.sortAttrKeys).seq, takes, ran]
      rfl
    · exact ⟨front, rfl, fits, fun _ => rfl⟩
  | merge =>
    have line : ∀ used, thread (Node.attributed o) used (Stage.stated.line o source) =
        .ok (Stage.merged.line o source, used) := fun _ => rfl
    obtain ⟨front', used, ran, replaces⟩ := thread_replaces
      (fun n mem => Node.attributed_keeps o (fits n mem) rfl)
      (fun used => ⟨used, line used⟩) 0
    refine ⟨front', ?_, replaces⟩
    rw [runPure, Node.attributed, Node.attributedAll_eq, takes, ran]
    rfl
  | markup =>
    have line : ∀ s, thread (Node.markup o ⟨o.pretty, 0⟩) s (Stage.merged.line o source) =
        .ok (Stage.written.line o source, s.written) := fun _ => rfl
    obtain ⟨front', s, ran, replaces⟩ := thread_replaces
      (fun n mem => Node.markup_keeps (fits n mem) rfl ⟨o.pretty, 0⟩)
      (fun s => ⟨s.written, line s⟩) {}
    refine ⟨front', ?_, replaces⟩
    rw [runPure, Node.markup, Node.markupAll_eq, takes, ran]
    rfl
  | escape =>
    have line : (Stage.written.line o source).mapM (Node.escaped o.escapeHtml none) =
        .ok (Stage.escaped.line o source) := rfl
    obtain ⟨front', ran, replaces⟩ := mapM_replaces
      (fun n mem => Node.escaped_keeps o.escapeHtml (fits n mem) rfl none) line
    refine ⟨front', ?_, replaces⟩
    rw [runPure, Node.escaped, Node.escapedAll_eq, takes, ran]
    rfl
  | flatten =>
    have line : (Stage.escaped.line o source).mapM Node.flattened =
      .ok [.seq (Stage.flat.line o source)] :=
      rfl
    obtain ⟨front', ran, replaces⟩ := mapM_replaces
      (fun n mem => Node.flattened_keeps (fits n mem)) line
    refine ⟨front'.flatMap Node.spliced, ?_, ?_, ?_⟩
    · rw [runPure, Node.flattened, Node.flattenedAll_eq, takes, ran]
      simp only [bind, Except.bind, pure, Except.pure, List.flatMap_append]
      rfl
    · intro n mem
      obtain ⟨m, found, inside⟩ := List.mem_flatMap.mp mem
      exact Node.fits_spliced (replaces.fits m found) n inside
    · intro feed
      rw [Node.extentOf_spliced, replaces.extent feed]
  | join =>
    obtain ⟨front', ran, fits', extent⟩ := (Node.joinedSeq_keeps
      (fun n mem => Node.joined_keeps (fits n mem)) {}).exists_ok
    refine ⟨front', ?_, fits', fun feed => (extent feed).trans (Nat.zero_add _)⟩
    rw [runPure, Node.joined, takes, Stage.line, Node.joinedSeq_append ran]
    rfl

theorem runAll_line (r : Registry) {passes : List Pass} {stage stage' : Stage}
    (leads : Leads stage passes stage') (met : Cache)
    (fits : ∀ n ∈ front, Fits stage.kinds o.format .tree n) (source : Text) :
    ∃ front', runAll o r passes (.seq (front ++ stage.line o source)) met =
        (.ok (.seq (front' ++ stage'.line o source)), met) ∧
      Replaces stage'.kinds o.format front front' := by
  induction leads generalizing front with
  | nil => exact ⟨front, rfl, fits, fun _ => rfl⟩
  | cons pass late _ ih =>
    obtain ⟨between, stepped, replaces⟩ := runPure_line late fits source
    obtain ⟨front', rest, replaces'⟩ := ih replaces.fits
    rw [runAll, run_late o r late _ met, stepped]
    exact ⟨front', rest, replaces'.fits,
      fun feed => (replaces'.extent feed).trans (replaces.extent feed)⟩

end Pass

theorem Program.ofTree_line (o : Options) {front : List Node}
    (fits : ∀ n ∈ front, Fits .core o.format .tree n) (source : Text) :
    ∃ body, ofTree o (.seq (front ++ Stage.flat.line o source)) = .ok {
      file := o.file
      strategy := o.generator
      body := body ++ [.plain (.output buffer (escapedCode o.escapeHtml none source))
        (1 + extentOf 1 front)] } := by
  have oneLine : '\n' ∉ buffer := by decide
  obtain ⟨body, written⟩ := statementsOf_core (t := ⟨o.generator, buffer⟩)
    (fun n mem line => statements_core (fits n mem) rfl oneLine line) 1
  refine ⟨body, ?_⟩
  have last : statementsOf ⟨o.generator, buffer⟩ (1 + extentOf 1 front) (Stage.flat.line o source) =
      .ok ([.plain (.output buffer (escapedCode o.escapeHtml none source))
        (1 + extentOf 1 front)], _) := rfl
  rw [ofTree, statements, statementsOf_append written last]
  rfl

/-! ## The line behind a template -/

namespace Text

variable {t : Text}

theorem trimRight_of_plain (plain : ∀ c ∈ t, isBlank c = false) : trimRight t = t := by
  induction t with
  | nil => rfl
  | cons c t ih =>
    rw [forall_mem_cons] at plain
    rw [trimRight, ih plain.2]
    cases t with
    | nil => simp [plain.1]
    | cons d t => rfl

/-- A text that is not empty and holds neither blanks nor commas, such as a name. -/
structure IsWord (t : Text) : Prop where
  filled : t ≠ []
  plain : ∀ c ∈ t, isBlank c = false
  whole : ',' ∉ t

theorem IsWord.feed_not_mem (word : IsWord t) : '\n' ∉ t := by
  intro feed
  have ink := word.plain '\n' feed
  exact absurd ink (by decide)

theorem IsWord.trim_eq (word : IsWord t) : trim (' ' :: t) = t := by
  have left : trimLeft (' ' :: t) = trimLeft t := rfl
  obtain ⟨c, t, rfl⟩ := exists_cons_of_ne_nil word.filled
  have first := word.plain c (.head _)
  have kept : trimLeft (c :: t) = c :: t := by simp [trimLeft, first]
  rw [trim, left, kept, trimRight_of_plain word.plain]

theorem IsWord.allBlank_eq (word : IsWord t) : allBlank (' ' :: t) = false := by
  obtain ⟨c, t, rfl⟩ := exists_cons_of_ne_nil word.filled
  have first := word.plain c (.head _)
  simp [allBlank, first]

theorem IsWord.endsWith_eq (word : IsWord t) : endsWith ',' t = false := by
  rw [endsWith, beq_eq_false_iff_ne]
  exact fun last => word.whole (mem_of_getLast? last)

end Text

namespace Outline

def outputLine (source : Text) : Text :=
  '=' :: ' ' :: source

theorem ofLines_outputLine (o : Options) {source : Text} (word : Text.IsWord source) :
    ofLines o [outputLine source] = .ok (.seq [.output true source (.seq [.newline])]) := by
  have mark : Indicator.read (outputLine source) = some (.output .byDefault, ' ' :: source) := rfl
  have start : (Spot.start 1 (outputLine source)).skipBlanks =
      ⟨1, [], outputLine source⟩ := rfl
  have scanned : (⟨1, [], outputLine source⟩ : Spot).scan? Indicator.read =
      some (.output .byDefault, ⟨1, ['='], ' ' :: source⟩) := by
    rw [Spot.scan?, mark]
    simp [Spot.advance, outputLine]
  have done : step o {} (outputLine source) =
      .ok ⟨1, Layout.push {} (.frame (.output true source) .plain) [.newline] [], .nothing⟩ := by
    show dispatch o ⟨1, {}, .nothing⟩ (Spot.start 1 (outputLine source)).skipBlanks = _
    rw [start, dispatch, scanned]
    have ink : Spot.atEnd ⟨1, ['='], ' ' :: source⟩ = false := word.allBlank_eq
    have whole : Text.endsWith ',' (Text.trimRight source) = false := by
      rw [Text.trimRight_of_plain word.plain, word.endsWith_eq]
    simp only [marked, ink, word.trim_eq, takeCode, whole]
    rfl
  rw [ofLines, foldlM_cons, done]
  rfl

/-- The line feed behind a template takes a carriage return from its end. -/
theorem ends_in_front {o : Options} {source more : Text} {tree : Node}
    (accepted : ofSource o (dropReturn source) = .ok tree)
    (unmarked : Source.dropOrderMark more = more) :
    ∃ lines s, rawLines (source ++ '\n' :: more) = lines ++ rawLines more ∧
      Ends o lines s ∧ ∀ r, Node.Alike o r [tree] [.seq s.settled.children] := by
  have plain : ∀ line ∈ Source.lines (dropReturn source), '\n' ∉ line :=
    fun line mem => Source.not_mem_of_mem_lines mem
  obtain ⟨s, ends⟩ := ends_of_ok plain accepted
  obtain rfl : .seq s.settled.children = tree := by
    rw [ofSource, ends.ofLines_eq] at accepted
    exact Except.ok.inj accepted
  obtain ⟨s', ends', same⟩ := ends.raw
  refine ⟨_, s', Source.rawLines_append_dropReturn source unmarked, ends', fun r => ?_⟩
  refine (Node.alike_of_unmarkedAll (isRead_of_run plain ends.run ends.resting).1 ?_ same.symm).seq
  exact (isRead_of_run (fun line mem => Source.not_mem_of_mem_rawLines mem)
    ends'.run ends'.resting).1

open Node (Alike) in
theorem ofSource_outputLine {o : Options} {t : Text} {tree : Node}
    (read : ofSource o (dropReturn t) = .ok tree)
    {source : Text} (word : Text.IsWord source) :
    ∃ front, outputLine source ∈ Source.lines (t ++ '\n' :: outputLine source) ∧
      ofSource o (t ++ '\n' :: outputLine source) =
        .ok (.seq (front ++ [.output true source (.seq [.newline])])) ∧
      (∀ n ∈ front, IsRead o.format n) ∧ extentOf 1 front = 1 + t.count '\n' ∧
      ∀ r, Alike o r [tree] [.seq front] := by
  have noFeed : '\n' ∉ outputLine source := by
    simp only [outputLine, mem_cons, not_or]
    exact ⟨by decide, by decide, word.feed_not_mem⟩
  have single : rawLines (outputLine source) = [outputLine source] :=
    congrArg Source.dropReturns (Text.split_of_not_mem noFeed)
  have flush : Indent.width o.tabSize (outputLine source) = 0 := rfl
  obtain ⟨lines, s, raw, ends, alike⟩ := ends_in_front read
    (show Source.dropOrderMark (outputLine source) = outputLine source from rfl)
  rw [single] at raw
  have plain : ∀ line ∈ lines, '\n' ∉ line := by
    intro line mem
    have among : line ∈ rawLines (t ++ '\n' :: outputLine source) := by
      rw [raw]
      exact mem_append_left _ mem
    exact Source.not_mem_of_mem_rawLines among
  have all : Source.lines (t ++ '\n' :: outputLine source) = lines ++ [outputLine source] := by
    rw [Source.lines_eq, raw, Source.dropEmptyEnd_append_singleton lines (by simp [outputLine])]
  obtain ⟨read, extent⟩ := isRead_of_run plain ends.run ends.resting
  refine ⟨s.settled.children, all ▸ mem_append_right _ (mem_singleton_self _), ?_, read, ?_, alike⟩
  · rw [ofSource, all, ends.append_flush rfl flush, ofLines_outputLine o word]
    rfl
  · have count := congrArg List.length raw
    rw [Source.length_rawLines, Source.lineCount, Text.length_split, count_append,
      count_cons_self, count_eq_zero_of_not_mem noFeed, length_append,
      length_singleton] at count
    rw [extent, ends.number]
    omega

end Outline

/-! ## The first two passes -/

namespace Node

variable {o : Options} {r : Registry} {front : List Node}

theorem embed_interpolated_line (complete : ∀ entry ∈ r, entry.2.isComplete)
    (read : ∀ n ∈ front, IsRead o.format n) (accepted : AllAccepted o r front) (source : Text) :
    ∃ front', ((Node.seq (front ++ Stage.rendered.line o source)).embed (resolve o r) o.format >>=
        interpolated) = .ok (.seq (front' ++ Stage.expanded.line o source)) ∧
      (∀ n ∈ front', Fits .expanded o.format .tree n) ∧
      ∀ feed, extentOf feed front' = extentOf feed front + feed * driftOf r front := by
  obtain ⟨front', both⟩ := succeeds_lists.mpr accepted
  obtain ⟨between, first, second⟩ := exists_of_bind both
  have yields := Pass.embed_interpolated complete (.seq read)
  have alone : ((Node.seq front).embed (resolve o r) o.format >>= interpolated) =
      .ok (.seq front') := by
    simp only [embed, first, bind, Except.bind, pure, Except.pure, interpolated, second]
  rw [alone] at yields
  have embeds : embedAll (resolve o r) o.format (front ++ Stage.rendered.line o source) =
      .ok (between ++ Stage.rendered.line o source) := by
    rw [embedAll_eq] at first ⊢
    exact mapM_append_ok first rfl
  have expands : interpolatedAll (between ++ Stage.rendered.line o source) =
      .ok (front' ++ Stage.expanded.line o source) := by
    rw [interpolatedAll_eq] at second ⊢
    exact mapM_append_ok second rfl
  refine ⟨front', ?_, ?_, ?_⟩
  · simp only [embed, embeds, bind, Except.bind, pure, Except.pure, interpolated, expands]
  · cases yields.1 with
    | seq _ each => exact each
  · intro feed
    simpa [drift] using yields.2 feed

end Node

/-! ## Compilations -/

variable {o : Options} {r : Registry} {met : Cache}

theorem accepted_of_generate (agrees : Agrees met r) {t : Text} {p : Program}
    (compiled : (generate o r (.text t) met).1 = .ok p) :
    ∃ tree, Outline.ofSource o t = .ok tree ∧ tree.Accepted o r := by
  obtain ⟨n, read⟩ := Source.tree_of_generate compiled
  refine ⟨n, (Source.ofSource_of_tree rfl read).2, ?_⟩
  obtain ⟨met', _, transformed⟩ := transform_of_tree read agrees
  rw [Node.Accepted]
  cases expanded : n.embed (Embedded.resolve o r) o.format >>= Node.interpolated with
  | ok m => exact succeeds_ok m
  | error failure =>
    rw [generate, transformed, expanded] at compiled
    cases compiled

theorem generate_line (complete : ∀ entry ∈ r, entry.2.isComplete) (agrees : Agrees met r)
    {t source : Text} {front : List Node}
    (read : (Source.text t).tree o = .ok (.seq (front ++ Stage.rendered.line o source)))
    (isRead : ∀ n ∈ front, Outline.IsRead o.format n) (accepted : Node.AllAccepted o r front) :
    ∃ body, (generate o r (.text t) met).1 = .ok {
      file := o.file
      strategy := o.generator
      body := body ++ [.plain (.output Program.buffer (escapedCode o.escapeHtml none source))
        (1 + extentOf 1 front + Node.driftOf r front)] } := by
  obtain ⟨met', _, transformed⟩ := transform_of_tree read agrees
  obtain ⟨between, expanded, fits, extent⟩ :=
    Node.embed_interpolated_line complete isRead accepted source
  obtain ⟨front', rest, replaces⟩ := Pass.runAll_line r (Pass.leads_late o) met' fits source
  obtain ⟨body, written⟩ := Program.ofTree_line o replaces.fits source
  have line : 1 + extentOf 1 front' = 1 + extentOf 1 front + Node.driftOf r front := by
    rw [replaces.extent 1, extent 1]
    omega
  refine ⟨body, ?_⟩
  rw [expanded] at transformed
  simp only [rest, Except.mapError] at transformed
  rw [generate, transformed]
  simp only [written, line]

/-- What a template that is compiled leaves for a line behind it that puts out a value: the number
of its statement is that of the line, and as many more as engines have counted lines twice. The line
feed in between takes one carriage return from the template, so it is the template without it that
has to be compiled. The line can only be measured if tab stops are not too far apart. -/
theorem generate_lineMap_drift {markdown : Embedded.Renderer} (o : Options) {met met' : Cache}
    (agrees : Agrees met (builtin markdown)) (agrees' : Agrees met' (builtin markdown))
    {t : Text} {p : Program}
    (compiled : (generate o (builtin markdown) (.text (dropReturn t)) met).1 = .ok p) {v : Text}
    (word : Text.IsWord v) :
    (2147483648 ≤ o.tabSize →
      (generate o (builtin markdown) (.text (t ++ "\n= " ++ v)) met').1 = .error .tabOverflow) ∧
    (o.tabSize < 2147483648 →
      ∃ tree p' body front entry, Outline.ofSource o (dropReturn t) = .ok tree ∧
        (generate o (builtin markdown) (.text (t ++ "\n= " ++ v)) met').1 = .ok p' ∧
        p'.body = body ++
          [.plain (.output Program.buffer (escapedCode o.escapeHtml none v)) entry] ∧
        p'.lineMap = front ++ [entry, 0] ∧
        entry = 1 + t.count '\n' + 1 + tree.drift (builtin markdown) ∧
        (entry = 1 + t.count '\n' + 1 ↔ tree.drift (builtin markdown) = 0)) := by
  obtain ⟨tree, read, accepted⟩ := accepted_of_generate agrees compiled
  obtain ⟨front, last, readMore, parsed, extent, alike⟩ := Outline.ofSource_outputLine read word
  obtain ⟨same, drift⟩ := (alike (builtin markdown)).single
  have more : t ++ "\n= " ++ v = t ++ '\n' :: Outline.outputLine v := by
    simp [Outline.outputLine]
  rw [more]
  refine ⟨fun far => ?_, fun near => ?_⟩
  · have refused := Source.tree_eq_tabOverflow_iff.mpr
      (Outline.measurable_eq_false_iff.mpr ⟨far, Outline.outputLine v, last, rfl⟩)
    rw [generate, transform_of_error refused]
  obtain ⟨body, written⟩ := generate_line Embedded.isComplete_builtin agrees'
    (Source.tree_of_ofSource (Outline.measurable_of_lt near _) readMore) parsed
    (Node.accepted_seq.mp (same.mp accepted))
  have single : (Form.output Program.buffer (escapedCode o.escapeHtml none v)).extraLines
      o.generator = 0 := by
    rw [Form.extraLines_output (by decide), Node.count_escapedCode]
    exact count_eq_zero_of_not_mem word.feed_not_mem
  obtain ⟨before, map⟩ := Program.lineMap_append ⟨o.file, o.generator, _⟩ rfl single
  have line : 1 + extentOf 1 front + Node.driftOf (builtin markdown) front =
      1 + t.count '\n' + 1 + tree.drift (builtin markdown) := by
    rw [extent, drift, Node.drift]
    omega
  exact ⟨tree, _, body, before, _, read, written, rfl, map, line, by omega⟩

theorem generate_lineMap_drift_mixed : Agrees [] (builtin verbatim) ∧ Text.IsWord "v" ∧
    ∃ p front, (generate {} (builtin verbatim)
        (.text ":python\n  a = 1\n  b = 2\n%p(c\n  d)\n  e\r\n= v") []).1 = .ok p ∧
      p.lineMap = front ++ [8, 0] := by
  have agrees : Agrees [] (builtin verbatim) := nofun
  have word : Text.IsWord "v" := by
    refine ⟨by decide, ?_, by decide⟩
    intro c mem
    rw [mem_singleton.mp mem]
    rfl
  have compiles : (generate {} (builtin verbatim)
      (.text (dropReturn ":python\n  a = 1\n  b = 2\n%p(c\n  d)\n  e\r")) []).1.isOk := by
    decide +kernel
  have drifts : (Outline.ofSource {}
      (dropReturn ":python\n  a = 1\n  b = 2\n%p(c\n  d)\n  e\r")).toOption.map
      (Node.drift (builtin verbatim)) = some 1 := by
    decide +kernel
  refine ⟨agrees, word, ?_⟩
  obtain ⟨p, compiled⟩ := exists_of_isOk compiles
  obtain ⟨tree, p', _, front, _, read, compiled', _, map, rfl, _⟩ :=
    (generate_lineMap_drift {} agrees agrees compiled word).2 (by decide)
  rw [read] at drifts
  rw [Option.some.inj drifts] at map
  exact ⟨p', front, compiled', map⟩

/-- Two lines of code that are run as they stand put the line behind them one line too far down. -/
theorem generate_lineMap_host_block :
    (generate {} (builtin verbatim) (.text ":python\n  a = 1\n  b = 2") []).1.isOk ∧
      (generate {} (builtin verbatim) (.text ":python\n  a = 1\n  b = 2\n= v") []).1.toOption.map
        Program.lineMap = some [0, 0, 0, 1, 1, 5, 0] := by
  decide +kernel

end MarkupTemplate
