import MarkupTemplate.Proofs.Node.Grammar
import MarkupTemplate.Proofs.Outline.Held

/-!
# Trees that are read from templates

`IsRead` lists the trees that templates can give, node by node. A text outside of embedded blocks
has all its code closed, each on one line. Escaping is switched on in some places and never off, and
trims stand around tags. No statement, dynamic output or capture stands in such a tree yet. The tree
takes up as many lines as were read for it; while a template is read, those not yet in it are of
what is unfinished (`Pending.extent`).
-/

namespace MarkupTemplate

open List
open Doctype (declaration? node)

open Interpolation (isClosed feeds feeds_append feeds_eq_zero isClosed_append)
open Node (Kinds extentOf)

/-! ## Kinds of nodes -/

def Leaf.isRead (format : Format) : Leaf → Bool
  | .newline | .static _ => true
  | .doctype kind => (declaration? format kind).isSome
  | .interpolate t => isClosed t && feeds t == 0
  | .unknown | .dynamic _ | .code _ | .value _ _ | .trim _ => false

/-- Whether a template can give a frame. A control line ends in a character that is not blank. -/
def Frame.isRead : Frame → Bool
  | .comment | .condComment _ | .output _ _ | .trim _ => true
  | .control source => Text.trimRight source == source
  | .escape on => on
  | .attr _ | .shortcut _ | .embedded _ | .block | .capture _ => false

def Frame.isTrim : Frame → Bool
  | .trim _ => true
  | _ => false

/-- A tag, perhaps with trims around it. -/
def Node.isTag : Node → Bool
  | .tag _ _ _ => true
  | .frame (.trim _) inner => inner.isTag
  | _ => false

namespace Outline

variable {format : Format}

theorem kinds_leaf {l : Leaf} (read : l.isRead format) : Kinds.leaf .rendered format l := by
  cases l with
  | newline | static | interpolate => rfl
  | doctype => exact read
  | _ => nomatch read

variable {f : Frame}

theorem kinds_frame (read : f.isRead) : Kinds.frame .rendered f := by
  cases f with
  | comment | condComment | output | trim | escape => rfl
  | control => exact read
  | _ => nomatch read

theorem ne_embedded_of_isRead (read : f.isRead) (name : Text) : f ≠ .embedded name := by
  rintro rfl
  nomatch read

/-! ## Trees and open nodes -/

/-- A tree that templates can give. -/
inductive IsRead (format : Format) : Node → Prop where
  | leaf {l : Leaf} : l.isRead format → IsRead format (.leaf l)
  | frame {f : Frame} {inner : Node} :
    f.isRead → (f.isTrim → inner.isTag) → IsRead format inner → IsRead format (.frame f inner)
  | embedded {name : Text} {nodes : List Node} :
    (∀ n ∈ nodes, IsTextNode n) → IsRead format (.embedded name (.seq nodes))
  | seq {children : List Node} : (∀ n ∈ children, IsRead format n) → IsRead format (.seq children)
  | closed {name : Text} {entries : List Node} :
    (∀ e ∈ entries, Attribute.IsEntry e) → IsRead format (.tag name entries none)
  | tag {name : Text} {entries : List Node} {body : Node} :
    (∀ e ∈ entries, Attribute.IsEntry e) → IsRead format body →
    IsRead format (.tag name entries (some body))

theorem isRead_of_frame {inner : Node} (read : IsRead format (.frame f inner)) :
    (∃ name nodes, f = .embedded name ∧ inner = .seq nodes ∧ ∀ n ∈ nodes, IsTextNode n) ∨
      f.isRead ∧ IsRead format inner := by
  generalize whole : Node.frame f inner = n at read
  cases read with
  | frame read _ inside =>
    cases whole
    exact .inr ⟨read, inside⟩
  | embedded texts =>
    cases whole
    exact .inl ⟨_, _, rfl, rfl, texts⟩
  | _ => cases whole

/-- An open node that templates can give, with whatever is nested below it. -/
def OpenRead (format : Format) (opener : Opener) : Prop :=
  ∀ children : List Node, (∀ n ∈ children, IsRead format n) → IsRead format (opener.fill children)

variable {n : Node} {head : TagHead} {t code text : Text} {use : TextUse} {effect : Effect}
  {o : Options}
  {block : TextBlock} {s : State} {lines : List Text}

theorem isRead_newline : IsRead format .newline :=
  .leaf rfl

theorem isRead_textNode (text : IsTextNode n) (closed : ∀ t, n = .interpolate t → isClosed t) :
    IsRead format n := by
  cases text with
  | newline => exact isRead_newline
  | text margin plain =>
    refine .leaf ?_
    simp [Leaf.isRead, closed _ rfl, feeds_append margin, feeds_eq_zero plain]

theorem isRead_text (closed : isClosed t) (plain : '\n' ∉ t) : IsRead format (.interpolate t) :=
  isRead_textNode (n := .interpolate ([] ++ t)) (.text nofun plain) (by rintro _ ⟨⟩; exact closed)

theorem isRead_marks (head : TagHead) : ∀ n ∈ head.marks, IsRead format n := by
  intro n mem
  rw [eq_of_mem_replicate mem]
  exact isRead_newline

theorem isRead_doctype (text : Text) : IsRead format (node format text) := by
  have known : ∀ kind ∈ Doctype.kinds format, (declaration? format kind).isSome := by
    cases format with
    | html5 | html4 | xhtml => decide
  have usual : (declaration? format (Doctype.usual format)).isSome := by
    cases format with
    | html5 | html4 | xhtml => decide
  simp only [node]
  split
  · split <;> exact .leaf rfl
  · split
    next named => exact .leaf (known _ (contains_iff_mem.mp named))
    next => exact .leaf usual

theorem openRead_frame (read : f.isRead) (other : f.isTrim = false) :
    OpenRead format (.frame f .plain) :=
  fun _ each => .frame read (by simp [other]) (.seq each)

theorem openRead_output (mark : OutputMark) (code : Text) :
    OpenRead format (outputOpener mark code) := by
  intro children each
  cases mark with
  | byDefault | raw => exact .frame rfl nofun (.seq each)
  | escaped => exact .frame rfl nofun (.frame rfl nofun (.seq each))

theorem isRead_trims (tag : n.isTag) (read : IsRead format n) (trims : List Trim) :
    IsRead format (trims.foldr .trim n) ∧ (trims.foldr .trim n).isTag := by
  induction trims with
  | nil => exact ⟨read, tag⟩
  | cons side trims ih => exact ⟨.frame rfl (fun _ => ih.2) ih.1, ih.2⟩

theorem openRead_head (good : head.Good) : OpenRead format head.opener := by
  intro children each
  have fill : head.opener.fill children =
      head.trims.foldr .trim (.tag head.name head.entries (some (.seq children))) := by
    unfold TagHead.opener
    induction head.trims with
    | nil => rfl
    | cons side trims ih => exact congrArg (Node.trim side) ih
  rw [fill]
  exact (isRead_trims rfl (.tag good (.seq each)) head.trims).1

theorem isRead_closed (good : head.Good) : IsRead format head.closed :=
  (isRead_trims rfl (.closed good) head.trims).1

/-! ## Effects -/

/-- The text blocks outside of embedded ones have all their code closed. -/
def ReadTexts (block : TextBlock) (use : TextUse) : Prop :=
  use.interpolated → ∀ t, .interpolate t ∈ block.nodes → isClosed t

abbrev ReadEffect (format : Format) (effect : Effect) : Prop :=
  effect.Holds (IsRead format) (OpenRead format)

theorem CodeDoes.isRead {use : CodeUse} (does : CodeDoes code use effect) (good : use.Good) :
    ReadEffect format effect := by
  cases does with
  | wait => trivial
  | complete inked =>
    cases use with
    | control => exact ⟨openRead_frame (by simp [Frame.isRead, inked]) rfl, nofun, nofun⟩
    | output mark => exact ⟨openRead_output mark code, nofun, nofun⟩
    | tagOutput mark head =>
      exact ⟨openRead_head good, forall_mem_singleton.mpr (openRead_output mark code [] nofun),
        isRead_marks head⟩

theorem TagDoes.isRead {extraLines : Nat} (does : TagDoes extraLines effect) :
    ReadEffect format effect := by
  cases does with
  | attributes | text => trivial
  | code good _ _ does => exact does.isRead good
  | @block head good => exact ⟨openRead_head good, nofun, isRead_marks head⟩
  | @closed head good => exact forall_mem_cons.mpr ⟨isRead_closed good, isRead_marks head⟩

theorem LineDoes.isRead (does : LineDoes o effect) : ReadEffect o.format effect := by
  cases does with
  | doctype text => exact forall_mem_singleton.mpr (isRead_doctype text)
  | condComment | comment => exact ⟨openRead_frame rfl rfl, nofun, nofun⟩
  | commentText | silent | embedded => trivial
  | control _ does | output _ does => exact does.isRead trivial
  | text plain closed => exact forall_mem_singleton.mpr (isRead_text closed plain)
  | tag does => exact does.isRead

theorem textEffect_isRead (texts : ∀ n ∈ block.nodes, IsTextNode n) (good : use.Good)
    (closed : ReadTexts block use) : ReadEffect format (textEffect block use) := by
  have each : use.interpolated → ∀ n ∈ block.nodes, IsRead format n := fun expands n mem =>
    isRead_textNode (texts n mem) fun t same => closed expands t (same ▸ mem)
  cases use with
  | embedded name => exact forall_mem_singleton.mpr (.embedded texts)
  | comment =>
    refine forall_mem_singleton.mpr (.frame rfl nofun (.seq ?_))
    simp only [forall_mem_cons]
    exact ⟨.leaf rfl, .seq (each rfl), .leaf rfl, nofun⟩
  | tag head => exact ⟨openRead_head good, each rfl, isRead_marks head⟩

/-- An embedded block is read as a whole, so it is never open. -/
theorem OpenRead.frame {inner : Opener} (opens : OpenRead format (.frame f inner)) :
    f.isRead ∧ OpenRead format inner := by
  have read : f.isRead := by
    rcases isRead_of_frame (opens [.tag [] [] none] (forall_mem_singleton.mpr (.closed nofun))) with
      ⟨name, nodes, rfl, same, texts⟩ | ⟨read, _⟩
    · cases inner with
      | plain =>
        cases same
        nomatch texts _ (.head _)
      | frame | tag => nomatch same
    · exact read
  refine ⟨read, fun children each => ?_⟩
  rcases isRead_of_frame (opens children each) with ⟨name, _, rfl, _⟩ | ⟨_, inside⟩
  · nomatch read
  · exact inside

theorem isRead_reads (o : Options) : Reads o (IsRead o.format) (OpenRead o.format) ReadTexts where
  fill opened each := opened _ each
  newline := isRead_newline
  line := LineDoes.isRead
  tag := TagDoes.isRead
  code := CodeDoes.isRead
  text := textEffect_isRead

theorem Pending.holds_trivial (pending : Pending) : pending.Holds fun _ _ => True := by
  cases pending with
  | _ => trivial

/-! ## Unfinished text blocks -/

theorem readTexts_startingWith (closed : isClosed text) (use : TextUse) :
    ReadTexts (.startingWith text) use := by
  intro _ t mem
  unfold TextBlock.startingWith at mem
  split at mem
  · nomatch mem
  · cases mem_singleton.mp mem
    exact closed

theorem isBlank_of_mem_replicate {c d : Char} {count : Nat} (blank : Text.isBlank d)
    (mem : c ∈ List.replicate count d) : Text.isBlank c := by
  rw [eq_of_mem_replicate mem]
  exact blank

theorem isClosed_lineNodes (b : TextBlock) (indent : Nat) (closed : isClosed text)
    (mem : .interpolate t ∈ b.lineNodes indent text) : isClosed t := by
  unfold TextBlock.lineNodes at mem
  rcases mem_append.mp mem with gap | line
  · split at gap
    · nomatch gap
    · cases mem_singleton.mp gap
      rw [← append_nil (List.replicate b.gaps '\n'),
        isClosed_append fun c => isBlank_of_mem_replicate rfl]
      exact Interpolation.isClosed_nil
  · cases mem_singleton.mp ((mem_cons.mp line).resolve_left nofun)
    rw [isClosed_append]
    · exact closed
    · refine forall_mem_append.mpr ⟨?_, fun c => isBlank_of_mem_replicate rfl⟩
      split
      · exact forall_mem_singleton.mpr rfl
      · nofun

theorem readTexts_addBlank (closed : ReadTexts block use) : ReadTexts block.addBlank use := by
  intro expands t mem
  rcases mem_append.mp mem with mem | mark
  · exact closed expands t mem
  · nomatch mem_singleton.mp mark

theorem readTexts_addLine {block' : TextBlock} {indent : Nat} {spot : Spot}
    (closed : ReadTexts block use)
    (added : block.addLine use.interpolated indent spot = .ok block') : ReadTexts block' use := by
  intro expands t mem
  rw [nodes_of_addLine added] at mem
  rcases mem_append.mp mem with mem | mem
  · exact closed expands t mem
  · refine isClosed_lineNodes block indent ?_ mem
    simp only [TextBlock.addLine, expands, ↓reduceIte] at added
    split at added
    · cases added
    · split at added
      next => cases added
      next checked => exact isClosed_of_checkText checked

theorem CodeDoes.readTexts {use : CodeUse} (s : State) (does : CodeDoes code use effect) :
    (s.after effect).pending.Holds ReadTexts := by
  cases does with
  | wait => trivial
  | complete =>
    cases use with
    | control | output | tagOutput => trivial

theorem TagDoes.readTexts {extraLines : Nat} (s : State) (does : TagDoes extraLines effect) :
    (s.after effect).pending.Holds ReadTexts := by
  cases does with
  | attributes | block | closed => trivial
  | code _ _ _ does => exact does.readTexts s
  | @text head _ _ _ _ closed => exact readTexts_startingWith closed (.tag head)

theorem LineDoes.readTexts (s : State) (does : LineDoes o effect) :
    (s.after effect).pending.Holds ReadTexts := by
  cases does with
  | doctype | condComment | comment | silent | text => trivial
  | commentText _ closed => exact readTexts_startingWith closed .comment
  | control _ does | output _ does | tag does => exact does.readTexts s
  | embedded name => exact fun never => nomatch never

theorem Step.readTexts {s s' : State} (inText : s.pending.Holds ReadTexts) (taken : Step o s s') :
    s'.pending.Holds ReadTexts := by
  cases taken with
  | blank | silent => trivial
  | textBlank pending =>
    rw [pending] at inText
    exact readTexts_addBlank inText
  | textLine pending _ added =>
    rw [pending] at inText
    exact readTexts_addLine inText added
  | attributes _ does | code _ _ _ does => exact does.readTexts s
  | line _ _ does => exact does.readTexts _

/-! ## Lines -/

theorem extent_isEntry {e : Node} (entry : Attribute.IsEntry e) (feed : Nat) :
    e.extent feed = 0 := by
  cases entry with
  | text plain =>
    simp [Attribute.textEntry, Frame.extent, Leaf.extent, feeds_eq_zero plain]
  | code plain =>
    simp [Attribute.codeEntry, Frame.extent, Leaf.extent, count_eq_zero_of_not_mem plain]
  | shortcut sign name =>
    unfold Attribute.shortcutEntry
    split <;> simp [Frame.extent, Leaf.extent]

theorem extent_isTextNode (text : IsTextNode n) (feed : Nat) : n.extent feed = n.marks := by
  cases text with
  | newline => rfl
  | text margin plain =>
    simp [Leaf.extent, feeds_append margin, feeds_eq_zero plain,
      Node.marks]

theorem extent_fill (feed : Nat) (opener : Opener) (children : List Node) :
    (opener.fill children).extent feed =
      (opener.fill []).extent feed + extentOf feed children := by
  induction opener with
  | plain | tag name entries => simp [Opener.fill]
  | frame f inner ih => simp [Opener.fill, ih, Nat.add_assoc]

theorem extentOf_foldl_close (feed : Nat) (levels : List Level) (inner : List Node) :
    extentOf feed (levels.foldl (fun children v => v.close children) inner) =
      extentOf feed (levels.foldl (fun children v => v.close children) []) +
        extentOf feed inner := by
  induction levels generalizing inner with
  | nil => simp
  | cons v levels ih =>
    rw [foldl_cons, foldl_cons, ih, ih (v.close [])]
    simp only [Level.close, Node.extentOf_append, Node.extentOf_cons,
      extent_fill feed v.opener inner]
    omega

theorem extentOf_append (feed : Nat) (l : Layout) (nodes : List Node) :
    extentOf feed (l.append nodes).children =
      extentOf feed l.children + extentOf feed nodes := by
  simp only [Layout.children, Layout.append, extentOf_foldl_close feed l.outer (l.inner ++ nodes),
    extentOf_foldl_close feed l.outer l.inner, Node.extentOf_append]
  omega

theorem extentOf_push (feed : Nat) (l : Layout) (opener : Opener) (start after : List Node) :
    extentOf feed (l.push opener start after).children =
      extentOf feed l.children + (opener.fill []).extent feed + extentOf feed start +
        extentOf feed after := by
  have closed : (l.push opener start after).children =
      (l.append (opener.fill start :: after)).children := rfl
  rw [closed, extentOf_append, Node.extentOf_cons, extent_fill]
  omega

def CodeUse.extraLines : CodeUse → Nat
  | .control | .output _ => 0
  | .tagOutput _ head => head.extraLines

def TextUse.extraLines : TextUse → Nat
  | .embedded _ | .comment => 0
  | .tag head => head.extraLines

/-- The lines that are not yet in the tree. -/
def Pending.extent : Pending → Nat
  | .nothing | .silent => 0
  | .text block use => extentOf 1 block.nodes + use.extraLines + 1
  | .attributes _ _ _ _ extraLines => extraLines + 1
  | .code source use => source.count '\n' + use.extraLines + 1

/-- The lines that have been read. -/
def State.extent (s : State) : Nat :=
  extentOf 1 s.layout.children + s.pending.extent

def Effect.extent : Effect → Nat
  | .close nodes => extentOf 1 nodes + 1
  | .block opener start after =>
    (opener.fill []).extent 1 + extentOf 1 start + extentOf 1 after + 1
  | .silent => 1
  | .wait pending => pending.extent

theorem extent_after (s : State) (effect : Effect) :
    (s.after effect).extent = extentOf 1 s.layout.children + effect.extent := by
  cases effect with
  | close nodes | silent =>
    simp [State.after, State.close, State.extent, Effect.extent, Pending.extent, extentOf_append,
      Leaf.extent]
  | block opener start after =>
    simp only [State.after, State.openBlock, State.extent, Effect.extent, Pending.extent,
      extentOf_push, Node.extentOf_append, Node.extentOf_cons, Node.extentOf_nil, Node.extent_leaf,
      Leaf.extent]
    omega
  | wait pending => rfl

theorem extent_head (good : head.Good) :
    (head.opener.fill []).extent 1 = 0 ∧ head.closed.extent 1 = 0 ∧
      extentOf 1 head.marks = head.extraLines := by
  obtain ⟨name, entries, trims, extraLines⟩ := head
  have zero : extentOf 1 entries = 0 :=
    Node.extentOf_eq_zero 1 fun e mem => extent_isEntry (good e mem) 1
  refine ⟨?_, ?_, Node.extentOf_replicate 1 extraLines⟩
  · unfold TagHead.opener
    induction trims with
    | nil => simp [Opener.fill, zero]
    | cons side trims ih => simpa [Opener.fill, Frame.extent] using ih good
  · unfold TagHead.closed
    induction trims with
    | nil => simp [zero]
    | cons side trims ih => simpa [Frame.extent] using ih good

theorem extent_outputOpener (mark : OutputMark) (code : Text) :
    ((outputOpener mark code).fill []).extent 1 = code.count '\n' := by
  cases mark with
  | byDefault | escaped | raw => simp [outputOpener, Opener.fill, Frame.extent]

theorem extentOf_startingWith (plain : '\n' ∉ text) :
    extentOf 1 (TextBlock.startingWith text).nodes = 0 := by
  unfold TextBlock.startingWith
  split
  · rfl
  · simp [Leaf.extent, feeds_eq_zero plain]

theorem CodeDoes.extent_eq {use : CodeUse} (does : CodeDoes code use effect) (good : use.Good) :
    effect.extent = code.count '\n' + use.extraLines + 1 := by
  cases does with
  | wait => rfl
  | complete =>
    cases use with
    | control =>
      simp [codeEffect, Effect.extent, CodeUse.extraLines, Opener.fill, Frame.extent]
    | output mark =>
      simp [codeEffect, Effect.extent, CodeUse.extraLines, extent_outputOpener]
    | tagOutput mark head =>
      obtain ⟨opener, _, marks⟩ := extent_head good
      simp [codeEffect, Effect.extent, CodeUse.extraLines, extent_outputOpener, opener, marks]

theorem TagDoes.extent_eq {extraLines : Nat} (does : TagDoes extraLines effect) :
    effect.extent = extraLines + 1 := by
  cases does with
  | attributes => rfl
  | code good same plain does =>
    rw [does.extent_eq good, count_eq_zero_of_not_mem plain, ← same]
    simp [CodeUse.extraLines]
  | block good same =>
    obtain ⟨opener, _, marks⟩ := extent_head good
    simp [Effect.extent, opener, marks, same]
  | closed good same =>
    obtain ⟨_, closed, marks⟩ := extent_head good
    simp [Effect.extent, closed, marks, same]
  | text good same plain =>
    simp [Effect.extent, Pending.extent, TextUse.extraLines, same, extentOf_startingWith plain]

theorem LineDoes.extent_eq (does : LineDoes o effect) : effect.extent = 1 := by
  cases does with
  | doctype text =>
    have zero : (node o.format text).extent 1 = 0 := by
      simp only [node]
      repeat' split
      all_goals rfl
    simp [Effect.extent, zero]
  | condComment condition | comment | silent | embedded name => rfl
  | commentText plain =>
    simp [Effect.extent, Pending.extent, TextUse.extraLines, extentOf_startingWith plain]
  | control plain does | output plain does =>
    rw [does.extent_eq trivial, count_eq_zero_of_not_mem plain]
    rfl
  | text plain => simp [Effect.extent, Leaf.extent, feeds_eq_zero plain]
  | tag does => exact does.extent_eq

theorem textEffect_extent (good : use.Good) :
    (textEffect block use).extent = (Pending.text block use).extent := by
  cases use with
  | embedded name =>
    simp [textEffect, Effect.extent, Pending.extent, TextUse.extraLines, Frame.extent]
  | comment =>
    simp [textEffect, Effect.extent, Pending.extent, TextUse.extraLines, Frame.extent, Leaf.extent]
  | tag head =>
    obtain ⟨opener, _, marks⟩ := extent_head good
    simp [textEffect, Effect.extent, Pending.extent, TextUse.extraLines, opener, marks]

theorem extent_settled (resting : s.resting) (good : s.pending.Good) :
    extentOf 1 s.settled.children = s.extent := by
  obtain ⟨number, layout, pending⟩ := s
  cases pending with
  | nothing | silent => rfl
  | text block use =>
    have after := extent_after ⟨number, layout, .text block use⟩ (textEffect block use)
    rw [textEffect_extent good.2] at after
    simp only [State.settled, finishText_eq]
    rw [State.extent] at after
    have done : ((⟨number, layout, .text block use⟩ : State).after (textEffect block use)).pending =
        .nothing := by
      cases use with
      | embedded | comment | tag => rfl
    rw [done] at after
    exact after
  | attributes | code => cases resting

theorem extentOf_lineNodes (block : TextBlock) (indent : Nat) (plain : '\n' ∉ text) :
    extentOf 1 (block.lineNodes indent text) = 1 := by
  have texts := isTextNode_lineNodes block indent plain
  have marks : extentOf 1 (block.lineNodes indent text) =
      Node.marksOf (block.lineNodes indent text) := by
    generalize block.lineNodes indent text = nodes at texts
    induction nodes with
    | nil => rfl
    | cons n ns ih =>
      rw [Node.extentOf_cons, Node.marksOf, extent_isTextNode (texts n (.head _)),
        ih fun m mem => texts m (.tail _ mem)]
  rw [marks]
  unfold TextBlock.lineNodes
  split <;> rfl

theorem Step.extent_eq {s' : State} (good : s.pending.Good) (taken : Step o s s') :
    s'.extent = s.extent + 1 := by
  cases taken with
  | blank pending =>
    have before : s.extent = extentOf 1 s.layout.children := by
      rw [State.extent, pending]
      rfl
    rw [before]
    exact extent_after s (.close [])
  | silent pending =>
    have before : s.extent = extentOf 1 s.layout.children := by
      rw [State.extent, pending]
      rfl
    rw [before]
    exact extent_after s .silent
  | textBlank pending =>
    simp [State.extent, pending, Pending.extent, TextBlock.addBlank, Leaf.extent]
    omega
  | textLine pending plain added =>
    simp only [State.extent, pending, Pending.extent, nodes_of_addLine added, Node.extentOf_append,
      extentOf_lineNodes _ _ plain]
    omega
  | attributes pending does =>
    rw [extent_after, does.extent_eq, State.extent, pending]
    rfl
  | code pending good plain does =>
    rw [extent_after, does.extent_eq good, State.extent, pending, Pending.extent, count_append,
      count_cons_self, count_eq_zero_of_not_mem plain]
    omega
  | line resting entered does =>
    rw [extent_after, does.extent_eq]
    simp only [Layout.children_enter entered, extent_settled resting good]

/-! ## Runs -/

variable (plain : ∀ line ∈ lines, '\n' ∉ line) (run : lines.foldlM (step o) {} = .ok s)

include plain run

theorem layout_of_run :
    s.pending.Good ∧ s.pending.Holds ReadTexts ∧ s.layout.Holds (IsRead o.format)
    (OpenRead o.format) :=
  (isRead_reads o).run plain (fun _ _ => Step.readTexts) run

theorem extent_of_run :
    s.extent = s.number := by
  have good : (State.pending {}).Good := trivial
  have kept : ∀ s s' : State, s.pending.Good → s.extent = s.number → Step o s.counted s' →
      s'.extent = s'.number := by
    intro s s' good extent taken
    rw [taken.extent_eq (s := s.counted) good, taken.number_eq]
    exact congrArg (· + 1) extent
  exact (run_invariant kept plain good rfl run).2

theorem isRead_of_run
    (resting : s.resting) : (∀ n ∈ s.settled.children, IsRead o.format n) ∧
      extentOf 1 s.settled.children = s.number := by
  obtain ⟨good, inText, holds⟩ := layout_of_run plain run
  refine ⟨((isRead_reads o).settled holds good inText).children fun opened each => opened _ each,
    ?_⟩
  rw [extent_settled resting good, extent_of_run plain run]

end Outline

end MarkupTemplate
