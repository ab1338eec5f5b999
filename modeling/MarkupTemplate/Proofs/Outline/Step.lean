import MarkupTemplate.Outline
import MarkupTemplate.Proofs.Node.Walk
import MarkupTemplate.Proofs.Text.Closed

/-!
# What a line can do

A line adds nodes to the innermost open container, or opens a container there, or begins or ends a
silent comment, or leaves something unfinished. `Effect` lists these ways, and `LineDoes`, `TagDoes`
and `CodeDoes` say which of them a line that stands for itself, a tag behind its name, and a code
can have. `Step` is everything that one more line can do to a state, with the facts about the texts
in it that hold because they come from single lines. Every step of a run is one (`step_of_ok`), so
an invariant only has to be kept by its cases.
-/

namespace MarkupTemplate.Outline

open List
open Interpolation (isClosed)
open Text (trimRight allBlank trim trim_subset)

/-! ## Effects -/

/-- How reading a line ends. -/
inductive Effect where
  | close (nodes : List Node)
  | block (opener : Opener) (start after : List Node)
  | silent
  /-- It leaves something unfinished. -/
  | wait (pending : Pending)

def State.after (s : State) : Effect → State
  | .close nodes => s.close nodes
  | .block opener start after => s.openBlock opener start after
  | .silent => { s.close [] with pending := .silent }
  | .wait pending => { s with pending }

def codeEffect (code : Text) : CodeUse → Effect
  | .control => .block (.frame (.control code) .plain) [] []
  | .output mark => .block (outputOpener mark code) [] []
  | .tagOutput mark head => .block head.opener [(outputOpener mark code).fill []] head.marks

def textEffect (block : TextBlock) : TextUse → Effect
  | .embedded name => .close [.embedded name (.seq block.nodes)]
  | .comment =>
    .close [.comment (.seq [.static " ", .seq block.nodes, .static " "])]
  | .tag head => .block head.opener block.nodes head.marks

theorem finishCode_eq (s : State) (code : Text) (use : CodeUse) :
    s.finishCode code use = s.after (codeEffect code use) := by
  cases use with
  | control | output mark | tagOutput mark head => rfl

theorem finishText_eq (s : State) (block : TextBlock) (use : TextUse) :
    s.finishText block use = s.after (textEffect block use) := by
  cases use with
  | embedded name | comment | tag head => rfl

/-! ## Which effects there can be -/

def isBroken (code : Text) : Bool :=
  Text.endsWith ',' (trimRight code)

/-- A tag whose attribute entries can be read from lines. -/
def TagHead.Good (h : TagHead) : Prop :=
  ∀ e ∈ h.entries, Attribute.IsEntry e

def CodeUse.Good : CodeUse → Prop
  | .control | .output _ => True
  | .tagOutput _ head => head.Good

def TextUse.Good : TextUse → Prop
  | .embedded _ | .comment => True
  | .tag head => head.Good

/-- What a code can do: it goes on, or it is complete and ends in a character that is not blank. -/
inductive CodeDoes (code : Text) (use : CodeUse) : Effect → Prop where
  | wait : isBroken code → CodeDoes code use (.wait (.code code use))
  | complete : trimRight code = code → CodeDoes code use (codeEffect code use)

/-- What a tag can do whose attributes have taken up `extraLines` lines after the first. -/
inductive TagDoes (extraLines : Nat) : Effect → Prop where
  | attributes {form : Attribute.ListForm} {entries : List Node} {left : Spot} {name : Text} :
    (∀ e ∈ entries, Attribute.IsEntry e) →
    TagDoes extraLines (.wait (.attributes form entries left name extraLines))
  | code {head : TagHead} {mark : OutputMark} {code : Text} {effect : Effect} :
    head.Good → head.extraLines = extraLines → '\n' ∉ code →
    CodeDoes code (.tagOutput mark head) effect → Element.isVoid head.name = false →
    TagDoes extraLines effect
  | block {head : TagHead} :
    head.Good → head.extraLines = extraLines →
    TagDoes extraLines (.block head.opener [] head.marks)
  | closed {head : TagHead} :
    head.Good → head.extraLines = extraLines →
    TagDoes extraLines (.close (head.closed :: head.marks))
  | text {head : TagHead} {text : Text} :
    head.Good → head.extraLines = extraLines → '\n' ∉ text → isClosed text →
    Element.isVoid head.name = false →
    TagDoes extraLines (.wait (.text (.startingWith text) (.tag head)))

/-- What a line can do that stands for itself. -/
inductive LineDoes (o : Options) : Effect → Prop where
  | doctype (text : Text) : LineDoes o (.close [Doctype.node o.format text])
  | condComment (condition : Text) :
    LineDoes o (.block (.frame (.condComment condition) .plain) [] [])
  | comment : LineDoes o (.block (.frame .comment .plain) [] [])
  | commentText {text : Text} :
    '\n' ∉ text → isClosed text →
    LineDoes o (.wait (.text (.startingWith text) .comment))
  | silent : LineDoes o .silent
  | control {code : Text} {effect : Effect} :
    '\n' ∉ code → CodeDoes code .control effect → LineDoes o effect
  | output {mark : OutputMark} {code : Text} {effect : Effect} :
    '\n' ∉ code → CodeDoes code (.output mark) effect → LineDoes o effect
  | embedded (name : Text) : LineDoes o (.wait (.text {} (.embedded name)))
  | text {text : Text} :
    '\n' ∉ text → isClosed text → LineDoes o (.close [.interpolate text])
  | tag {effect : Effect} : TagDoes 0 effect → LineDoes o effect

theorem takeCode_does (s : State) (code : Text) (use : CodeUse)
    (inked : ¬ isBroken code → trimRight code = code) :
    ∃ e, CodeDoes code use e ∧ takeCode s code use = s.after e := by
  unfold takeCode
  split
  next broken => exact ⟨_, .wait broken, rfl⟩
  next complete => exact ⟨_, .complete (inked complete), finishCode_eq s code use⟩

variable {spot : Spot} {s s' : State} {name code line text : Text} {extraLines : Nat}
  {use : CodeUse}
  {effect : Effect} {o : Options}

theorem isClosed_of_checkText {u : Unit} (checked : checkText spot = .ok u) :
    isClosed spot.rest := by
  unfold checkText at checked
  split at checked
  next => nomatch checked
  next closed => exact (Interpolation.unclosed?_eq_none_iff _).mp closed

theorem tagClosed_of_tagOutput {t : Text} (found : (Mark.tagOutput t).isSome) :
    allBlank t = false ∧ Mark.tagClosed t = none := by
  unfold Mark.tagOutput at found
  unfold Mark.tagClosed
  constructor
  · cases blank : allBlank t with
    | false => rfl
    | true =>
      have empty : Text.trimLeft t = [] := dropWhile_eq_nil_iff.mpr (all_eq_true.mp blank)
      rw [empty] at found
      nomatch found
  · split
    next shape =>
      rw [shape] at found
      nomatch found
    next => rfl

theorem tagContent_does {head : TagHead} (good : head.Good) (plain : '\n' ∉ spot.rest)
    (read : tagContent s head spot = .ok s') : ∃ e, TagDoes head.extraLines e ∧ s' = s.after e := by
  simp only [tagContent] at read
  split at read
  next => cases read
  next allowed =>
  -- Whatever stands behind the tag of a void element closes it.
  have unvoid : allBlank spot.rest = false → Mark.tagClosed spot.rest = none →
      Element.isVoid head.name = false := by
    intro ink other
    simpa [Spot.atEnd, ink, other] using allowed
  split at read
  next modifier doubled after scanned =>
    split at read
    next => cases read
    next =>
      cases read
      obtain ⟨e, does, taken⟩ := takeCode_does s (trim after.rest)
        (.tagOutput (.ofParts modifier doubled) head) (fun _ => Text.trim_eq_trimRight _)
      obtain ⟨ink, other⟩ := tagClosed_of_tagOutput (by rw [← Spot.isSome_scan?, scanned]; rfl)
      exact ⟨e, .code good rfl (fun feed =>
        plain (Spot.rest_scan?_subset scanned (trim_subset _ feed))) does (unvoid ink other), taken⟩
  next =>
  split at read
  next =>
    cases read
    exact ⟨_, .block good rfl, rfl⟩
  next ink =>
  split at read
  next =>
    split at read
    next =>
      cases read
      exact ⟨_, .closed good rfl, rfl⟩
    next => cases read
  next other =>
    split at read
    next => cases read
    next checked =>
      cases read
      have unclosed : Mark.tagClosed spot.rest = none := by
        rw [← Option.isNone_iff_eq_none, ← Option.not_isSome, ← Spot.isSome_scan?, other]
        rfl
      have unvoid := unvoid (by simpa [Spot.atEnd] using ink) unclosed
      refine ⟨_, .text good rfl ?_ (isClosed_of_checkText checked) unvoid, rfl⟩
      split
      next scanned => exact fun feed => plain (Spot.rest_scan?_subset scanned feed)
      next => exact plain

theorem tagAttributes_does {reading : Attribute.Reading} (good : reading.Good)
    (read : tagAttributes s name extraLines reading = .ok s') :
    ∃ e, TagDoes extraLines e ∧ s' = s.after e := by
  cases reading with
  | continues form entries spot =>
    cases read
    exact ⟨_, .attributes good, rfl⟩
  | complete entries spot =>
    obtain ⟨known, plain⟩ := good
    simp only [tagAttributes, tagEnd] at read
    split at read
    next scanned =>
      exact @tagContent_does _ s s' ⟨name, entries, _, extraLines⟩ known
        (fun feed => plain (Spot.rest_scan?_subset scanned feed)) read
    next => exact @tagContent_does _ s s' ⟨name, entries, _, extraLines⟩ known plain read

theorem tag_does (plain : '\n' ∉ spot.rest) (read : tag s name spot = .ok s') :
    ∃ e, TagDoes 0 e ∧ s' = s.after e := by
  unfold tag at read
  split at read
  next => nomatch read
  next reading attributes =>
    exact tagAttributes_does (Attribute.good_of_read plain attributes) read

theorem CodeDoes.loud (does : CodeDoes code use effect) : effect ≠ .silent := by
  cases does with
  | wait => nofun
  | complete =>
    cases use with
    | control | output | tagOutput => nofun

theorem TagDoes.loud (does : TagDoes extraLines effect) : effect ≠ .silent := by
  cases does with
  | attributes | block | closed | text => nofun
  | code _ _ _ does => exact does.loud

theorem marked_does {indicator : Indicator} (plain : '\n' ∉ spot.rest)
    (read : marked o s spot indicator = .ok s') :
    ∃ e, LineDoes o e ∧ (e = .silent ↔ indicator = .silent) ∧ s' = s.after e := by
  have trimmed : '\n' ∉ trim spot.rest := fun feed => plain (trim_subset _ feed)
  cases indicator with
  | doctype =>
    cases read
    exact ⟨_, .doctype _, iff_of_false nofun nofun, rfl⟩
  | condComment condition =>
    cases read
    exact ⟨_, .condComment condition, iff_of_false nofun nofun, rfl⟩
  | comment =>
    simp only [marked, comment] at read
    split at read
    next =>
      cases read
      exact ⟨_, .comment, iff_of_false nofun nofun, rfl⟩
    next =>
      split at read
      next => nomatch read
      next checked =>
        cases read
        have closed : isClosed (trim spot.rest) := by
          rw [Interpolation.isClosed_trim]
          exact isClosed_of_checkText checked
        exact ⟨_, .commentText trimmed closed, iff_of_false nofun nofun, rfl⟩
  | tag name | shortcut =>
    obtain ⟨e, does, done⟩ := tag_does plain read
    exact ⟨e, .tag does, iff_of_false does.loud nofun, done⟩
  | stray => nomatch read
  | silent =>
    cases read
    exact ⟨_, .silent, iff_of_true rfl rfl, rfl⟩
  | output mark =>
    simp only [marked] at read
    split at read
    next => nomatch read
    next =>
      cases read
      obtain ⟨e, does, taken⟩ := takeCode_does s (trim spot.rest) (.output mark)
        (fun _ => Text.trim_eq_trimRight _)
      exact ⟨e, .output trimmed does, iff_of_false does.loud nofun, taken⟩
  | control =>
    cases read
    obtain ⟨e, does, taken⟩ := takeCode_does s (trim spot.rest) .control
      (fun _ => Text.trim_eq_trimRight _)
    exact ⟨e, .control trimmed does, iff_of_false does.loud nofun, taken⟩
  | embedded name =>
    cases read
    exact ⟨_, .embedded name, iff_of_false nofun nofun, rfl⟩
  | text =>
    simp only [marked] at read
    split at read
    next => nomatch read
    next checked =>
      cases read
      exact ⟨_, .text plain (isClosed_of_checkText checked), iff_of_false nofun nofun, rfl⟩

theorem dispatch_does (plain : '\n' ∉ spot.rest) (read : dispatch o s spot = .ok s') :
    ∃ e, LineDoes o e ∧ s' = s.after e := by
  unfold dispatch at read
  split at read
  next scanned =>
    obtain ⟨e, does, _, done⟩ :=
      marked_does (fun feed => plain (Spot.rest_scan?_subset scanned feed)) read
    exact ⟨e, does, done⟩
  next =>
    obtain ⟨e, does, _, done⟩ := marked_does plain read
    exact ⟨e, does, done⟩

/-! ## Steps -/

/-- A node of a text block: a line mark, or a text of a line behind line feeds and spaces. -/
inductive IsTextNode : Node → Prop where
  | newline : IsTextNode .newline
  | text {front text : Text} :
    (∀ c ∈ front, c = '\n' ∨ c = ' ') → '\n' ∉ text → IsTextNode (.interpolate (front ++ text))

/-- Something unfinished that can be left by lines. -/
def Pending.Good : Pending → Prop
  | .nothing | .silent => True
  | .text block use => (∀ n ∈ block.nodes, IsTextNode n) ∧ use.Good
  | .attributes _ entries _ _ _ => ∀ e ∈ entries, Attribute.IsEntry e
  | .code source use => isBroken source ∧ use.Good

/-- Whether the next line may stand for itself, and the template may end. -/
def State.resting (s : State) : Bool :=
  match s.pending with
  | .nothing | .silent | .text _ _ => true
  | .attributes _ _ _ _ _ | .code _ _ => false

/-- The layout with a text block ended, if one is unfinished. -/
def State.settled (s : State) : Layout :=
  match s.pending with
  | .text block use => (s.finishText block use).layout
  | _ => s.layout

/-- What one more line can do to a state that has counted it. -/
inductive Step (o : Options) (s : State) : State → Prop where
  | blank : s.pending = .nothing → Step o s (s.close [])
  | silent : s.pending = .silent → Step o s { s.close [] with pending := .silent }
  | textBlank {block : TextBlock} {use : TextUse} :
    s.pending = .text block use → Step o s { s with pending := .text block.addBlank use }
  | textLine {block block' : TextBlock} {use : TextUse} {indent : Nat} {spot : Spot} :
    s.pending = .text block use → '\n' ∉ spot.rest →
    block.addLine use.interpolated indent spot = .ok block' →
    Step o s { s with pending := .text block' use }
  | attributes {form : Attribute.ListForm} {entries : List Node} {left : Spot} {name : Text}
      {extraLines : Nat} {effect : Effect} :
    s.pending = .attributes form entries left name extraLines →
    TagDoes (extraLines + 1) effect → Step o s (s.after effect)
  | code {code text : Text} {use : CodeUse} {effect : Effect} :
    s.pending = .code code use → use.Good → '\n' ∉ text →
    CodeDoes (code ++ '\n' :: text) use effect → Step o s (s.after effect)
  | line {width : Nat} {layout : Layout} {effect : Effect} :
    s.resting → s.settled.enter width = (none, layout) → LineDoes o effect →
    Step o s ({ s with layout, pending := .nothing }.after effect)

def State.counted (s : State) : State :=
  { s with number := s.number + 1 }

theorem fresh_step {s₀ : State} (plain : '\n' ∉ line) (ink : allBlank line = false)
    (resting : s.resting)
    (number : s₀.number = s.number) (layout : s₀.layout = s.settled)
    (read : fresh o s₀ line = .ok s') : Step o s s' := by
  simp only [fresh, ink, Bool.false_eq_true, ↓reduceIte] at read
  split at read
  next => nomatch read
  next layout' entered =>
    obtain ⟨e, does, rfl⟩ := dispatch_does
      (fun feed => plain (Spot.rest_skipBlanks_subset _ feed)) read
    rw [layout] at entered
    rw [number]
    exact .line resting entered does

/-- A code that goes on in one more line either goes on again or ends in ink. -/
theorem trimRight_of_continued (broken : isBroken code) (trimmed : trimRight text = text)
    (complete : ¬ isBroken (code ++ '\n' :: text)) :
    trimRight (code ++ '\n' :: text) = code ++ '\n' :: text := by
  have blankFeed : trimRight ('\n' :: text) = if text = [] then [] else '\n' :: text := by
    cases text with
    | nil => decide
    | cons c t => rw [trimRight, trimmed]; rfl
  by_cases empty : text = []
  · rw [if_pos empty] at blankFeed
    rw [isBroken, Text.trimRight_append_of_eq_nil code blankFeed] at complete
    exact absurd broken complete
  · rw [if_neg empty] at blankFeed
    rw [Text.trimRight_append_of_ne_nil code (by rw [blankFeed]; simp), blankFeed]

theorem step_of_ok (plain : '\n' ∉ line) (good : s.pending.Good) (read : step o s line = .ok s') :
    Step o s.counted s' := by
  obtain ⟨number, layout, pending⟩ := s
  cases pending with
  | nothing =>
    simp only [step] at read
    cases ink : allBlank line with
    | true =>
      simp only [fresh, ink, ↓reduceIte] at read
      cases read
      exact .blank rfl
    | false => exact fresh_step plain ink rfl rfl rfl read
  | silent =>
    simp only [step] at read
    split at read
    next =>
      cases read
      exact .silent rfl
    next outside =>
      have ink : allBlank line = false := by
        simp only [nested, Bool.or_eq_true, not_or] at outside
        exact Bool.eq_false_iff.mpr outside.1
      exact fresh_step plain ink rfl rfl rfl read
  | text block use =>
    simp only [step, textLine] at read
    split at read
    next =>
      cases read
      exact .textBlank rfl
    next ink =>
      split at read
      next =>
        split at read
        next => nomatch read
        next block' added =>
          cases read
          exact .textLine rfl (fun feed => plain (Spot.rest_skipBlanks_subset _ feed)) added
      next =>
        refine fresh_step plain (Bool.eq_false_iff.mpr ink) rfl ?_ rfl read
        rw [finishText_eq]
        cases use with
        | embedded name | comment | tag head => rfl
  | attributes form entries left name extraLines =>
    simp only [step] at read
    split at read
    next => nomatch read
    next reading resumed =>
      obtain ⟨e, does, rfl⟩ := tagAttributes_does (Attribute.good_of_resume plain good resumed) read
      exact .attributes rfl does
  | code code use =>
    cases read
    have trimmed : '\n' ∉ trim line := fun feed => plain (trim_subset _ feed)
    obtain ⟨e, does, taken⟩ := takeCode_does ⟨number + 1, layout, .code code use⟩
      (code ++ '\n' :: trim line) use
      (trimRight_of_continued good.1 (Text.trim_eq_trimRight line))
    rw [taken]
    exact .code rfl good.2 trimmed does

/-! ## Runs -/

theorem isTextNode_startingWith (plain : '\n' ∉ text) :
    ∀ n ∈ (TextBlock.startingWith text).nodes, IsTextNode n := by
  unfold TextBlock.startingWith
  split
  · nofun
  · intro n mem
    rw [mem_singleton] at mem
    subst mem
    exact @IsTextNode.text [] text nofun plain

theorem isTextNode_lineNodes (b : TextBlock) (indent : Nat) (plain : '\n' ∉ text) :
    ∀ n ∈ b.lineNodes indent text, IsTextNode n := by
  intro n mem
  simp only [TextBlock.lineNodes, mem_append, mem_cons, not_mem_nil,
    or_false] at mem
  rcases mem with gaps | rfl | rfl
  · split at gaps
    · nomatch gaps
    · rw [mem_singleton] at gaps
      subst gaps
      rw [← append_nil (List.replicate b.gaps '\n')]
      exact .text (fun c mem => Or.inl (eq_of_mem_replicate mem)) (by simp)
  · exact .newline
  · refine .text ?_ plain
    intro c mem
    rw [mem_append] at mem
    rcases mem with feed | space
    · split at feed
      · exact Or.inl (mem_singleton.mp feed)
      · nomatch feed
    · exact Or.inr (eq_of_mem_replicate space)

theorem isTextNode_append {nodes more : List Node} (known : ∀ n ∈ nodes, IsTextNode n)
    (added : ∀ n ∈ more, IsTextNode n) : ∀ n ∈ nodes ++ more, IsTextNode n := by
  intro n mem
  rcases mem_append.mp mem with before | behind
  · exact known n before
  · exact added n behind

theorem nodes_of_addLine {b b' : TextBlock} {interpolated : Bool} {indent : Nat}
    (added : b.addLine interpolated indent spot = .ok b') :
    b'.nodes = b.nodes ++ b.lineNodes indent spot.rest := by
  simp only [TextBlock.addLine] at added
  split at added
  · nomatch added
  · split at added
    · nomatch added
    · cases added
      rfl

theorem CodeDoes.good (s : State) (does : CodeDoes code use effect) (good : use.Good) :
    (s.after effect).pending.Good := by
  cases does with
  | wait broken => exact ⟨broken, good⟩
  | complete inked =>
    cases use with
    | control | output mark | tagOutput mark head => trivial

theorem TagDoes.good (s : State) (does : TagDoes extraLines effect) :
    (s.after effect).pending.Good := by
  cases does with
  | attributes known => exact known
  | code good _ _ does => exact does.good s good
  | block | closed => trivial
  | text good _ plain => exact ⟨isTextNode_startingWith plain, good⟩

theorem LineDoes.good (s : State) (does : LineDoes o effect) : (s.after effect).pending.Good := by
  cases does with
  | doctype | condComment | comment | silent | text => trivial
  | commentText plain => exact ⟨isTextNode_startingWith plain, trivial⟩
  | control _ does | output _ does => exact does.good s trivial
  | embedded name => exact ⟨fun _ mem => (nomatch mem), trivial⟩
  | tag does => exact does.good s

theorem Step.good (good : s.pending.Good) (taken : Step o s s') : s'.pending.Good := by
  cases taken with
  | blank | silent => trivial
  | textBlank pending =>
    rw [pending] at good
    exact ⟨isTextNode_append good.1 (by simp [IsTextNode.newline]), good.2⟩
  | textLine pending plain added =>
    rw [pending] at good
    refine ⟨?_, good.2⟩
    rw [nodes_of_addLine added]
    exact isTextNode_append good.1 (isTextNode_lineNodes _ _ plain)
  | attributes _ does => exact does.good s
  | code _ good _ does => exact does.good s good
  | line _ _ does => exact does.good _

theorem Step.number_eq (taken : Step o s s') : s'.number = s.number := by
  have kept : ∀ (s : State) (effect : Effect), (s.after effect).number = s.number := by
    intro s effect
    cases effect with
    | _ => rfl
  cases taken with
  | blank | silent | textBlank | textLine => rfl
  | attributes | code | line => exact kept _ _

theorem run_invariant {inv : State → Prop}
    (kept : ∀ s s', s.pending.Good → inv s → Step o s.counted s' → inv s')
    {lines : List Text} (plain : ∀ line ∈ lines, '\n' ∉ line) (good : s.pending.Good)
    (holds : inv s) (run : lines.foldlM (step o) s = .ok s') : s'.pending.Good ∧ inv s' := by
  induction lines generalizing s with
  | nil =>
    cases run
    exact ⟨good, holds⟩
  | cons line lines ih =>
    rw [forall_mem_cons] at plain
    rw [foldlM_cons] at run
    obtain ⟨next, read, run⟩ := exists_of_bind run
    have taken := step_of_ok plain.1 good read
    exact ih plain.2 (taken.good (s := s.counted) good) (kept s next good holds taken) run

theorem finish_eq_ok_iff {n : Node} : finish s = .ok n ↔ s.resting ∧ s.settled.tree = n := by
  obtain ⟨number, layout, pending⟩ := s
  cases pending with
  | nothing | silent | text block use => simp [finish, State.resting, State.settled]
  | attributes form entries left name extraLines | code code use => simp [finish, State.resting]

end MarkupTemplate.Outline
