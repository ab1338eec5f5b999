import MarkupTemplate.Proofs.Attribute.Valued
import MarkupTemplate.Proofs.Node.Parts
import MarkupTemplate.Proofs.Outline.Held

/-!
# Codes have ink

An output mark without code is refused, and so is an entry of the host notation without a value. So
every output of a tree has a code with ink, and so has every attribute given by code, unless it
lacks its value in some line of the template (`ofSource_inked`). The property is said of nodes, of
what is open in a layout and of what is unfinished at the end of a line, and each kind of line keeps
it.
-/

namespace MarkupTemplate

open List
open Text (allBlank)

open Attribute (Valued Bare codeEntry resume)

/-! ## Trees -/

namespace Node

/-- The attribute of an empty code lacks its value in one of some lines. -/
def LacksValue (lines : List Text) (n : Node) (escape : Bool) : Prop :=
  ∃ name line t, .attr name (.value escape []) ∈ n.parts ∧ line ∈ lines ∧ t <:+ line ∧ Bare name t

/-- A tree in which every output and every value has a code with ink, except for attributes that
lack their values in one of some lines. -/
structure Inked (lines : List Text) (n : Node) : Prop where
  output {escape : Bool} {code : Text} {body : Node} : .output escape code body ∈ n.parts →
    allBlank code = false
  value {escape : Bool} {code : Text} : .value escape code ∈ n.parts →
    allBlank code = false ∨ code = [] ∧ LacksValue lines n escape

variable {lines : List Text} {n : Node}

theorem LacksValue.mono {m : Node} {escape : Bool} (lacks : LacksValue lines n escape)
    (inside : n.parts ⊆ m.parts) : LacksValue lines m escape := by
  obtain ⟨name, line, t, here, rest⟩ := lacks
  exact ⟨name, line, t, inside here, rest⟩

/-- A node that is neither an output without ink nor a value, around trees with ink. -/
theorem inked_of_parts (ns : List Node) (whole : n.parts = n :: partsOf ns)
    (output : ∀ escape code body, n = .output escape code body → allBlank code = false)
    (value : ∀ escape code, n ≠ .value escape code) (inner : ∀ m ∈ ns, Inked lines m) :
    Inked lines n where
  output := by
    intro escape code body mem
    rw [whole, mem_cons, mem_partsOf] at mem
    rcases mem with here | ⟨m, among, inside⟩
    · exact output escape code body here.symm
    · exact (inner m among).output inside
  value := by
    intro escape code mem
    rw [whole, mem_cons, mem_partsOf] at mem
    rcases mem with here | ⟨m, among, inside⟩
    · exact absurd here.symm (value escape code)
    · refine ((inner m among).value inside).imp id fun ⟨empty, lacks⟩ =>
        ⟨empty, lacks.mono fun part part_mem => ?_⟩
      rw [whole, mem_cons, mem_partsOf]
      exact .inr ⟨m, among, part_mem⟩

theorem inked_leaf {l : Leaf} (noValue : ∀ escape code, l ≠ .value escape code) :
    Inked lines (.leaf l) :=
  inked_of_parts [] rfl nofun (fun escape code same => noValue escape code (Node.leaf.inj same))
    nofun

theorem inked_frame {f : Frame}
    (ink : ∀ escape code, f = .output escape code → allBlank code = false)
    (inner : Inked lines n) : Inked lines (.frame f n) := by
  refine inked_of_parts [n] (by simp [parts, partsOf]) (fun escape code body same => ?_) nofun
    (forall_mem_singleton.mpr inner)
  exact ink escape code (Node.frame.inj same).1

theorem inked_seq {children : List Node} (inner : ∀ m ∈ children, Inked lines m) :
    Inked lines (.seq children) :=
  inked_of_parts _ rfl nofun nofun inner

theorem inked_entry {entry : Node} (valued : Valued lines entry) : Inked lines entry := by
  have plain : ∀ text, Inked lines (.static text) := fun text => inked_leaf nofun
  cases valued with
  | text name text => exact inked_frame nofun (inked_frame nofun (inked_leaf nofun))
  | code ink =>
    refine ⟨fun mem => ?_, fun mem => .inl ?_⟩
    · simp [codeEntry, parts] at mem
    · cases (by simpa [codeEntry, parts] using mem : _ = true ∧ _ = _).2
      exact ink
  | shortcut sign name =>
    unfold Attribute.shortcutEntry
    split <;> exact inked_frame (by rintro _ _ ⟨⟩) (plain name)
  | bare line suffix bare =>
    refine ⟨fun mem => ?_, fun mem => .inr ?_⟩
    · simp [codeEntry, parts] at mem
    · obtain ⟨rfl, rfl⟩ : _ = true ∧ _ = [] := by simpa [codeEntry, parts] using mem
      exact ⟨rfl, _, _, _, mem_parts_self _, line, suffix, bare⟩

variable {name : Text} {entries : List Node}

theorem inked_tag (valued : ∀ e ∈ entries, Valued lines e) : Inked lines (.tag name entries none) :=
  inked_of_parts entries rfl nofun nofun fun e mem => inked_entry (valued e mem)

theorem partsOf_snoc (ns : List Node) (n : Node) : partsOf (ns ++ [n]) = partsOf ns ++ n.parts := by
  induction ns with
  | nil => simp [partsOf]
  | cons m ns ih => rw [cons_append, partsOf, ih, partsOf, append_assoc]

theorem inked_tag_body {body : Node} (valued : ∀ e ∈ entries, Valued lines e)
    (inner : Inked lines body) : Inked lines (.tag name entries (some body)) := by
  refine inked_of_parts (entries ++ [body]) ?_ nofun nofun ?_
  · rw [parts, partsOf_snoc]
  · exact forall_mem_append.mpr
      ⟨fun e mem => inked_entry (valued e mem), forall_mem_singleton.mpr inner⟩

end Node

def Opener.Inked (lines : List Text) : Opener → Prop
  | .plain => True
  | .frame f inner =>
    (∀ escape code, f = .output escape code → allBlank code = false) ∧ inner.Inked lines
  | .tag _ entries => ∀ e ∈ entries, Valued lines e

theorem Opener.Inked.fill {lines : List Text} {opener : Opener} {children : List Node}
    (inked : opener.Inked lines)
    (inner : ∀ n ∈ children, Node.Inked lines n) : Node.Inked lines (opener.fill children) := by
  induction opener with
  | plain => exact Node.inked_seq inner
  | frame f opener ih => exact Node.inked_frame inked.1 (ih inked.2)
  | tag name entries => exact Node.inked_tag_body inked (Node.inked_seq inner)

namespace Outline

variable {o : Options} {lines : List Text} {s : State} {spot : Spot}

/-! ## What is unfinished -/

def TagHead.Valued (lines : List Text) (head : TagHead) : Prop :=
  ∀ e ∈ head.entries, Attribute.Valued lines e

def CodeUse.Inked (lines : List Text) (code : Text) : CodeUse → Prop
  | .control => True
  | .output _ => allBlank code = false
  | .tagOutput _ head => allBlank code = false ∧ head.Valued lines

def TextUse.Valued (lines : List Text) : TextUse → Prop
  | .embedded _ | .comment => True
  | .tag head => head.Valued lines

/-- Something unfinished, with the codes that it already has. -/
def Pending.Inked (lines : List Text) : Pending → Prop
  | .nothing | .silent => True
  | .text _ use => use.Valued lines
  | .attributes _ entries _ _ _ => ∀ e ∈ entries, Attribute.Valued lines e
  | .code source use => use.Inked lines source

abbrev LayoutInked (lines : List Text) (l : Layout) : Prop :=
  l.Holds (Node.Inked lines) (Opener.Inked lines)

structure State.Inked (lines : List Text) (s : State) : Prop where
  layout : LayoutInked lines s.layout
  pending : s.pending.Inked lines

theorem inked_newline : Node.Inked lines .newline :=
  Node.inked_leaf nofun

variable {nodes : List Node} {head : TagHead} {code line : Text}

theorem inked_snoc_newline (inked : ∀ n ∈ nodes, Node.Inked lines n) :
    ∀ n ∈ nodes ++ [.newline], Node.Inked lines n :=
  forall_mem_append.mpr ⟨inked, forall_mem_singleton.mpr inked_newline⟩

theorem inked_marks (head : TagHead) : ∀ n ∈ head.marks, Node.Inked lines n := by
  intro n mem
  cases eq_of_mem_replicate mem
  exact inked_newline

theorem TagHead.Valued.opener (valued : head.Valued lines) : head.opener.Inked lines := by
  obtain ⟨name, entries, trims, extraLines⟩ := head
  unfold TagHead.opener
  induction trims with
  | nil => exact valued
  | cons side trims ih => exact ⟨nofun, ih valued⟩

theorem TagHead.Valued.closed (valued : head.Valued lines) : Node.Inked lines head.closed := by
  obtain ⟨name, entries, trims, extraLines⟩ := head
  unfold TagHead.closed
  induction trims with
  | nil => exact Node.inked_tag valued
  | cons side trims ih => exact Node.inked_frame nofun (ih valued)

theorem inked_outputOpener (ink : allBlank code = false) (mark : OutputMark) :
    (outputOpener mark code).Inked lines := by
  have here : ∀ on escape code', Frame.output on code = .output escape code' →
      allBlank code' = false := by
    intro on escape code' same
    cases same
    exact ink
  cases mark with
  | byDefault => exact ⟨here true, trivial⟩
  | escaped => exact ⟨nofun, here true, trivial⟩
  | raw => exact ⟨here false, trivial⟩

/-! ## Lines -/

variable (holds : LayoutInked lines s.layout)

include holds

theorem close_inked (inked : ∀ n ∈ nodes, Node.Inked lines n) : (s.close nodes).Inked lines :=
  ⟨holds.append (inked_snoc_newline inked), trivial⟩

theorem openBlock_inked {opener : Opener} {start after : List Node}
    (opened : opener.Inked lines) (starts : ∀ n ∈ start, Node.Inked lines n)
    (follows : ∀ n ∈ after, Node.Inked lines n) : (s.openBlock opener start after).Inked lines :=
  ⟨holds.push opened (inked_snoc_newline starts) follows, trivial⟩

theorem takeCode_inked (use : CodeUse) (inked : use.Inked lines code) :
    (takeCode s code use).Inked lines := by
  have nothing : ∀ n ∈ ([] : List Node), Node.Inked lines n := nofun
  unfold takeCode
  split
  · exact ⟨holds, inked⟩
  · cases use with
    | control => exact openBlock_inked holds ⟨nofun, trivial⟩ nothing nothing
    | output mark => exact openBlock_inked holds (inked_outputOpener inked mark) nothing nothing
    | tagOutput mark head =>
      exact openBlock_inked holds inked.2.opener
        (forall_mem_singleton.mpr ((inked_outputOpener inked.1 mark).fill nothing))
          (inked_marks head)

theorem finishText_inked {block : TextBlock} {use : TextUse}
    (nodes : ∀ n ∈ block.nodes, IsTextNode n) (valued : use.Valued lines) :
    (s.finishText block use).Inked lines := by
  have inner : ∀ n ∈ block.nodes, Node.Inked lines n := by
    intro n mem
    cases nodes n mem with
    | newline => exact inked_newline
    | text => exact Node.inked_leaf nofun
  cases use with
  | embedded name =>
    exact close_inked holds
      (forall_mem_singleton.mpr (Node.inked_frame nofun (Node.inked_seq inner)))
  | comment =>
    refine close_inked holds (forall_mem_singleton.mpr (Node.inked_frame nofun (Node.inked_seq ?_)))
    have space : Node.Inked lines (.static " ") := Node.inked_leaf nofun
    simp only [forall_mem_cons]
    exact ⟨space, Node.inked_seq inner, space, nofun⟩
  | tag head => exact openBlock_inked holds (TagHead.Valued.opener valued) inner (inked_marks head)

theorem tagContent_inked (valued : head.Valued lines) (spot : Spot) :
    Yields (State.Inked lines) (fun _ => True) (tagContent s head spot) := by
  unfold tagContent
  split
  next => trivial
  next =>
  split
  next after _ =>
    split
    next => trivial
    next ink =>
      refine takeCode_inked holds (.tagOutput _ head) ⟨?_, valued⟩
      rw [Text.allBlank_trim]
      exact Bool.eq_false_iff.mpr ink
  next =>
  split
  next => exact openBlock_inked holds valued.opener nofun (inked_marks head)
  next =>
  split
  next =>
    split
    next => exact close_inked holds (forall_mem_cons.mpr ⟨valued.closed, inked_marks head⟩)
    next => trivial
  next =>
    dsimp only
    split
    next => trivial
    next => exact ⟨holds, valued⟩

theorem tagAttributes_inked (name : Text) (extraLines : Nat)
    {reading : Attribute.Reading} (valued : reading.Valued lines) :
    Yields (State.Inked lines) (fun _ => True) (tagAttributes s name extraLines reading) := by
  cases reading with
  | continues form entries left => exact ⟨holds, valued⟩
  | complete entries left =>
    simp only [tagAttributes, tagEnd]
    split
    next =>
      refine tagContent_inked holds ?_ _
      exact valued
    next =>
      refine tagContent_inked holds ?_ _
      exact valued

theorem tag_inked (name : Text) (placed : spot.Placed lines) :
    Yields (State.Inked lines) (fun _ => True) (tag s name spot) := by
  have read := Attribute.read_valued placed
  unfold tag
  split
  next => trivial
  next ok => exact tagAttributes_inked holds name 0 (read.of_ok ok)

theorem marked_inked (placed : spot.Placed lines) (indicator : Indicator) :
    Yields (State.Inked lines) (fun _ => True) (marked o s spot indicator) := by
  have nothing : ∀ n ∈ ([] : List Node), Node.Inked lines n := nofun
  cases indicator with
  | doctype =>
    refine close_inked holds (forall_mem_singleton.mpr ?_)
    simp only [Doctype.node]
    repeat' split
    all_goals exact Node.inked_leaf (by rintro _ _ ⟨⟩)
  | condComment condition => exact openBlock_inked holds ⟨by rintro _ _ ⟨⟩, trivial⟩ nothing nothing
  | comment =>
    simp only [marked, comment]
    split
    next => exact openBlock_inked holds ⟨by rintro _ _ ⟨⟩, trivial⟩ nothing nothing
    next =>
      split
      next => trivial
      next => exact ⟨holds, trivial⟩
  | tag name => exact tag_inked holds name placed
  | shortcut => exact tag_inked holds _ placed
  | stray => trivial
  | silent => exact ⟨(close_inked holds nothing).layout, trivial⟩
  | output mark =>
    simp only [marked]
    split
    next => trivial
    next ink =>
      refine takeCode_inked holds (.output mark) ?_
      exact (Text.allBlank_trim _).trans (Bool.eq_false_iff.mpr ink)
  | control => exact takeCode_inked holds .control trivial
  | embedded name => exact ⟨holds, trivial⟩
  | text =>
    simp only [marked]
    split
    next => trivial
    next => exact close_inked holds (forall_mem_singleton.mpr (Node.inked_leaf (by rintro _ _ ⟨⟩)))

theorem fresh_inked {number : Nat} (counted : s.number = number + 1)
    (found : lines[number]? = some line) :
    Yields (State.Inked lines) (fun _ => True) (fresh o s line) := by
  have start := Spot.placed_start found
  rw [← counted] at start
  unfold fresh
  split
  next => exact close_inked holds nofun
  next =>
    dsimp only
    split
    next => trivial
    next layout entered =>
      have deeper : LayoutInked lines layout :=
        holds.enter (fun opened inner => opened.fill inner) entered
      unfold dispatch
      split
      next scanned =>
        exact marked_inked (s := ⟨s.number, layout, .nothing⟩) deeper (start.scan? scanned) _
      next => exact marked_inked (s := ⟨s.number, layout, .nothing⟩) deeper start _

omit holds

theorem step_inked (good : s.pending.Good) (inked : s.Inked lines)
    (found : lines[s.number]? = some line) :
    Yields (State.Inked lines) (fun _ => True) (step o s line) := by
  obtain ⟨number, layout, pending⟩ := s
  obtain ⟨holds, unfinished⟩ := inked
  cases pending with
  | nothing => exact fresh_inked (s := ⟨number + 1, layout, .nothing⟩) holds rfl found
  | silent =>
    simp only [step]
    split
    next =>
      exact ⟨(close_inked (s := ⟨number + 1, layout, .silent⟩) holds (forall_mem_nil _)).layout,
        trivial⟩
    next => exact fresh_inked (s := ⟨number + 1, layout, .silent⟩) holds rfl found
  | text block use =>
    simp only [step, textLine]
    split
    next => exact ⟨holds, unfinished⟩
    next =>
      split
      next =>
        split
        next => trivial
        next => exact ⟨holds, unfinished⟩
      next =>
        have settled :=
          finishText_inked (s := ⟨number + 1, layout, .text block use⟩) holds good.1 unfinished
        exact fresh_inked settled.layout (number_finishText _ block use) found
  | attributes form entries left name extraLines =>
    have read := Attribute.readEntries_valued form unfinished (Spot.placed_start found)
    simp only [step, resume]
    split
    next => trivial
    next ok => exact tagAttributes_inked (s := ⟨number + 1, layout, _⟩) holds name _ (read.of_ok ok)
  | code code use =>
    refine takeCode_inked (s := ⟨number + 1, layout, _⟩) holds use ?_
    -- A code with ink keeps it, whatever is added in the next line.
    have longer : ∀ more, allBlank code = false → allBlank (code ++ more) = false := by
      intro more ink
      rw [allBlank, all_append, ← allBlank, ink, Bool.false_and]
    cases use with
    | control => trivial
    | output mark => exact longer _ unfinished
    | tagOutput mark head => exact ⟨longer _ unfinished.1, unfinished.2⟩

/-! ## Whole templates -/

theorem run_inked {front lines : List Text} (plain : ∀ line ∈ front ++ lines, '\n' ∉ line)
    {s s' : State}
    (counted : s.number = front.length) (good : s.pending.Good) (inked : s.Inked (front ++ lines))
    (run : lines.foldlM (step o) s = .ok s') : s'.pending.Good ∧ s'.Inked (front ++ lines) := by
  induction lines generalizing front s with
  | nil =>
    cases run
    exact ⟨good, inked⟩
  | cons line lines ih =>
    obtain ⟨next, read, run⟩ := exists_of_bind (by rwa [foldlM_cons] at run)
    have found : (front ++ line :: lines)[s.number]? = some line := by
      rw [counted, getElem?_append_right le_rfl, Nat.sub_self]
      rfl
    have taken := step_of_ok (plain line (mem_append_right _ mem_cons_self)) good read
    have there := (step_inked good inked found).of_ok read
    rw [append_cons] at plain there ⊢
    refine ih plain ?_ (taken.good (s := s.counted) good) there run
    rw [taken.number_eq, length_append, ← counted]
    rfl

theorem inked_of_ofSource {source : Text} {tree : Node} (read : ofSource o source = .ok tree) :
    Node.Inked (Source.lines source) tree := by
  obtain ⟨s, run, ends⟩ := exists_of_bind read
  have start : State.Inked (Source.lines source) {} := ⟨⟨nofun, nofun, nofun, nofun⟩, trivial⟩
  obtain ⟨good, inked⟩ : s.pending.Good ∧ s.Inked (Source.lines source) :=
    @run_inked o [] _ (fun _ => Source.not_mem_of_mem_lines) {} s rfl trivial start run
  obtain ⟨-, rfl⟩ := finish_eq_ok_iff.mp ends
  have settled : LayoutInked (Source.lines source) s.settled := by
    unfold State.settled
    split
    next pending =>
      rw [pending] at good
      have unfinished := inked.pending
      rw [pending] at unfinished
      exact (finishText_inked inked.layout good.1 unfinished).layout
    next => exact inked.layout
  exact Node.inked_seq (settled.children fun opened inner => opened.fill inner)

/-- In the tree of a template every output has a code with ink. So has every value of an attribute
that is given by code, unless the code is empty and the attribute stands in a line with nothing
behind its equal sign but the end of a markup list or of the line. Such an entry is never refused:
it is read with the empty code. -/
theorem ofSource_inked {source : Text} {tree : Node} (read : ofSource o source = .ok tree) :
    (∀ escape code body, .output escape code body ∈ tree.parts → allBlank code = false) ∧
    (∀ escape code, .value escape code ∈ tree.parts → allBlank code = false ∨
      code = [] ∧ ∃ name line t, .attr name (.value escape []) ∈ tree.parts ∧
      line ∈ Source.lines source ∧ t <:+ line ∧ Bare name t) ∧
    ∀ (spot : Spot) (name : Text), Bare name spot.rest →
      ∃ spot', Attribute.readMarkupEntry spot = .ok (codeEntry name [], spot') := by
  have inked := inked_of_ofSource read
  exact ⟨fun _ _ _ => inked.output, fun _ _ => inked.value,
    fun _ _ => Attribute.readMarkupEntry_bare⟩

/-- A template with output lines, a host list and two markup lists, one ending at an equal sign. -/
def bareSource : Text :=
  "%p(a=f(1) b= )= x,\n  y\n%q{:k => v}\n  &= w"

def bareTree : Node :=
  .seq [
    .tag "p" [codeEntry "a" "f(1)", codeEntry "b" []]
      (some (.seq [.output true "x,\ny" (.seq []), .newline])),
    .tag "q" [codeEntry "k" "v"]
      (some (.seq [.newline, .escape true (.output true "w" (.seq [.newline]))]))]

theorem ofSource_inked_bare :
    ofSource {} bareSource = .ok bareTree ∧ allBlank "x,\ny" = false ∧
      ∃ name line t, .attr name (.value true []) ∈ bareTree.parts ∧ line ∈ Source.lines bareSource ∧
        t <:+ line ∧ Bare name t := by
  have read : ofSource {} bareSource = .ok bareTree := by decide +kernel
  obtain ⟨outputs, values, -⟩ := ofSource_inked read
  refine ⟨read, outputs true _ (.seq []) (by decide), ?_⟩
  exact ((values true [] (by decide)).resolve_left (by decide)).2

/-- A markup list may leave out a value, where a host list is refused for it. -/
theorem ofSource_without_value :
    (∃ tree, ofSource {} "%a(b=)" = .ok tree ∧ .value true [] ∈ tree.parts) ∧
      ofSource {} "%a\x7b:b => \x7d" = .error ⟨.missingValue, ⟨1, "%a\x7b:b => ", ['\x7d']⟩⟩ := by
  refine ⟨⟨.seq [.tag "a" [codeEntry "b" []] (some (.seq [.newline]))], ?_, ?_⟩, ?_⟩
  · decide +kernel
  · decide
  · decide +kernel

end Outline

end MarkupTemplate
