import MarkupTemplate.Proofs.Node.Voids
import MarkupTemplate.Proofs.Outline.Rounds

/-!
# Lines below void elements

Content behind the tag of a void element is refused, but lines below it are read as below any other
tag. `misplaced` lists them, and `strays_of_source` says that each gives exactly one node to a void
element, and nothing else does.
-/

namespace MarkupTemplate

open List

open Node (straysOf filled)

/-! ## Open containers -/

def Opener.isVoid : Opener → Bool
  | .plain => false
  | .frame _ inner => inner.isVoid
  | .tag name _ => Element.isVoid name

variable {opener : Opener}

theorem Opener.isEmpty_fill (framed : opener ≠ .plain) (children : List Node) :
    (opener.fill children).isEmpty = false := by
  cases opener with
  | plain => exact absurd rfl framed
  | frame | tag => rfl

theorem Opener.strays_fill (opener : Opener) (children : List Node) :
    (opener.fill children).strays = straysOf children + bif opener.isVoid then filled children
      else 0 := by
  induction opener with
  | plain => rfl
  | frame f inner ih => exact ih
  | tag name entries => exact Nat.add_comm ..

theorem Opener.hollow_fill {children : List Node} (each : ∀ n ∈ children, n.Hollow)
    (empty : opener.isVoid → filled children = 0) : (opener.fill children).Hollow := by
  rw [Node.Hollow, strays_fill, Node.straysOf_eq_zero.mpr each, Nat.zero_add]
  cases void : opener.isVoid with
  | true => exact empty void
  | false => rfl

namespace Layout

/-- Whether the innermost open container is the body of a void element. -/
def inVoid (l : Layout) : Bool :=
  l.outer.head?.any (·.opener.isVoid)

/-- A layout in which every open container has a node around it. -/
abbrev Framed (l : Layout) : Prop :=
  l.Holds (fun _ => True) (· ≠ .plain)

theorem straysOf_foldl_close {levels : List Level} (framed : ∀ v ∈ levels, v.opener ≠ .plain)
    (inner : List Node) : straysOf (levels.foldl (fun children v => v.close children) inner) =
      straysOf (levels.foldl (fun children v => v.close children) []) + straysOf inner +
        bif levels.head?.any (·.opener.isVoid) then filled inner else 0 := by
  induction levels generalizing inner with
  | nil => simp [straysOf]
  | cons v levels ih =>
    rw [forall_mem_cons] at framed
    -- The node that is still open is not empty in any case, so its own container holds as much as
    -- before.
    have same : filled (v.close inner) = filled (v.close []) := by
      simp [Level.close, Opener.isEmpty_fill framed.1]
    rw [foldl_cons, foldl_cons, ih framed.2, ih framed.2 (v.close []), same]
    simp only [Level.close, Node.straysOf_append, straysOf, Opener.strays_fill, head?_cons,
      Option.any_some]
    have zero : filled [] = 0 := rfl
    rw [zero, Bool.cond_self]
    omega

theorem straysOf_append {l : Layout} (framed : l.Framed) (nodes : List Node) :
    straysOf (l.append nodes).children =
      straysOf l.children + straysOf nodes + bif l.inVoid then filled nodes else 0 := by
  rw [children, children, append, straysOf_foldl_close framed.opener,
    straysOf_foldl_close framed.opener l.inner]
  simp only [Node.straysOf_append, Node.filled_append, inVoid]
  cases l.outer.head?.any (·.opener.isVoid) with
  | true =>
    simp only [cond_true]
    omega
  | false =>
    simp only [cond_false]
    omega

end Layout

namespace Outline

/-! ## Effects -/

/-- How many nodes something unfinished is going to give to the container it stands in. -/
def Pending.due : Pending → Nat
  | .nothing | .silent => 0
  | .text _ _ | .attributes _ _ _ _ _ | .code _ _ => 1

/-- The strays of a state, with the one that is unfinished. -/
def State.strays (s : State) : Nat :=
  straysOf s.layout.children + bif s.layout.inVoid then s.pending.due else 0

/-- How many nodes an effect gives to the container it stands in. -/
def Effect.gives : Effect → Nat
  | .close nodes => filled nodes
  | .block _ _ after => 1 + filled after
  | .silent => 0
  | .wait pending => pending.due

/-- An effect that gives nothing to a void element of its own. -/
def Effect.Hollow : Effect → Prop
  | .close nodes => ∀ n ∈ nodes, n.Hollow
  | .block opener start after =>
    opener ≠ .plain ∧ (opener.fill (start ++ [.newline])).Hollow ∧ ∀ n ∈ after, n.Hollow
  | .silent | .wait _ => True

def CodeUse.Hollow : CodeUse → Prop
  | .control | .output _ => True
  | .tagOutput _ head => Element.isVoid head.name = false

def TextUse.Hollow : TextUse → Prop
  | .embedded _ | .comment => True
  | .tag head => Element.isVoid head.name = false

/-- Something unfinished that gives nothing to a void element of its own. -/
def Pending.Hollow : Pending → Prop
  | .text _ use => use.Hollow
  | .code _ use => use.Hollow
  | .nothing | .silent | .attributes _ _ _ _ _ => True

variable {effect : Effect} {line : Text} {found : Indicator × Spot}

theorem strays_after {s : State} (framed : s.layout.Framed) (hollow : effect.Hollow) :
    (s.after effect).strays = straysOf s.layout.children + bif s.layout.inVoid then effect.gives
      else 0 := by
  cases effect with
  | close nodes =>
    have zero := Node.straysOf_eq_zero.mpr hollow
    simp [State.after, State.close, State.strays, Effect.gives, Pending.due,
      Layout.straysOf_append framed, zero,
      straysOf, Node.strays, filled, Node.isEmpty]
  | block opener start after =>
    have closed : (s.layout.push opener (start ++ [.newline]) after).children =
        (s.layout.append (opener.fill (start ++ [.newline]) :: after)).children := rfl
    have zero := Node.straysOf_eq_zero.mpr (forall_mem_cons.mpr hollow.2)
    simp [State.after, State.openBlock, State.strays, Effect.gives, Pending.due, closed,
      Layout.straysOf_append framed,
      zero, Opener.isEmpty_fill hollow.1, Nat.add_comm]
  | silent =>
    simp [State.after, State.close, State.strays, Effect.gives, Pending.due,
      Layout.straysOf_append framed, straysOf,
      Node.strays, filled, Node.isEmpty]
  | wait pending => rfl

/-! ## Which nodes lines give -/

/-- An effect that gives one node to its container, and nothing to a void element of its own. -/
structure Effect.Fills (effect : Effect) : Prop where
  hollow : effect.Hollow
  gives : effect.gives = 1
  unfinished : ∀ s : State, (s.after effect).pending.Hollow

theorem hollow_mark : ∀ n ∈ [Node.newline], n.Hollow :=
  forall_mem_singleton.mpr rfl

theorem opener_ne_plain (head : TagHead) : head.opener ≠ .plain := by
  unfold TagHead.opener
  cases head.trims with
  | nil | cons => exact fun same => nomatch same

theorem isVoid_opener (head : TagHead) : head.opener.isVoid = Element.isVoid head.name := by
  unfold TagHead.opener
  induction head.trims with
  | nil => rfl
  | cons side trims ih => exact ih

theorem hollow_closed (head : TagHead) : head.closed.Hollow ∧ head.closed.isEmpty = false := by
  unfold TagHead.closed
  induction head.trims with
  | nil => exact ⟨rfl, rfl⟩
  | cons side trims ih => exact ⟨ih.1, rfl⟩

theorem hollow_marks (head : TagHead) : (∀ n ∈ head.marks, n.Hollow) ∧ filled head.marks = 0 := by
  unfold TagHead.marks
  constructor
  · intro n mem
    rw [eq_of_mem_replicate mem]
    rfl
  · simp [filled, countP_replicate, Node.isEmpty]

theorem outputOpener_ne_plain (mark : OutputMark) (code : Text) :
    outputOpener mark code ≠ .plain := by
  cases mark with
  | byDefault | escaped | raw => exact fun same => nomatch same

theorem isVoid_outputOpener (mark : OutputMark) (code : Text) :
    (outputOpener mark code).isVoid = false := by
  cases mark with
  | byDefault | escaped | raw => rfl

theorem Effect.Fills.empty {opener : Opener} (framed : opener ≠ .plain) {after : List Node}
    (each : ∀ n ∈ after, n.Hollow) (zero : filled after = 0) :
    Effect.Fills (.block opener [] after) :=
  ⟨⟨framed, Opener.hollow_fill hollow_mark fun _ => rfl, each⟩, by rw [Effect.gives, zero],
    fun _ => trivial⟩

theorem Effect.Fills.content {head : TagHead} (unvoid : Element.isVoid head.name = false)
    {start : List Node}
    (each : ∀ n ∈ start, n.Hollow) : Effect.Fills (.block head.opener start head.marks) := by
  refine ⟨⟨opener_ne_plain head, Opener.hollow_fill ?_ ?_, (hollow_marks head).1⟩, ?_,
    fun _ => trivial⟩
  · exact forall_mem_append.mpr ⟨each, hollow_mark⟩
  · rw [isVoid_opener, unvoid]
    exact fun void => nomatch void
  · rw [Effect.gives, (hollow_marks head).2]

theorem CodeDoes.fills {code : Text} {use : CodeUse} (does : CodeDoes code use effect)
    (hollow : use.Hollow) : effect.Fills := by
  cases does with
  | wait => exact ⟨trivial, rfl, fun _ => hollow⟩
  | complete =>
    cases use with
    | control => exact .empty (by simp) nofun rfl
    | output mark => exact .empty (outputOpener_ne_plain mark code) nofun rfl
    | tagOutput mark head =>
      refine .content hollow (forall_mem_singleton.mpr (Opener.hollow_fill nofun ?_))
      rw [isVoid_outputOpener]
      exact fun void => nomatch void

theorem TagDoes.fills {extraLines : Nat} (does : TagDoes extraLines effect) : effect.Fills := by
  cases does with
  | attributes => exact ⟨trivial, rfl, fun _ => trivial⟩
  | code _ _ _ does unvoid => exact does.fills unvoid
  | @block head => exact .empty (opener_ne_plain head) (hollow_marks head).1 (hollow_marks head).2
  | @closed head =>
    obtain ⟨closed, filled⟩ := hollow_closed head
    obtain ⟨marks, zero⟩ := hollow_marks head
    exact ⟨forall_mem_cons.mpr ⟨closed, marks⟩, by simp [Effect.gives, filled, zero],
      fun _ => trivial⟩
  | text _ _ _ _ unvoid => exact ⟨trivial, rfl, fun _ => unvoid⟩

variable {o : Options}

theorem LineDoes.fills (does : LineDoes o effect) (loud : effect ≠ .silent) : effect.Fills := by
  cases does with
  | doctype text =>
    have leaf : (Doctype.node o.format text).Hollow ∧
        (Doctype.node o.format text).isEmpty = false := by
      simp only [Doctype.node]
      repeat' split
      all_goals exact ⟨rfl, rfl⟩
    exact ⟨forall_mem_singleton.mpr leaf.1, by simp [Effect.gives, filled, leaf.2],
      fun _ => trivial⟩
  | condComment | comment => exact .empty (by simp) (forall_mem_nil _) rfl
  | commentText | embedded => exact ⟨trivial, rfl, fun _ => trivial⟩
  | silent => exact absurd rfl loud
  | control _ does | output _ does => exact does.fills trivial
  | text => exact ⟨forall_mem_singleton.mpr rfl, rfl, fun _ => trivial⟩
  | tag does => exact does.fills

theorem textEffect_fills {block : TextBlock} {use : TextUse}
    (texts : ∀ n ∈ block.nodes, IsTextNode n)
    (hollow : use.Hollow) : (textEffect block use).Fills := by
  have each : ∀ n ∈ block.nodes, n.Hollow := by
    intro n mem
    cases texts n mem with
    | newline | text => rfl
  cases use with
  | embedded name =>
    exact ⟨forall_mem_singleton.mpr (Node.hollow_seq.mpr each), rfl, fun _ => trivial⟩
  | comment =>
    refine ⟨forall_mem_singleton.mpr (Node.hollow_seq.mpr ?_), rfl, fun _ => trivial⟩
    simp only [forall_mem_cons]
    exact ⟨rfl, Node.hollow_seq.mpr each, rfl, nofun⟩
  | tag head => exact .content hollow each

theorem Effect.Hollow.framed (hollow : effect.Hollow) :
    effect.Holds (fun _ => True) (· ≠ .plain) := by
  cases effect with
  | close => exact fun _ _ => trivial
  | block => exact ⟨hollow.1, fun _ _ => trivial, fun _ _ => trivial⟩
  | silent | wait => trivial

/-! ## Steps -/

theorem framed_reads (o : Options) : Reads o (fun _ => True) (· ≠ .plain) (fun _ _ => True) where
  fill _ _ := trivial
  newline := trivial
  line {effect} does := by
    by_cases silent : effect = .silent
    · rw [silent]
      trivial
    · exact (does.fills silent).hollow.framed
  tag does := does.fills.hollow.framed
  code {code use _} does _ := by
    cases does with
    | wait => trivial
    | complete =>
      cases use with
      | control => exact ⟨by simp, fun _ _ => trivial, fun _ _ => trivial⟩
      | output mark =>
        exact ⟨outputOpener_ne_plain mark code, fun _ _ => trivial, fun _ _ => trivial⟩
      | tagOutput mark head => exact ⟨opener_ne_plain head, fun _ _ => trivial, fun _ _ => trivial⟩
  text {block use} _ _ _ := by
    cases use with
    | embedded | comment => exact fun _ _ => trivial
    | tag head => exact ⟨opener_ne_plain head, fun _ _ => trivial, fun _ _ => trivial⟩

/-- What holds of every state that lines lead to. -/
structure State.Reached (s : State) : Prop where
  good : s.pending.Good
  hollow : s.pending.Hollow
  framed : s.layout.Framed

namespace State.Reached

variable {o : Options} {s s' : State}

theorem start : ({} : State).Reached :=
  ⟨trivial, trivial, fun _ _ => trivial, fun _ mem => (nomatch mem), fun _ mem => (nomatch mem),
    nofun⟩

theorem step (reached : s.Reached) (taken : Step o s.counted s') (hollow : s'.pending.Hollow) :
    s'.Reached :=
  ⟨taken.good (s := s.counted) reached.good, hollow,
    (framed_reads o).step (s := s.counted) reached.good s.pending.holds_trivial reached.framed
      taken⟩

theorem strays_settled (reached : s.Reached) (resting : s.resting) :
    straysOf s.settled.children = s.strays := by
  obtain ⟨number, layout, pending⟩ := s
  cases pending with
  | nothing | silent => simp [State.settled, State.strays, Pending.due]
  | text block use =>
    have fills := textEffect_fills reached.good.1 reached.hollow
    have after := strays_after (s := ⟨number, layout, .text block use⟩) reached.framed fills.hollow
    have done : (State.after ⟨number, layout, .text block use⟩ (textEffect block use)).pending =
        .nothing := by
      cases use with
      | embedded | comment | tag => rfl
    rw [fills.gives] at after
    rw [State.strays, done, Pending.due, Bool.cond_self] at after
    simpa [State.settled, finishText_eq, State.strays, Pending.due] using after
  | attributes | code => cases resting

theorem unmarked (reached : s.Reached) {line : Text} (plain : '\n' ∉ line)
    (unmarked : dispatched? o s line = none)
    (read : Outline.step o s line = .ok s') : s'.Reached ∧ s'.strays = s.strays := by
  have taken := step_of_ok plain reached.good read
  obtain ⟨effect, rfl, goes⟩ := goesOn_of_unmarked plain reached.good unmarked read
  have hollow : effect.Hollow ∧ effect.gives = s.pending.due ∧
      (s.counted.after effect).pending.Hollow := by
    have own := reached.hollow
    generalize s.pending = pending at goes own
    cases goes with
    | blank => exact ⟨nofun, rfl, trivial⟩
    | silent => exact ⟨trivial, rfl, trivial⟩
    | text => exact ⟨trivial, rfl, own⟩
    | attributes does => exact ⟨does.fills.hollow, does.fills.gives, does.fills.unfinished _⟩
    | code _ does =>
      exact ⟨(does.fills own).hollow, (does.fills own).gives, (does.fills own).unfinished _⟩
  refine ⟨reached.step taken hollow.2.2, ?_⟩
  rw [strays_after (s := s.counted) reached.framed hollow.1, hollow.2.1]
  rfl

end State.Reached

/-- Whether a line stands right below a void element and is no silent comment. -/
def State.misplaces (o : Options) (s : State) (line : Text) : Bool :=
  match dispatched? o s line with
  | none => false
  | some (indicator, _) =>
    indicator != .silent && (s.settled.enter (Indent.width o.tabSize line)).2.inVoid

/-- The lines that give something to void elements. -/
def misplaced (o : Options) : State → List Text → List Text
  | _, [] => []
  | s, line :: lines =>
    let here := if s.misplaces o line then [line] else []
    match step o s line with
    | .ok s' => here ++ misplaced o s' lines
    | .error _ => here

theorem not_mem_of_dispatched {s : State} (plain : '\n' ∉ line)
    (dispatched : dispatched? o s line = some found) : '\n' ∉ found.2.rest := by
  unfold dispatched? at dispatched
  split at dispatched
  next => nomatch dispatched
  next =>
    cases dispatched
    have blank : '\n' ∉ ((Spot.start (s.number + 1) line).skipBlanks).rest :=
      fun feed => plain (Spot.rest_skipBlanks_subset _ feed)
    cases scanned : (Spot.start (s.number + 1) line).skipBlanks.scan? Indicator.read with
    | none => exact blank
    | some found => exact fun feed => blank (Spot.rest_scan?_subset scanned feed)

/-- A line with a mark gives one node to its container, unless it is a silent comment. -/
theorem State.Reached.marked {s s' : State} (reached : s.Reached) (plain : '\n' ∉ line)
    (dispatched : dispatched? o s line = some found) (read : Outline.step o s line = .ok s') :
    s'.Reached ∧ s'.strays = s.strays + bif s.misplaces o line then 1 else 0 := by
  have taken := step_of_ok plain reached.good read
  obtain ⟨_, resting, _⟩ := of_dispatched dispatched
  obtain ⟨layout, entered, marked⟩ := step_of_dispatched dispatched read
  obtain ⟨effect, does, silent, rfl⟩ := marked_does (not_mem_of_dispatched plain dispatched) marked
  have framed : layout.Framed := by
    refine Layout.Holds.enter ?_ (fun _ _ => trivial) entered
    exact (framed_reads o).settled reached.framed reached.good s.pending.holds_trivial
  have hollow : effect.Hollow ∧ effect.gives = (bif found.1 != .silent then 1 else 0) ∧
      ∀ s : State, (s.after effect).pending.Hollow := by
    by_cases quiet : effect = .silent
    · rw [silent.mp quiet, quiet]
      exact ⟨trivial, rfl, fun _ => trivial⟩
    · have fills := does.fills quiet
      refine ⟨fills.hollow, ?_, fills.unfinished⟩
      rw [fills.gives, bne_iff_ne.mpr fun same => quiet (silent.mpr same)]
      rfl
  refine ⟨reached.step taken (hollow.2.2 _), ?_⟩
  rw [strays_after (s := ⟨s.number + 1, layout, .nothing⟩) framed hollow.1, hollow.2.1]
  have here : s.misplaces o line = (found.1 != .silent && layout.inVoid) := by
    rw [State.misplaces, dispatched, entered]
  rw [Layout.children_enter entered, reached.strays_settled resting, here]
  cases layout.inVoid with
  | true => rw [Bool.and_true]; rfl
  | false => rw [Bool.and_false]; rfl

theorem State.Reached.run {lines : List Text} (plain : ∀ line ∈ lines, '\n' ∉ line) {s s' : State}
    (reached : s.Reached) (run : lines.foldlM (Outline.step o) s = .ok s') :
    s'.Reached ∧ s'.strays = s.strays + (misplaced o s lines).length := by
  induction lines generalizing s with
  | nil =>
    cases run
    exact ⟨reached, rfl⟩
  | cons line lines ih =>
    rw [forall_mem_cons] at plain
    rw [foldlM_cons] at run
    obtain ⟨next, read, run⟩ := exists_of_bind run
    have taken : next.Reached ∧ next.strays = s.strays + bif s.misplaces o line then 1 else 0 := by
      cases dispatched : dispatched? o s line with
      | some found => exact reached.marked plain.1 dispatched read
      | none =>
        have here : s.misplaces o line = false := by rw [State.misplaces, dispatched]
        rw [here]
        exact reached.unmarked plain.1 dispatched read
    obtain ⟨reached', rest⟩ := ih plain.2 taken.1 run
    refine ⟨reached', ?_⟩
    rw [rest, taken.2, misplaced, read]
    cases s.misplaces o line with
    | true =>
      show s.strays + 1 + _ = s.strays + (line :: misplaced o next lines).length
      rw [length_cons]
      omega
    | false => rfl

/-- A template gives one node to void elements for each line that is misplaced, and no other. -/
theorem strays_of_source {source : Text} {tree : Node} (read : ofSource o source = .ok tree) :
    tree.strays = (misplaced o {} (Source.lines source)).length := by
  have plain : ∀ line ∈ Source.lines source, '\n' ∉ line := fun line => Source.not_mem_of_mem_lines
  obtain ⟨s, ends⟩ := ends_of_ok plain read
  rw [ofSource, ends.ofLines_eq] at read
  cases read
  obtain ⟨reached, strays⟩ := State.Reached.start.run plain ends.run
  have zero : ({} : State).strays = 0 := rfl
  rw [zero, Nat.zero_add] at strays
  exact (reached.strays_settled ends.resting).trans strays

end Outline

end MarkupTemplate
