import Mathlib.Data.List.DropRight
import MarkupTemplate.Proofs.Embedded.Render
import MarkupTemplate.Proofs.Outline.Concat
import MarkupTemplate.Proofs.Outline.Dispatched

/-!
# Embedded blocks

The lines below the mark of an embedded block that are blank or indented deeper belong to the block.
Its text is its lines from the first to the last that is not blank, moved to the left together, with
line feeds in between (`dedented`); no line may be indented less than the first that is not blank.
While a block is read, its nodes, the number of blank lines behind the last text and the indentation
of the first make up the lines read (`Collected`).
-/

namespace MarkupTemplate

open List
open Node (rawTexts marksOf rawText seq)
open Text (allBlank)

/-! ## Joined lines -/

namespace Text

theorem joinWith_snoc {sep : Text} {parts : List Text} (filled : parts ≠ []) (part : Text) :
    joinWith sep (parts ++ [part]) = joinWith sep parts ++ sep ++ part :=
  joinWith_append filled nofun

theorem joinWith_append_empty {c : Char} {parts : List Text} (filled : parts ≠ []) (n : Nat) :
    joinWith [c] (parts ++ replicate n []) = joinWith [c] parts ++ replicate n c := by
  induction n with
  | zero => simp
  | succ n ih =>
    rw [replicate_succ', ← append_assoc, joinWith_snoc (by simp [filled]), ih, replicate_succ']
    simp [append_assoc]

/-- Lines without the blank ones in front. -/
def fromInk (lines : List Text) : List Text :=
  lines.dropWhile allBlank

/-- The lines from the first to the last that is not blank. -/
def inkedLines (lines : List Text) : List Text :=
  (fromInk lines).rdropWhile allBlank

theorem fromInk_append (lines more : List Text) :
    fromInk (lines ++ more) = if fromInk lines = [] then fromInk more else fromInk lines ++
      more := by
  unfold fromInk
  rw [dropWhile_append]
  simp only [List.isEmpty_iff]

theorem allBlank_of_head_fromInk {lines rest : List Text} {first : Text}
    (found : fromInk lines = first :: rest) : allBlank first = false := by
  have ink := head?_dropWhile_not allBlank lines
  rw [show lines.dropWhile allBlank = first :: rest from found] at ink
  simpa using ink

end Text

open Text (fromInk)

namespace Outline

/-! ## The text of a block -/

section Lines

variable (tabSize : Nat)

/-- The indentation of the first line that is not blank. -/
def firstWidth? (lines : List Text) : Option Nat :=
  (fromInk lines).head?.map (Indent.width tabSize)

/-- Whether a line of a block is indented less than the first one, blank lines aside. -/
def isShallow (block : List Text) (line : Text) : Bool :=
  !allBlank line && (firstWidth? tabSize block).any fun width => Indent.width tabSize line < width

/-- A line moved to the left by `width` columns. -/
def dedentedLine (width : Nat) (line : Text) : Text :=
  if allBlank line then [] else Text.spaces (Indent.width tabSize line - width) ++
    Text.trimLeft line

/-- The text of a block: its lines from the first to the last with ink, moved to the left. -/
def dedented (block : List Text) : Text :=
  Text.joinWith ['\n']
    ((Text.inkedLines block).map (dedentedLine tabSize ((firstWidth? tabSize block).getD 0)))

end Lines

variable {tabSize : Nat}

theorem firstWidth?_append (tabSize : Nat) (lines more : List Text) :
    firstWidth? tabSize (lines ++ more) = (firstWidth? tabSize lines).or
      (firstWidth? tabSize more) := by
  unfold firstWidth?
  rw [Text.fromInk_append]
  cases fromInk lines with
  | nil | cons first rest => simp

variable {lines : List Text}

theorem fromInk_of_none (blank : firstWidth? tabSize lines = none) : fromInk lines = [] := by
  cases found : fromInk lines with
  | nil => rfl
  | cons first rest => simp [firstWidth?, found] at blank

theorem fromInk_of_some {width : Nat} (inked : firstWidth? tabSize lines = some width) :
    fromInk lines ≠ [] := by
  intro blank
  simp [firstWidth?, blank] at inked

theorem firstWidth?_of_ink {line : Text} (ink : allBlank line = false) (more : List Text) :
    firstWidth? tabSize (line :: more) = some (Indent.width tabSize line) := by
  simp [firstWidth?, fromInk, ink]

theorem isShallow_iff {line : Text} : isShallow tabSize lines line ↔
    allBlank line = false ∧ ∃ width, firstWidth? tabSize lines = some width ∧
    Indent.width tabSize line < width := by
  simp [isShallow, Option.any_eq_true]

theorem isShallow_append {line : Text} (shallow : isShallow tabSize lines line) (more : List Text) :
    isShallow tabSize (lines ++ more) line := by
  rw [isShallow_iff] at shallow ⊢
  obtain ⟨ink, width, first, less⟩ := shallow
  exact ⟨ink, width, by rw [firstWidth?_append, first]; rfl, less⟩

theorem isShallow_front {front back : List Text} {line : Text}
    (shallow : isShallow tabSize (front ++ line :: back) line) : isShallow tabSize front line := by
  rw [isShallow_iff] at shallow ⊢
  obtain ⟨ink, width, first, less⟩ := shallow
  rw [firstWidth?_append, firstWidth?_of_ink ink] at first
  rcases Option.or_eq_some_iff.mp first with here | ⟨_, same⟩
  · exact ⟨ink, width, here, less⟩
  · cases same
    exact absurd less (Nat.lt_irrefl _)

/-! ## Reading the lines of a block -/

theorem rawTexts_append (ns ms : List Node) : rawTexts (ns ++ ms) = rawTexts ns ++ rawTexts ms := by
  induction ns with
  | nil => rfl
  | cons n ns ih => rw [cons_append, rawTexts, rawTexts, ih, append_assoc]

theorem marksOf_append (ns ms : List Node) : marksOf (ns ++ ms) = marksOf ns + marksOf ms := by
  induction ns with
  | nil => exact (Nat.zero_add _).symm
  | cons n ns ih => rw [cons_append, marksOf, marksOf, ih, Nat.add_assoc]

/-- The text of one more line: line feeds for the blank lines in front and its own, and the line. -/
theorem rawTexts_lineNodes (b : TextBlock) (indent : Nat) (text : Text) :
    rawTexts (b.lineNodes indent text) = replicate b.gaps '\n' ++
      ((if b.hasText then ['\n'] else []) ++ Text.spaces (indent - b.indent?.getD indent) ++
        text) := by
  unfold TextBlock.lineNodes
  rw [rawTexts_append]
  congr 1
  · split
    next absent => rw [absent]; rfl
    next => simp [rawTexts, rawText]
  · simp [rawTexts, rawText]

theorem marksOf_lineNodes (b : TextBlock) (indent : Nat) (text : Text) :
    marksOf (b.lineNodes indent text) = 1 := by
  unfold TextBlock.lineNodes
  rw [marksOf_append]
  split <;> rfl

/-- What has been read of a block: only blank lines, or a first one with text and others behind it,
of which the blank ones at the end are only counted. -/
inductive Collected (tabSize : Nat) : TextBlock → List Text → Prop where
  | blank {nodes : List Node} {lines : List Text} :
    firstWidth? tabSize lines = none → rawTexts nodes = [] → marksOf nodes = lines.length →
    Collected tabSize { nodes } lines
  | text {nodes : List Node} {lines : List Text} {width gaps : Nat} :
    firstWidth? tabSize lines = some width → ((fromInk lines).rtakeWhile allBlank).length = gaps →
    rawTexts nodes ++ replicate gaps '\n' =
      Text.joinWith ['\n'] ((fromInk lines).map (dedentedLine tabSize width)) →
    marksOf nodes = lines.length → Collected tabSize ⟨some width, true, gaps, nodes⟩ lines

namespace Collected

variable {b : TextBlock} {lines : List Text} {line : Text}

theorem start : Collected tabSize {} [] :=
  .blank rfl rfl rfl

variable (collected : Collected tabSize b lines)

include collected

theorem indent : b.indent? = firstWidth? tabSize lines := by
  cases collected with
  | blank blank => exact blank.symm
  | text first => exact first.symm

theorem addBlank (blank : allBlank line) : Collected tabSize b.addBlank (lines ++ [line]) := by
  have inkless : firstWidth? tabSize [line] = none := by simp [firstWidth?, fromInk, blank]
  have width := firstWidth?_append tabSize lines [line]
  rw [inkless, Option.or_none] at width
  cases collected with
  | blank first text marks =>
    refine .blank (width.trans first) ?_ ?_
    · rw [rawTexts_append, text]
      rfl
    · rw [marksOf_append, marks, length_append]
      rfl
  | text first gaps text marks =>
    have more := fromInk_of_some first
    have whole : fromInk (lines ++ [line]) = fromInk lines ++ [line] := by
      rw [Text.fromInk_append, if_neg more]
    refine .text (width.trans first) ?_ ?_ ?_
    · rw [whole, rtakeWhile_concat, if_pos blank, length_append, gaps]
      rfl
    · rw [whole, map_append, map_singleton, Text.joinWith_snoc (by simpa using more), ← text,
        rawTexts_append]
      simp [dedentedLine, blank, rawTexts, rawText, replicate_succ']
    · rw [marksOf_append, marks, length_append]
      rfl

theorem addLine (ink : allBlank line = false)
    (deep : ∀ width, firstWidth? tabSize lines = some width → width ≤ Indent.width tabSize line)
    {spot : Spot} (here : spot.rest = Text.trimLeft line) :
    ∃ b', b.addLine false (Indent.width tabSize line) spot = .ok b' ∧
    Collected tabSize b' (lines ++ [line]) := by
  have added : b.addLine false (Indent.width tabSize line) spot = .ok
      ⟨some (b.indent?.getD (Indent.width tabSize line)), true, 0,
        b.nodes ++ b.lineNodes (Indent.width tabSize line) spot.rest⟩ := by
    refine if_neg (Nat.not_lt.mpr ?_)
    rw [collected.indent]
    cases first : firstWidth? tabSize lines with
    | none => exact le_rfl
    | some width => exact deep width first
  refine ⟨_, added, ?_⟩
  have width := firstWidth?_append tabSize lines [line]
  rw [firstWidth?_of_ink ink] at width
  have marked : marksOf (b.nodes ++ b.lineNodes (Indent.width tabSize line) spot.rest) =
      marksOf b.nodes + 1 := by
    rw [marksOf_append, marksOf_lineNodes]
  have said := rawTexts_append b.nodes (b.lineNodes (Indent.width tabSize line) spot.rest)
  rw [rawTexts_lineNodes, here] at said
  cases collected with
  | blank first text marks =>
    have whole : fromInk (lines ++ [line]) = [line] := by
      rw [Text.fromInk_append, if_pos (fromInk_of_none first)]
      simp [fromInk, ink]
    rw [first] at width
    refine .text width ?_ ?_ ?_
    · rw [whole]
      simp [List.rtakeWhile, ink]
    · rw [whole, here, said, text]
      simp [dedentedLine, ink, Text.joinWith]
    · rw [marked, marks, length_append]
      rfl
  | text first gaps text marks =>
    have more := fromInk_of_some first
    have whole : fromInk (lines ++ [line]) = fromInk lines ++ [line] := by
      rw [Text.fromInk_append, if_neg more]
    rw [first] at width
    refine .text width ?_ ?_ ?_
    · rw [whole, rtakeWhile_concat, if_neg (by simp [ink])]
      rfl
    · rw [whole, map_append, map_singleton, Text.joinWith_snoc (by simpa using more), here, said]
      simp only [Option.getD_some]
      rw [← text]
      simp [dedentedLine, ink]
    · rw [marked, marks, length_append]
      rfl

theorem rawTexts_eq : rawTexts b.nodes = dedented tabSize lines := by
  unfold dedented Text.inkedLines
  cases collected with
  | blank first text =>
    rw [text, fromInk_of_none first]
    rfl
  | @text nodes _ width gaps first blanks text =>
    -- Behind the last line with text there are only blank lines, as many as have been counted.
    have empty : ((fromInk lines).rtakeWhile allBlank).map (dedentedLine tabSize width) =
        replicate gaps [] := by
      rw [← blanks]
      refine eq_replicate_iff.mpr ⟨length_map _, fun text mem => ?_⟩
      obtain ⟨line, found, rfl⟩ := mem_map.mp mem
      exact if_pos (mem_rtakeWhile_imp found)
    have filled : ((fromInk lines).rdropWhile allBlank).map (dedentedLine tabSize width) ≠ [] := by
      intro empty
      have all := rdropWhile_eq_nil_iff.mp (map_eq_nil_iff.mp empty)
      cases found : fromInk lines with
      | nil => exact fromInk_of_some first found
      | cons line rest =>
        have blank := all line (found ▸ .head _)
        rw [Text.allBlank_of_head_fromInk found] at blank
        nomatch blank
    have whole : (fromInk lines).rdropWhile allBlank ++ (fromInk lines).rtakeWhile allBlank =
        fromInk lines := rdropWhile_append_rtakeWhile
    rw [← whole, map_append, empty, Text.joinWith_append_empty filled] at text
    rw [first]
    exact append_cancel_right text

theorem marks_eq : marksOf b.nodes = lines.length := by
  cases collected with
  | blank _ _ marks | text _ _ _ marks => exact marks

end Collected

/-! ## Runs over a block -/

section Block

variable {o : Options} {b : TextBlock} {done : List Text} {line : Text} {layout : Layout}

theorem step_inside (ink : allBlank line = false)
    (inside : layout.width < Indent.width o.tabSize line)
    (b : TextBlock) (number : Nat) (name : Text) :
    step o ⟨number, layout, .text b (.embedded name)⟩ line =
      match b.addLine false (Indent.width o.tabSize line)
      (Spot.start (number + 1) line).skipBlanks with
      | .error fault => .error fault
      | .ok block => .ok ⟨number + 1, layout, .text block (.embedded name)⟩ := by
  have nested : nested o ⟨number + 1, layout, .text b (.embedded name)⟩ line := by
    simp [nested, ink, inside]
  exact (if_neg (by simp [ink])).trans (if_pos nested)

section

variable (collected : Collected o.tabSize b done)

include collected

theorem step_block
    (inside : allBlank line || layout.width < Indent.width o.tabSize line)
    (deep : isShallow o.tabSize done line = false) (number : Nat) (name : Text) :
    ∃ b', step o ⟨number, layout, .text b (.embedded name)⟩ line =
      .ok ⟨number + 1, layout, .text b' (.embedded name)⟩ ∧
      Collected o.tabSize b' (done ++ [line]) := by
  cases ink : allBlank line with
  | true => exact ⟨b.addBlank, if_pos ink, collected.addBlank ink⟩
  | false =>
    have enough : ∀ width, firstWidth? o.tabSize done = some width →
        width ≤ Indent.width o.tabSize line := by
      intro width first
      simpa [isShallow, ink, first] using deep
    obtain ⟨b', added, collected'⟩ :=
      collected.addLine ink enough (Spot.rest_skipBlanks (.start (number + 1) line))
    refine ⟨b', ?_, collected'⟩
    rw [step_inside ink (by simpa [ink] using inside), added]

theorem step_shallow
    (inside : allBlank line || layout.width < Indent.width o.tabSize line)
    (shallow : isShallow o.tabSize done line) (number : Nat) (name : Text) :
    step o ⟨number, layout, .text b (.embedded name)⟩ line =
      .error ⟨.shallowText, (Spot.start (number + 1) line).skipBlanks⟩ := by
  obtain ⟨ink, width, first, less⟩ := isShallow_iff.mp shallow
  have refused : b.addLine false (Indent.width o.tabSize line)
    (Spot.start (number + 1) line).skipBlanks =
      .error ⟨.shallowText, (Spot.start (number + 1) line).skipBlanks⟩ := by
    refine if_pos ?_
    rw [collected.indent, first]
    exact less
  rw [step_inside ink (by simpa [ink] using inside), refused]

theorem run_block {lines : List Text}
    (inside : ∀ line ∈ lines, allBlank line || layout.width < Indent.width o.tabSize line)
    (deep : ∀ line ∈ lines, isShallow o.tabSize (done ++ lines) line = false) (number : Nat)
    (name : Text) : ∃ b', lines.foldlM (step o) ⟨number, layout, .text b (.embedded name)⟩ =
        .ok ⟨number + lines.length, layout, .text b' (.embedded name)⟩ ∧
      Collected o.tabSize b' (done ++ lines) := by
  induction lines generalizing done b number with
  | nil => exact ⟨b, rfl, by rwa [append_nil]⟩
  | cons line lines ih =>
    rw [forall_mem_cons] at inside deep
    have here : isShallow o.tabSize done line = false :=
      Bool.eq_false_iff.mpr fun shallow => Bool.eq_false_iff.mp deep.1 (isShallow_append shallow _)
    obtain ⟨next, read, collected'⟩ := step_block collected inside.1 here number name
    rw [append_cons] at deep ⊢
    obtain ⟨b', run, collected''⟩ := ih collected' inside.2 deep.2 (number + 1)
    refine ⟨b', ?_, collected''⟩
    rw [foldlM_cons, read, length_cons, Nat.add_comm lines.length, ← Nat.add_assoc]
    exact run

end

theorem run_shallow {front back : List Text}
    (inside : ∀ other ∈ front ++ line :: back, allBlank other || layout.width <
      Indent.width o.tabSize other)
    (shallow : isShallow o.tabSize (front ++ line :: back) line)
    (others : ∀ other ∈ front, isShallow o.tabSize (front ++ line :: back) other = false)
    (number : Nat) (name : Text) (rest : List Text) :
    (front ++ line :: back ++ rest).foldlM (step o) ⟨number, layout, .text {} (.embedded name)⟩ =
      .error ⟨.shallowText, (Spot.start (number + front.length + 1) line).skipBlanks⟩ := by
  rw [forall_mem_append, forall_mem_cons] at inside
  have deep : ∀ other ∈ front, isShallow o.tabSize ([] ++ front) other = false := fun other mem =>
    Bool.eq_false_iff.mpr fun found => Bool.eq_false_iff.mp (others other mem)
      (isShallow_append found _)
  obtain ⟨b, run, collected⟩ := run_block .start inside.1 deep number name
  have refused :=
    step_shallow collected inside.2.1 (isShallow_front shallow) (number + front.length) name
  rw [append_assoc, foldlM_append, run]
  show (line :: (back ++ rest)).foldlM (step o) _ = _
  rw [foldlM_cons, refused]
  rfl

end Block

end Outline

/-! ## Nodes that stay -/

/-- A complete node of a layout: it is inside of one that stands beside all that is open. -/
def Layout.Has (l : Layout) (n : Node) : Prop :=
  ∃ m, (m ∈ l.inner ∨ ∃ v ∈ l.outer, m ∈ v.before ∨ m ∈ v.after) ∧ n ∈ m.parts

theorem Opener.mem_parts_fill (opener : Opener) {children : List Node} {m n : Node}
    (child : m ∈ children) (inside : n ∈ m.parts) : n ∈ (opener.fill children).parts := by
  have among : n ∈ Node.partsOf children := Node.mem_partsOf.mpr ⟨m, child, inside⟩
  induction opener with
  | plain => exact .tail _ among
  | frame f inner ih => exact .tail _ ih
  | tag name entries => exact .tail _ (mem_append_right _ (.tail _ among))

namespace Layout.Has

variable {l : Layout} {n : Node}

theorem append (has : l.Has n) (nodes : List Node) : (l.append nodes).Has n := by
  obtain ⟨m, here | there, inside⟩ := has
  · exact ⟨m, .inl (mem_append_left _ here), inside⟩
  · exact ⟨m, .inr there, inside⟩

theorem push (has : l.Has n) (opener : Opener) (start after : List Node) :
    (l.push opener start after).Has n := by
  obtain ⟨m, here | ⟨v, mem, there⟩, inside⟩ := has
  · exact ⟨m, .inr ⟨_, .head _, .inl here⟩, inside⟩
  · exact ⟨m, .inr ⟨v, .tail _ mem, there⟩, inside⟩

theorem close (has : l.Has n) : l.close.Has n := by
  obtain ⟨widths, inner, outer⟩ := l
  cases outer with
  | nil => exact has
  | cons v outer =>
    obtain ⟨m, here | ⟨w, mem, there⟩, inside⟩ := has
    · refine ⟨v.opener.fill inner, .inl ?_, v.opener.mem_parts_fill here inside⟩
      exact mem_append_right _ (.head _)
    · rcases mem_cons.mp mem with rfl | mem
      · refine ⟨m, .inl ?_, inside⟩
        rcases there with before | after
        · exact mem_append_left _ before
        · exact mem_append_right _ (.tail _ after)
      · exact ⟨m, .inr ⟨w, mem, there⟩, inside⟩

theorem enter (has : l.Has n) {l' : Layout} {w : Nat} {cause? : Option Cause}
    (entered : l.enter w = (cause?, l')) : l'.Has n :=
  enter_keeps (P := (·.Has n)) close (fun has _ => has) has entered

theorem mem_parts (has : l.Has n) : n ∈ l.tree.parts := by
  obtain ⟨widths, inner, outer⟩ := l
  induction outer generalizing inner with
  | nil =>
    obtain ⟨m, here | ⟨v, mem, _⟩, inside⟩ := has
    · exact .tail _ (Node.mem_partsOf.mpr ⟨m, here, inside⟩)
    · nomatch mem
  | cons v outer ih => exact ih (v.close inner) has.close

end Layout.Has

namespace Outline

variable {o : Options} {n : Node}

theorem has_after {s : State} (has : s.layout.Has n) (effect : Effect) :
    (s.after effect).layout.Has n := by
  cases effect with
  | close nodes | silent => exact has.append _
  | block opener start after => exact has.push opener _ after
  | wait pending => exact has

theorem has_settled {s : State} (has : s.layout.Has n) : s.settled.Has n := by
  unfold State.settled
  split
  next block use _ =>
    rw [finishText_eq]
    exact has_after has (textEffect block use)
  next => exact has

theorem Step.has {s s' : State} (has : s.layout.Has n) (taken : Step o s s') : s'.layout.Has n := by
  cases taken with
  | blank | silent => exact has.append _
  | textBlank | textLine => exact has
  | attributes | code => exact has_after has _
  | line _ entered => exact has_after ((has_settled has).enter entered) _

theorem mem_parts_of_run {s : State} {lines : List Text} (plain : ∀ line ∈ lines, '\n' ∉ line)
    (good : s.pending.Good)
    (has : s.settled.Has n) (free : ∀ line, lines.head? = some line → allBlank line = false ∧
      s.takes o line = false)
    {tree : Node} (read : lines.foldlM (step o) s >>= finish = .ok tree) : n ∈ tree.parts := by
  obtain ⟨last, run, ended⟩ := exists_of_bind read
  obtain ⟨_, rfl⟩ := finish_eq_ok_iff.mp ended
  refine Layout.Has.mem_parts ?_
  cases lines with
  | nil =>
    cases run
    exact has
  | cons line lines =>
    rw [forall_mem_cons] at plain
    rw [foldlM_cons] at run
    obtain ⟨next, taken, run⟩ := exists_of_bind run
    obtain ⟨ink, free⟩ := free line rfl
    obtain ⟨resting, outside⟩ := resting_of_takes ink free
    have good' := (step_of_ok plain.1 good taken).good (s := s.counted) good
    rw [step_of_ink ink resting outside] at taken
    split at taken
    next => nomatch taken
    next layout entered =>
      obtain ⟨effect, _, rfl⟩ :=
        dispatch_does (fun feed => plain.1 (Spot.rest_skipBlanks_subset _ feed)) taken
      have kept : ∀ s s' : State, s.pending.Good → s.layout.Has n → Step o s.counted s' →
        s'.layout.Has n :=
        fun s _ _ has step => Step.has (s := s.counted) has step
      have begun := has_after (s := ⟨s.number + 1, layout, .nothing⟩) (has.enter entered) effect
      exact has_settled (run_invariant kept plain.2 good' begun run).2

/-! ## Blocks in templates -/

/-- The lines behind a line that are blank or indented deeper, up to the first that is neither. -/
def blockBelow (o : Options) (line : Text) (after : List Text) : List Text :=
  after.takeWhile fun next => allBlank next || Indent.width o.tabSize line <
    Indent.width o.tabSize next

section Marked

variable {o : Options} {source : Text} {before after : List Text} {line name : Text} {s s' : State}
  {spot : Spot}

theorem blockBelow_append (o : Options) (line : Text) (after : List Text) :
    ∃ rest, after = blockBelow o line after ++ rest ∧
      ∀ next, rest.head? = some next →
        allBlank next = false ∧ Indent.width o.tabSize next ≤ Indent.width o.tabSize line := by
  refine ⟨after.dropWhile _, takeWhile_append_dropWhile.symm, fun next first => ?_⟩
  have outside := head?_dropWhile_not
    (fun next => allBlank next || Indent.width o.tabSize line < Indent.width o.tabSize next) after
  rw [first] at outside
  simpa using outside

theorem state_of_embedded (dispatched : dispatched? o s line = some (.embedded name, spot))
    (read : step o s line = .ok s') :
    s' = ⟨s.number + 1, s'.layout, .text {} (.embedded name)⟩ ∧
    s'.layout.width = Indent.width o.tabSize line := by
  obtain ⟨layout, entered, marked⟩ := step_of_dispatched dispatched read
  cases marked
  exact ⟨rfl, Layout.width_of_enter entered⟩

theorem inside_of_embedded (after : List Text)
    (dispatched : dispatched? o s line = some (.embedded name, spot))
    (read : step o s line = .ok s') : ∀ other ∈ blockBelow o line after,
      allBlank other || s'.layout.width < Indent.width o.tabSize other := by
  intro other mem
  rw [(state_of_embedded dispatched read).2]
  have inside := mem_takeWhile_imp mem
  exact inside

variable (lines : Source.lines source = before ++ line :: after)

include lines

theorem ofSource_from (run : before.foldlM (step o) {} = .ok s)
    (read : step o s line = .ok s') : ofSource o source = after.foldlM (step o) s' >>= finish := by
  have behind : (line :: after).foldlM (step o) s = after.foldlM (step o) s' := by
    rw [foldlM_cons, read]
    rfl
  rw [ofSource, ofLines, lines, foldlM_append, run, ← behind]
  rfl

theorem ofSource_of_shallow
    (run : before.foldlM (step o) {} = .ok s)
    (dispatched : dispatched? o s line = some (.embedded name, spot))
    (read : step o s line = .ok s') {front back : List Text} {shallow : Text}
    (block : blockBelow o line after = front ++ shallow :: back)
    (first : isShallow o.tabSize (blockBelow o line after) shallow)
    (others : ∀ other ∈ front, isShallow o.tabSize (blockBelow o line after) other = false) :
    ofSource o source =
      .error ⟨.shallowText,
        (Spot.start (before.length + front.length + 2) shallow).skipBlanks⟩ := by
  have plain : ∀ l ∈ before, '\n' ∉ l := fun l mem =>
    Source.not_mem_of_mem_lines (lines ▸ mem_append_left _ mem)
  have count : s.number = 0 + before.length := number_of_run plain (s := {}) trivial run
  have inside := inside_of_embedded after dispatched read
  obtain ⟨rest, split, _⟩ := blockBelow_append o line after
  have behind := ofSource_from lines run read
  rw [block] at first others inside split
  rw [split, (state_of_embedded dispatched read).1, run_shallow inside first others] at behind
  have number : before.length + front.length + 2 = s.number + 1 + front.length + 1 := by omega
  rw [behind, number]
  rfl

theorem run_of_deep (dispatched : dispatched? o s line = some (.embedded name, spot))
    (read : step o s line = .ok s')
    (deep : ∀ other ∈ blockBelow o line after, isShallow o.tabSize (blockBelow o line after) other =
      false) :
    ∃ b number, (blockBelow o line after).foldlM (step o) s' =
      .ok ⟨number, s'.layout, .text b (.embedded name)⟩ ∧
      Collected o.tabSize b (blockBelow o line after) ∧ ∀ n ∈ b.nodes, IsTextNode n := by
  obtain ⟨b, taken, collected⟩ :=
    run_block .start (inside_of_embedded after dispatched read) deep (s.number + 1) name
  rw [← (state_of_embedded dispatched read).1] at taken
  refine ⟨b, _, taken, collected, ?_⟩
  have plain : ∀ l ∈ blockBelow o line after, '\n' ∉ l := by
    intro l mem
    have among : l ∈ before ++ line :: after :=
      mem_append_right _ (.tail _ (( takeWhile_prefix _).subset mem))
    exact Source.not_mem_of_mem_lines (lines ▸ among)
  have good : s'.pending.Good := by
    rw [(state_of_embedded dispatched read).1]
    exact ⟨nofun, trivial⟩
  exact (run_invariant (fun _ _ _ _ _ => trivial) plain good trivial taken).1.1

omit lines

/-- The text of an embedded block is what `dedented` says, if no line of the block is shallow, and
the block has a line mark for each line; otherwise the first shallow line is refused. The block is
added where its mark stands, and it is in the tree if the template is accepted. -/
theorem block_dedented (lines : Source.lines source = before ++ line :: after)
    (run : before.foldlM (step o) {} = .ok s)
    (dispatched : dispatched? o s line = some (.embedded name, spot))
    (read : step o s line = .ok s') :
    (∀ front shallow back, blockBelow o line after = front ++ shallow :: back →
      isShallow o.tabSize (blockBelow o line after) shallow →
      (∀ other ∈ front, isShallow o.tabSize (blockBelow o line after) other = false) →
      ofSource o source =
        .error ⟨.shallowText, (Spot.start (before.length + front.length + 2) shallow).skipBlanks⟩) ∧
    ((∀ other ∈ blockBelow o line after, isShallow o.tabSize (blockBelow o line after) other =
      false) → ∃ nodes t, (blockBelow o line after).foldlM (step o) s' = .ok t ∧
        t.settled = s'.layout.append [.embedded name (.seq nodes), .newline] ∧
        (seq nodes).collectText = .ok (dedented o.tabSize (blockBelow o line after)) ∧
        (seq nodes).collectMarks =
          .ok (.seq (replicate (blockBelow o line after).length .newline)) ∧
        ∀ tree, ofSource o source = .ok tree → .embedded name (.seq nodes) ∈ tree.parts) := by
  refine ⟨fun front shallow back => ofSource_of_shallow lines run dispatched read, fun deep => ?_⟩
  obtain ⟨b, number, taken, collected, texts⟩ := run_of_deep lines dispatched read deep
  refine ⟨b.nodes, _, taken, rfl, ?_, ?_, ?_⟩
  · rw [Node.collectText, Embedded.known_block texts]
    exact congrArg Except.ok collected.rawTexts_eq
  · rw [Node.collectMarks, Embedded.known_block texts]
    exact congrArg (fun count => Except.ok (seq (replicate count .newline))) collected.marks_eq
  · intro tree accepted
    obtain ⟨rest, split, outside⟩ := blockBelow_append o line after
    rw [ofSource_from lines run read, split, foldlM_append, taken] at accepted
    have good : (State.mk number s'.layout (.text b (.embedded name))).pending.Good :=
      ⟨texts, trivial⟩
    refine mem_parts_of_run ?_ good ?_ ?_ accepted
    · intro l mem
      refine Source.not_mem_of_mem_lines (lines ▸ mem_append_right _ (.tail _ ?_))
      rw [split]
      exact mem_append_right _ mem
    · exact ⟨_, .inl (mem_append_right _ (.head _)), Node.mem_parts_self _⟩
    · intro next first
      obtain ⟨ink, shallow⟩ := outside next first
      refine ⟨ink, ?_⟩
      simp [State.takes, nested, ink, (state_of_embedded dispatched read).2, shallow]

end Marked

/-- A block in a tag, with blank lines at both ends and inside, and a line indented by a tab. -/
def deepBlock : Text :=
  "%p\n  :plain\n\n    a\n \n\t  b  \n\n   \n  c"

/-- A block whose second line with text is not indented as deep as the first. -/
def shallowBlock : Text :=
  ":plain\n    a\n\n  b\n c"

theorem block_dedented_tabs :
    (∃ tree nodes, ofSource {} deepBlock = .ok tree ∧
      .embedded "plain".toList (.seq nodes) ∈ tree.parts ∧
      (seq nodes).collectText = .ok "a\n\n  b  ".toList ∧
      (seq nodes).collectMarks = .ok (.seq (replicate 6 .newline))) ∧
    ofSource {} shallowBlock = .error ⟨.shallowText, ⟨4, "  ".toList, "b".toList⟩⟩ := by
  constructor
  · have lines : Source.lines deepBlock = ["%p".toList] ++ "  :plain".toList ::
        ["", "    a", " ", "\t  b  ", "", "   ", "  c"].map String.toList := by decide
    have tag : ["%p".toList].foldlM (step {}) {} =
        .ok ⟨1, ⟨[], [.newline], [⟨[], .tag "p".toList [], []⟩]⟩, .nothing⟩ := by decide +kernel
    have dispatched : dispatched? {} ⟨1, ⟨[], [.newline], [⟨[], .tag "p".toList [], []⟩]⟩, .nothing⟩
        "  :plain".toList = some (.embedded "plain".toList, ⟨2, "  :plain".toList, []⟩) := by decide
    have read : step {} ⟨1, ⟨[], [.newline], [⟨[], .tag "p".toList [], []⟩]⟩,
      .nothing⟩ "  :plain".toList =
        .ok ⟨2, ⟨[2], [.newline], [⟨[], .tag "p".toList [], []⟩]⟩,
          .text {} (.embedded "plain".toList)⟩ := by
      decide
    have text : dedented 4 (["", "    a", " ", "\t  b  ", "", "   "].map String.toList) =
        "a\n\n  b  ".toList := by
      decide
    obtain ⟨nodes, t, _, _, said, marks, found⟩ :=
      (block_dedented lines tag dispatched read).2 (by decide)
    obtain ⟨tree, made⟩ := exists_of_isOk (by decide +kernel : (ofSource {} deepBlock).isOk)
    exact ⟨tree, nodes, made, found tree made, said.trans (congrArg Except.ok text), marks⟩
  · have lines : Source.lines shallowBlock = [] ++ ":plain".toList ::
        ["    a", "", "  b", " c"].map String.toList := by
      decide
    have dispatched : dispatched? {} {} ":plain".toList = some (.embedded "plain".toList,
        ⟨1, ":plain".toList, []⟩) := by
      decide
    have read : step {} {} ":plain".toList = .ok ⟨1, {}, .text {} (.embedded "plain".toList)⟩ := by
      decide
    have refused := (block_dedented lines rfl dispatched read).1 ["    a".toList, []] "  b".toList
      [" c".toList]
    exact refused (by decide) (by decide) (by decide)

end Outline

end MarkupTemplate
