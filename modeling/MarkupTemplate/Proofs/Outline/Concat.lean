import MarkupTemplate.Proofs.Outline.SameInk
import MarkupTemplate.Proofs.Source

/-!
# Templates one after the other

A template followed by another one that starts without indentation is read as the two of them one
after the other. If the second cannot be read, the fault is the same, further down by the lines of
the first. Blank lines at the seam add line marks only (`run_blank`). The first line that is not
blank closes everything (`step_flush`), so from there on the run is a run from the start, moved
below the lines and the nodes of the first template.
-/

namespace MarkupTemplate

open List
open Indent (width)
open Source (rawLines lineCount)
open Text (allBlank)
open Node (unmarkedAll)

def Node.behind (front : List Node) : Node → Node
  | .group .seq children => .seq (front ++ children)
  | n => n

namespace Outline

open Fault (moved)

theorem settled_below (n : Nat) (front : List Node) (s : State) :
    (s.below n front).settled = s.settled.under front := by
  obtain ⟨number, layout, pending⟩ := s
  cases pending with
  | text block use =>
    exact congrArg State.layout
      (finishText_below n front ⟨number, layout, .text block use⟩ block use)
  | _ => rfl

theorem finish_below (n : Nat) (front : List Node) (s : State) :
    finish (s.below n front) = moved n (Node.behind front) (finish s) := by
  have tree : (s.settled.under front).tree = Node.behind front s.settled.tree :=
    congrArg Node.seq (Layout.children_under front s.settled)
  have moves := settled_below n front s
  obtain ⟨number, layout, pending⟩ := s
  cases pending with
  | nothing | silent => exact congrArg Except.ok tree
  | text block use => exact congrArg Except.ok ((congrArg Layout.tree moves).trans tree)
  | attributes form entries left name extraLines | code code use => rfl

variable {o : Options} {lines : List Text} {s : State} {line : Text}

theorem number_of_run (plain : ∀ line ∈ lines, '\n' ∉ line) {s' : State} (good : s.pending.Good)
    (run : lines.foldlM (step o) s = .ok s') : s'.number = s.number + lines.length := by
  induction lines generalizing s with
  | nil =>
    cases run
    rfl
  | cons line lines ih =>
    rw [forall_mem_cons] at plain
    rw [foldlM_cons] at run
    obtain ⟨next, read, run⟩ := exists_of_bind run
    have taken := step_of_ok plain.1 good read
    rw [ih plain.2 (taken.good (s := s.counted) good) run, taken.number_eq]
    simp only [State.counted, length_cons]
    omega

/-! ## The seam -/

/-- A line that is not indented is read as if it were the first one. -/
theorem step_flush (sound : s.Sound) (resting : s.resting) (ink : allBlank line = false)
    (flush : width o.tabSize line = 0) : step o s line =
      moved s.number (State.below s.number s.settled.children) (step o {} line) := by
  -- What is left of the state once everything is closed.
  have base : ∀ s₀ : State, s₀.number = s.number + 1 → s₀.layout = s.settled →
      fresh o s₀ line =
        moved s.number (State.below s.number s.settled.children) (step o {} line) := by
    intro s₀ number layout
    have first : step o {} line =
        dispatch o ⟨1, {}, .nothing⟩ (Spot.start 1 line).skipBlanks := by
      simp only [step, fresh, ink, flush]
      rfl
    have below : (⟨s.number + 1, { inner := s.settled.children }, .nothing⟩ : State) =
        State.below s.number s.settled.children ⟨1, {}, .nothing⟩ := by
      simp only [State.below, Layout.under, Pending.below, append_nil, Nat.add_comm]
    have entered := Layout.enter_zero sound.settled.1 sound.settled.2
    rw [first, ← dispatch_below, ← below]
    simp only [fresh, ink, flush, number, layout, entered, Nat.add_comm s.number 1]
    rfl
  obtain ⟨number, layout, pending⟩ := s
  cases pending with
  | nothing => exact base _ rfl rfl
  | silent =>
    have outside : nested o ⟨number + 1, layout, .silent⟩ line = false := by
      simp [nested, ink, flush]
    simp only [step, outside, Bool.false_eq_true, ↓reduceIte]
    exact base _ rfl rfl
  | text block use =>
    have outside : nested o ⟨number + 1, layout, .text block use⟩ line = false := by
      simp [nested, ink, flush]
    simp only [step, textLine, ink, outside, Bool.false_eq_true, ↓reduceIte]
    refine base _ ?_ ?_
    · rw [finishText_eq]
      cases use with
      | embedded | comment | tag => rfl
    · cases use with
      | embedded | comment | tag => rfl
  | attributes form entries left name extraLines | code code use => cases resting

/-! ## Lists of lines -/

/-- What a template gives behind another one: its children behind those of the other one, up to line
marks, or the same fault further down. -/
inductive Joined (front : List Node) (n : Nat) : Except Fault Node → Except Fault Node → Prop where
  | tree {children whole : List Node} :
    unmarkedAll whole = unmarkedAll front ++ unmarkedAll children →
    Joined front n (.ok (.seq children)) (.ok (.seq whole))
  | fault (f : Fault) : Joined front n (.error f) (.error (f.below n))

theorem Joined.congr {front front' : List Node} {n : Nat} {second whole : Except Fault Node}
    (same : unmarkedAll front = unmarkedAll front') (joined : Joined front n second whole) :
    Joined front' n second whole := by
  cases joined with
  | tree children => exact .tree (same ▸ children)
  | fault f => exact .fault f

/-- A part of a template that ends where the next line may stand for itself. -/
structure Ends (o : Options) (lines : List Text) (s : State) : Prop where
  run : lines.foldlM (step o) {} = .ok s
  sound : s.Sound
  resting : s.resting
  number : s.number = lines.length

theorem Ends.ofLines_eq (ends : Ends o lines s) :
    ofLines o lines = .ok (.seq s.settled.children) := by
  rw [ofLines, ends.run]
  exact finish_eq_ok_iff.mpr ⟨ends.resting, rfl⟩

theorem ends_nil (o : Options) : Ends o [] {} :=
  ⟨rfl, ⟨⟨.nil, nofun⟩, Or.inl rfl⟩, rfl, rfl⟩

theorem ends_of_ok (plain : ∀ line ∈ lines, '\n' ∉ line) {tree : Node}
    (accepted : ofLines o lines = .ok tree) : ∃ s, Ends o lines s := by
  obtain ⟨s, run, accepted⟩ := exists_of_bind accepted
  obtain ⟨resting, _⟩ := finish_eq_ok_iff.mp accepted
  have number := number_of_run plain (s := {}) trivial run
  exact ⟨s, run, (sound_of_run plain run).2, resting, by rw [number]; exact Nat.zero_add _⟩

theorem Ends.append_blank {blanks : List Text} (ends : Ends o lines s)
    (blank : ∀ line ∈ blanks, allBlank line) : ∃ s', Ends o (lines ++ blanks) s' ∧
      unmarkedAll s'.settled.children = unmarkedAll s.settled.children := by
  obtain ⟨s', run, waited, number⟩ := run_blank (o := o) ends.sound ends.resting blank
  refine ⟨s', ⟨?_, waited.sound, waited.resting, ?_⟩, waited.ink.children⟩
  · rw [foldlM_append, ends.run]
    exact run
  · rw [number, ends.number, length_append]

/-- Lines behind a template, the first of them not indented, are read as if nothing came before. -/
theorem Ends.append_flush (ends : Ends o lines s) (ink : allBlank line = false)
    (flush : width o.tabSize line = 0) (rest : List Text) : ofLines o (lines ++ line :: rest) =
      moved lines.length (Node.behind s.settled.children) (ofLines o (line :: rest)) := by
  have further : (line :: rest).foldlM (step o) s =
      moved s.number (State.below s.number s.settled.children)
        ((line :: rest).foldlM (step o) {}) := by
    rw [foldlM_cons, foldlM_cons, step_flush ends.sound ends.resting ink flush]
    cases step o {} line with
    | error fault => rfl
    | ok next => exact foldlM_below s.number s.settled.children o next rest
  have whole : ofLines o (lines ++ line :: rest) =
      (line :: rest).foldlM (step o) s >>= finish := by
    rw [ofLines, foldlM_append, ends.run]
    rfl
  rw [whole, further, ofLines, ends.number]
  cases (line :: rest).foldlM (step o) {} with
  | error fault => rfl
  | ok last => exact finish_below lines.length s.settled.children last

theorem Ends.joined {lines' : List Text} (ends : Ends o lines s)
    (plain : ∀ line ∈ lines', '\n' ∉ line)
    (flush : ∀ line, lines'.find? (fun line => !allBlank line) = some line →
      width o.tabSize line = 0) :
    Joined s.settled.children lines.length (ofLines o lines') (ofLines o (lines ++ lines')) := by
  cases found : lines'.find? (fun line => !allBlank line) with
  | none =>
    rw [find?_eq_none] at found
    have blank : ∀ line ∈ lines', allBlank line := by simpa using found
    obtain ⟨s₁, ends₁, same₁⟩ := (ends_nil o).append_blank blank
    obtain ⟨s₂, ends₂, same₂⟩ := ends.append_blank blank
    rw [nil_append] at ends₁
    rw [ends₁.ofLines_eq, ends₂.ofLines_eq]
    refine .tree ?_
    rw [same₁, same₂]
    exact (append_nil _).symm
  | some line =>
    have unindented := flush line found
    obtain ⟨ink, before, rest, rfl, blank⟩ := find?_eq_some_iff_append.mp found
    have ink : allBlank line = false := by simpa using ink
    have blank : ∀ line ∈ before, allBlank line := by simpa using blank
    obtain ⟨s₁, ends₁, same₁⟩ := (ends_nil o).append_blank blank
    obtain ⟨s₂, ends₂, same₂⟩ := ends.append_blank blank
    rw [nil_append] at ends₁
    rw [← append_assoc, ends₁.append_flush ink unindented, ends₂.append_flush ink unindented]
    cases last : ofLines o (line :: rest) with
    | error fault =>
      have sum : (fault.below before.length).below lines.length =
          fault.below (lines ++ before).length := by
        simp only [Fault.below, Spot.below, length_append, Nat.add_assoc,
          Nat.add_comm lines.length]
      simp only [moved, ← sum]
      exact .fault _
    | ok tree =>
      obtain ⟨s₃, ends₃⟩ := ends_of_ok
        (fun l mem => plain l (mem_append_right before mem)) last
      rw [ends₃.ofLines_eq] at last
      cases last
      refine .tree ?_
      rw [Node.unmarkedAll_append, Node.unmarkedAll_append, same₁, same₂]
      rfl

/-! ## Templates -/

theorem Ends.raw {source : Text} (ends : Ends o (Source.lines source) s) :
    ∃ s', Ends o (rawLines source) s' ∧
      unmarkedAll s'.settled.children = unmarkedAll s.settled.children := by
  obtain ⟨k, raw⟩ := Source.dropEmptyEnd_append_replicate (rawLines source)
  rw [← raw]
  exact ends.append_blank fun _ => allBlank_of_mem_replicate

theorem joined_of_sources {first second : Text} (bare : Text.endsWith '\r' first = false)
    (unmarked : Source.dropOrderMark second = second)
    (flush : ∀ line, (Source.lines second).find? (fun line => !allBlank line) = some line →
      width o.tabSize line = 0) (ends : Ends o (Source.lines first) s) :
    Joined s.settled.children (lineCount first) (ofSource o second)
      (ofSource o (first ++ '\n' :: second)) := by
  have lines : Source.lines (first ++ '\n' :: second) =
      if Source.lines second = [] then Source.lines first
      else rawLines first ++ Source.lines second := by
    rw [Source.lines_eq, Source.rawLines_append bare unmarked, Source.dropEmptyEnd_append]
    rfl
  rw [ofSource, ofSource, lines]
  by_cases empty : Source.lines second = []
  · rw [if_pos empty, empty, (ends_nil o).ofLines_eq, ends.ofLines_eq]
    exact .tree (append_nil _).symm
  · rw [if_neg empty, ← Source.length_rawLines]
    obtain ⟨s', ends', same⟩ := ends.raw
    exact (ends'.joined (fun line mem => Source.not_mem_of_mem_lines mem) flush).congr same

/-- A template and, behind a line feed, another one whose first line that is not blank has no
indentation are read exactly if the other one can be read by itself. The children are those of the
first and then those of the second, up to line marks; a fault in the second is reported further down
by the lines of the first. -/
theorem ofSource_append {o : Options} {first second : Text} {tree : Node}
    (accepted : ofSource o first = .ok tree) (bare : Text.endsWith '\r' first = false)
    (unmarked : ∀ c t, second = c :: t → c.toNat ≠ 0xFEFF)
    (flush : ∀ line, (Source.lines second).find? (fun line => !allBlank line) = some line →
      width o.tabSize line = 0) :
    ((∃ whole, ofSource o (first ++ '\n' :: second) = .ok whole) ↔
      ∃ tree', ofSource o second = .ok tree') ∧
    (∀ tree', ofSource o second = .ok tree' → ∃ children children' whole,
      tree = .seq children ∧ tree' = .seq children' ∧
      ofSource o (first ++ '\n' :: second) = .ok (.seq whole) ∧
      unmarkedAll whole = unmarkedAll children ++ unmarkedAll children') ∧
    ∀ fault, ofSource o second = .error fault →
      ofSource o (first ++ '\n' :: second) = .error (fault.below (lineCount first)) ∧
      (fault.below (lineCount first)).report o =
        { fault.report o with
          number := (fault.report o).number + lineCount first } := by
  obtain ⟨s, ends⟩ := ends_of_ok (fun line mem => Source.not_mem_of_mem_lines mem) accepted
  have noMark : Source.dropOrderMark second = second := by
    cases second with
    | nil => rfl
    | cons c t => exact if_neg (unmarked c t rfl)
  have joined := joined_of_sources bare noMark flush ends
  have children := ends.ofLines_eq
  rw [← ofSource, accepted, Except.ok.injEq] at children
  generalize ofSource o second = result at joined
  generalize ofSource o (first ++ '\n' :: second) = whole at joined
  cases joined with
  | tree same =>
    refine ⟨⟨fun _ => ⟨_, rfl⟩, fun _ => ⟨_, rfl⟩⟩, ?_, fun fault failed => nomatch failed⟩
    intro tree' read
    cases read
    exact ⟨_, _, _, children, rfl, rfl, same⟩
  | fault f =>
    refine ⟨⟨fun ⟨_, read⟩ => (nomatch read), fun ⟨_, read⟩ => (nomatch read)⟩,
      fun tree' read => (nomatch read), ?_⟩
    intro fault failed
    cases failed
    exact ⟨rfl, rfl⟩

/-- Below an embedded block inside a control line, a code that is not finished. -/
theorem ofSource_append_open_blocks :
    ofSource {} "- if a\n  :plain\n    b\n\n- c,".toList =
      .error ⟨.unexpectedEnd, Spot.start 5 []⟩ := by
  have accepted : ofSource {} "- if a\n  :plain\n    b".toList =
      .ok (.seq [.control "if a".toList (.seq [.newline, .embedded "plain".toList
        (.seq [.newline, .interpolate "b".toList]), .newline])]) := by
    decide
  have flush : ∀ line, (Source.lines "\n- c,".toList).find? (fun line => !allBlank line) =
      some line → width 4 line = 0 := by
    intro line found
    have first : line = "- c,".toList := by
      simpa using found.symm.trans (show _ = some "- c,".toList by decide)
    rw [first]
    decide
  have further := (ofSource_append accepted rfl (by
    intro c t same
    cases same
    decide) flush).2.2 ⟨.unexpectedEnd, Spot.start 2 []⟩ (by decide +kernel)
  exact further.1

end Outline

end MarkupTemplate
