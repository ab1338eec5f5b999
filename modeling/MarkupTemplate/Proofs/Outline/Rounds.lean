import MarkupTemplate.Proofs.Outline.Depth
import MarkupTemplate.Proofs.Outline.Dispatched
import MarkupTemplate.Proofs.Source

/-!
# Rounds of reading

A template is read in rounds. A round begins with a line that nothing unfinished takes, and takes in
the lines that go on with what it has left unfinished. All that is open between two rounds was open
where the last line with a mark had made room for itself, apart from one container that this line
may have opened (`Since`). `indents_of_run` says of every template, refused or not, which
indentations are open after each of its lines.
-/

namespace MarkupTemplate.Outline

/-! ## Where rounds begin -/

/-- The state in which a round begins with the next line. -/
def State.ready (s : State) : State :=
  ⟨s.number + 1, s.settled, .nothing⟩

variable {o : Options} {line : Text}

theorem step_of_free {s : State} (free : s.takes o line = false) :
    step o s line = fresh o s.ready line := by
  cases ink : Text.allBlank line with
  | false =>
    obtain ⟨resting, outside⟩ := resting_of_takes ink free
    rw [step_of_ink ink resting outside, fresh_of_ink ink]
    rfl
  | true =>
    -- Only where nothing is unfinished a blank line is left to itself.
    obtain ⟨number, layout, pending⟩ := s
    cases pending with
    | nothing => rfl
    | silent | text => simp [State.takes, nested, ink] at free
    | attributes | code => cases free

/-- The layouts in which the lines with a mark are read, once each has made room for itself. -/
def entered (o : Options) : State → List Text → List Layout
  | _, [] => []
  | s, line :: lines =>
    let here := if (dispatched? o s line).isSome
      then [(s.settled.enter (Indent.width o.tabSize line)).2] else []
    match step o s line with
    | .ok s' => here ++ entered o s' lines
    | .error _ => here

/-- What a line without a mark can do: it goes on with what is unfinished, or is blank. -/
inductive Pending.GoesOn : Pending → Effect → Prop where
  | blank : GoesOn .nothing (.close [])
  | silent : GoesOn .silent .silent
  | text {block : TextBlock} {use : TextUse} (block' : TextBlock) :
    GoesOn (.text block use) (.wait (.text block' use))
  | attributes {form : Attribute.ListForm} {entries : List Node} {left : Spot} {name : Text}
    {extraLines : Nat}
      {effect : Effect} :
    TagDoes (extraLines + 1) effect → GoesOn (.attributes form entries left name extraLines) effect
  | code {code text : Text} {use : CodeUse} {effect : Effect} :
    use.Good → CodeDoes text use effect → GoesOn (.code code use) effect

theorem goesOn_of_unmarked {s s' : State} (plain : '\n' ∉ line) (good : s.pending.Good)
    (unmarked : dispatched? o s line = none) (read : step o s line = .ok s') :
    ∃ effect, s' = s.counted.after effect ∧ s.pending.GoesOn effect := by
  have left : Text.allBlank line || s.takes o line := by
    unfold dispatched? at unmarked
    split at unmarked
    next left => exact left
    next => cases unmarked
  have taken := step_of_ok plain good read
  obtain ⟨number, layout, pending⟩ := s
  cases pending with
  | nothing =>
    have blank : Text.allBlank line := by simpa [State.takes] using left
    have done : step o ⟨number, layout, .nothing⟩ line =
      .ok (State.close ⟨number + 1, layout, .nothing⟩ []) :=
      if_pos blank
    rw [done] at read
    cases read
    exact ⟨_, rfl, .blank⟩
  | silent =>
    have nested : nested o ⟨number, layout, .silent⟩ line := by
      rcases Bool.or_eq_true_iff.mp left with blank | nested
      · simp [nested, blank]
      · exact nested
    have done : step o ⟨number, layout, .silent⟩ line =
        .ok { State.close ⟨number + 1, layout, .silent⟩ [] with pending := .silent } :=
          if_pos nested
    rw [done] at read
    cases read
    exact ⟨_, rfl, .silent⟩
  | text block use =>
    simp only [step, textLine] at read
    split at read
    next =>
      cases read
      exact ⟨_, rfl, .text block.addBlank⟩
    next ink =>
      have inside : nested o ⟨number + 1, layout, .text block use⟩ line := by
        simp only [ink, Bool.false_or] at left
        exact left
      rw [if_pos inside] at read
      split at read
      next => cases read
      next block' _ =>
        cases read
        exact ⟨_, rfl, .text block'⟩
  | attributes form entries spot name extraLines =>
    cases taken with
    | attributes same does =>
      cases same
      exact ⟨_, rfl, .attributes does⟩
    | line resting => cases resting
    | blank pending | silent pending | textBlank pending | textLine pending | code pending =>
      cases pending
  | code code use =>
    cases taken with
    | code same good _ does =>
      cases same
      exact ⟨_, rfl, .code good does⟩
    | line resting => cases resting
    | blank pending | silent pending | textBlank pending | textLine pending | attributes pending =>
      cases pending

/-! ## What a line can open -/

/-- What is open after lines of which the last one with a mark was read in the layout `last?`.
Before any such line nothing is open, and the line has opened one container at most, without
indentation yet. -/
inductive State.Since (s : State) : (last? : Option Layout) → Prop where
  | start : s.layout.widths = [] → s.layout.outer = [] → s.pending = .nothing → Since s none
  | closed {l : Layout} :
    l.Rising → l.Even → s.layout.widths = l.widths → s.layout.outer = l.outer → Since s (some l)
  | opened {l : Layout} {v : Level} :
    l.Rising → l.Even → s.layout.widths = l.widths → s.layout.outer = v :: l.outer →
    s.pending = .nothing → Since s (some l)

namespace State.Since

variable {s : State} {last? : Option Layout}

theorem after {l : Layout} (rising : l.Rising) (even : l.Even) (widths : s.layout.widths = l.widths)
    (outer : s.layout.outer = l.outer) (effect : Effect) : (s.after effect).Since (some l) := by
  cases effect with
  | close nodes | silent | wait pending => exact .closed rising even widths outer
  | block opener start after => exact .opened rising even widths (congrArg _ outer) rfl

variable (since : s.Since last?)

include since

theorem unfinished (waiting : s.pending ≠ .nothing) (effect : Effect) :
    (s.after effect).Since last? := by
  cases since with
  | closed rising even widths outer => exact after rising even widths outer effect
  | start _ _ nothing | opened _ _ _ _ nothing => exact absurd nothing waiting

theorem unmarked {effect : Effect} (goes : s.pending.GoesOn effect) :
    (s.after effect).Since last? := by
  generalize here : s.pending = pending at goes
  cases goes with
  | blank =>
    cases since with
    | start widths outer => exact .start widths outer rfl
    | closed rising even widths outer => exact .closed rising even widths outer
    | opened rising even widths outer _ => exact .opened rising even widths outer rfl
  | _ => exact since.unfinished (by simp [here]) _

theorem congr {s' : State} (layout : s'.layout = s.layout) (pending : s'.pending = s.pending) :
    s'.Since last? := by
  cases since with
  | start => exact .start (by rwa [layout]) (by rwa [layout]) (by rwa [pending])
  | closed rising even => exact .closed rising even (by rwa [layout]) (by rwa [layout])
  | opened rising even =>
    exact .opened rising even (by rwa [layout]) (by rwa [layout]) (by rwa [pending])

theorem ready : s.ready.Since last? := by
  obtain ⟨number, layout, pending⟩ := s
  cases pending with
  | text block use =>
    have ended := since.unfinished (by simp) (textEffect block use)
    rw [← finishText_eq] at ended
    cases use with
    | embedded | comment | tag => exact ended.congr rfl rfl
  | nothing => exact since.congr rfl rfl
  | silent | attributes | code =>
    cases since with
    | closed rising even widths outer => exact .closed rising even widths outer
    | start _ _ nothing | opened _ _ _ _ nothing => nomatch nothing

theorem sound : s.Sound := by
  cases since with
  | start widths outer _ =>
    refine ⟨⟨by rw [widths]; exact .nil, by rw [widths]; nofun⟩, .inl ?_⟩
    rw [Layout.Even, widths, outer]
    rfl
  | closed rising even widths outer =>
    refine ⟨⟨by rw [widths]; exact rising.sorted, by rw [widths]; exact rising.positive⟩, .inl ?_⟩
    rw [Layout.Even, widths, outer]
    exact even
  | opened rising even widths outer nothing =>
    refine ⟨⟨by rw [widths]; exact rising.sorted, by rw [widths]; exact rising.positive⟩,
      .inr ⟨nothing, ?_⟩⟩
    rw [Layout.Ahead, widths, outer]
    exact congrArg (· + 1) even

end State.Since

variable {last? : Option Layout}

/-- What is open after a line with a mark was left open by that line. -/
theorem State.Since.marked {s s' : State} (since : s.Since last?) (plain : '\n' ∉ line)
    (dispatched : (dispatched? o s line).isSome) (read : step o s line = .ok s') :
    s'.Since (some (s.settled.enter (Indent.width o.tabSize line)).2) := by
  obtain ⟨found, dispatched⟩ := Option.isSome_iff_exists.mp dispatched
  obtain ⟨ink, resting, outside⟩ := of_dispatched dispatched
  rw [step_of_ink ink resting outside] at read
  split at read
  next => nomatch read
  next layout room =>
    obtain ⟨rising, even⟩ := Layout.even_of_enter since.sound.settled.1 since.sound.settled.2 room
    obtain ⟨effect, _, rfl⟩ :=
      dispatch_does (fun feed => plain (Spot.rest_skipBlanks_subset _ feed)) read
    rw [room]
    exact .after rising even rfl rfl effect

theorem State.Since.run {lines : List Text} (plain : ∀ line ∈ lines, '\n' ∉ line) {s s' : State}
    (good : s.pending.Good) (since : s.Since last?) (run : lines.foldlM (step o) s = .ok s') :
    s'.Since ((entered o s lines).getLast?.or last?) := by
  induction lines generalizing s last? with
  | nil =>
    cases run
    exact since
  | cons line lines ih =>
    rw [List.forall_mem_cons] at plain
    rw [List.foldlM_cons] at run
    obtain ⟨next, read, run⟩ := exists_of_bind run
    have good' : next.pending.Good := (step_of_ok plain.1 good read).good (s := s.counted) good
    rw [entered, read]
    simp only
    rw [List.getLast?_append, Option.or_assoc]
    refine ih plain.2 good' ?_ run
    split
    next dispatched => exact since.marked plain.1 dispatched read
    next unmarked =>
      obtain ⟨effect, rfl, goes⟩ := goesOn_of_unmarked plain.1 good (by simpa using unmarked) read
      have counted : s.counted.Since last? := since.congr rfl rfl
      exact counted.unmarked goes

/-! ## Indentations of templates -/

theorem indents_of_rising {l : Layout} (rising : l.Rising) : l.indents.Pairwise (· < ·) := by
  refine List.pairwise_cons.mpr ⟨fun w mem => rising.positive w (List.mem_reverse.mp mem), ?_⟩
  exact List.pairwise_reverse.mpr rising.sorted

@[simp] theorem length_indents (l : Layout) : l.indents.length = l.widths.length + 1 := by
  simp [Layout.indents]

/-- There is a container without indentation exactly if the last line with a mark has opened it. -/
theorem State.Since.depth {s : State} (since : s.Since last?) :
    (s.layout.depth = s.layout.indents.length ∨ s.layout.depth = s.layout.indents.length + 1) ∧
      (s.layout.depth = s.layout.indents.length + 1 ↔
        ∃ last v, last? = some last ∧ last.depth = last.indents.length ∧
        s.layout.indents = last.indents ∧ s.layout.outer = v :: last.outer) := by
  rw [length_indents, Layout.depth]
  cases since with
  | start widths outer _ => simp [widths, outer]
  | @closed l _ even widths outer =>
    unfold Layout.Even at even
    have other : ∀ v, l.outer ≠ v :: l.outer := fun v => List.ne_cons_self
    simp [widths, outer, even, other]
  | @opened l v _ even widths outer _ =>
    unfold Layout.Even at even
    simp [widths, outer, even, Layout.depth, Layout.indents]

/-- The indentations rise from zero, and there are as many containers open as indentations, or one
more: exactly if the last line with a mark has opened it, where every container had its indentation.
This holds wherever reading has come to in a template: `s.settled` is what the next round begins
with, and what the tree is made of if the template ends. -/
theorem indents_of_run {o : Options} {source : Text} {before rest : List Text} {s : State}
    (lines : Source.lines source = before ++ rest) (run : before.foldlM (step o) {} = .ok s) :
    (∀ line, s.takes o line = false → step o s line = fresh o s.ready line) ∧
      (s.resting → finish s = .ok s.settled.tree) ∧
      s.settled.indents.head? = some 0 ∧ s.settled.indents.Pairwise (· < ·) ∧
      (s.settled.depth = s.settled.indents.length ∨ s.settled.depth = s.settled.indents.length +
        1) ∧
      (s.settled.depth = s.settled.indents.length + 1 ↔
        ∃ last v, (entered o {} before).getLast? = some last ∧ last.depth = last.indents.length ∧
          s.settled.indents = last.indents ∧ s.settled.outer = v :: last.outer) := by
  have plain : ∀ line ∈ before, '\n' ∉ line := by
    intro line mem
    exact Source.not_mem_of_mem_lines (lines ▸ List.mem_append_left rest mem)
  have start : ({} : State).Since none := .start rfl rfl rfl
  have good : (State.pending {}).Good := trivial
  have since := (start.run plain good run).ready
  rw [Option.or_none] at since
  exact ⟨fun line => step_of_free, fun resting => finish_eq_ok_iff.mpr ⟨resting, rfl⟩, rfl,
    indents_of_rising since.sound.rising, since.depth⟩

/-- An output whose code is broken, below two tags, and a blank line. -/
def openOutput : List Text :=
  ["%ul", "  %li(a=b", "    c)", "    = f(x,", "      y)", ""].map String.toList

/-- The output is open and has no line below it yet, since the comment does not stand there. -/
theorem indents_of_run_output : ∃ s : State,
    Source.lines "%ul\n  %li(a=b\n    c)\n    = f(x,\n      y)\n\n    -# z".toList = openOutput ++
      ["    -# z".toList] ∧
      openOutput.foldlM (step {}) {} = .ok s ∧ s.settled.indents = [0, 2, 4] ∧ s.settled.depth = 4 ∧
      s.settled.indents.Pairwise (· < ·) ∧
      ∃ last v, (entered {} {} openOutput).getLast? = some last ∧ last.depth = 3 ∧
      s.settled.outer = v :: last.outer := by
  have lines : Source.lines "%ul\n  %li(a=b\n    c)\n    = f(x,\n      y)\n\n    -# z" =
      openOutput ++ ["    -# z".toList] := by decide
  have seen : (openOutput.foldlM (step {}) {}).toOption.map
    (fun s => (s.settled.indents, s.settled.depth)) =
      some ([0, 2, 4], 4) := by decide +kernel
  obtain ⟨s, run, seen⟩ := exists_of_toOption seen
  obtain ⟨indents, depth⟩ := Prod.mk.inj seen
  obtain ⟨_, _, _, rising, _, ahead⟩ := indents_of_run lines run
  obtain ⟨last, v, found, even, same, outer⟩ := ahead.mp (by rw [indents, depth]; rfl)
  have three : last.depth = 3 := by rw [even, ← same, indents]; rfl
  exact ⟨s, lines, run, indents, depth, rising, last, v, found, three, outer⟩

end MarkupTemplate.Outline
