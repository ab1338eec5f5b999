import MarkupTemplate.Proofs.Compiler.Complete
import MarkupTemplate.Proofs.Compiler.Drift
import MarkupTemplate.Proofs.Outline.Dispatched
import MarkupTemplate.Proofs.Compiler.DefaultEscaping
import MarkupTemplate.Proofs.Program.OneOutput

/-!
# The line of an output

The statement of an output line has the number of that line, but for two things. What is nested
below is captured first, so its lines are counted in front (`Node.ahead`). And some lines of what
the output is nested in come behind it in the tree: those of the attributes of a tag after the
first, and those of a broken code (`Layout.late`). Which statement it is shows if another name
stands in the line (`generate_outputLine`).
-/

namespace MarkupTemplate

open List
open Node (Fits DifferAt Outputs Puts PutsEscaped OnceAt ahead captureLines extentOf)
open Embedded (Registry Cache verbatim)
open Text (allBlank)
open Source (isInner linesBefore lineStart lineCount)

theorem Concur.exists_ok {ε α β : Type} {related : α → β → Prop} {x : Except ε α} {y : Except ε β}
    (concur : Concur related x y) {a : α} (given : x = .ok a) : ∃ b, y = .ok b ∧ related a b := by
  subst given
  cases concur with
  | ok here => exact ⟨_, rfl, here⟩

/-! ## Stages -/

/-- Two trees at a stage that differ in the code of one output, behind so many lines in the end. -/
def Stage.DifferAt (o : Options) (v w : Text) (d : Nat) : Stage → Node → Node → Prop
  | .rendered => fun n n' =>
    ∃ lead e, lead + e = d ∧
      Node.DifferAt o.disableCapture (Outputs (ahead o.disableCapture) v w e) lead n n'
  | .expanded => fun n n' =>
    ∃ lead e, lead + e = d ∧
      Node.DifferAt o.disableCapture (Outputs (captureLines o.disableCapture) v w e) lead n n'
  | .stated | .merged | .written => Node.DifferAt o.disableCapture (Puts v w) d
  | .escaped | .flat => Node.DifferAt o.disableCapture (PutsEscaped o.escapeHtml v w) d

namespace Pass

variable {o : Options} {r : Registry} {v w : Text} {d : Nat} {n n' : Node}

theorem concur_of_twin {σ : Type} {related : Node → Node → Prop}
    {x y : StateT σ (Except Failure) Node}
    (twin : Twin related x y) (s : σ) : Concur related ((x s).map (·.1)) ((y s).map (·.1)) :=
  (twin_iff.mp twin s).map fun _ _ both => both.1

theorem runPure_differAt {pass : Pass} (late : pass.isLate)
    (differ : pass.takes.DifferAt o v w d n n') (fits : Fits pass.takes.kinds o.format .tree n) :
    Concur (pass.leaves.DifferAt o v w d) (pass.runPure o n) (pass.runPure o n') := by
  cases pass with
  | embed | interpolate => nomatch late
  | control =>
    obtain ⟨lead, e, rfl, differ⟩ := differ
    exact concur_of_twin (Node.lowered_differAt differ fits) 0
  | override =>
    have walked : Node.Walked .stated o.format _ _ :=
      (Node.overridden_listPass o.overrideAttrs).walked
        (Node.overridden_descends o.overrideAttrs).toSequences
    exact (walked.puts (fun _ _ => rfl) (fun _ => rfl) differ fits).concur
  | sort =>
    rw [runPure, runPure]
    split
    · have walked : Node.Walked .stated o.format _ _ :=
        (Node.sorted_listPass o.sortAttrKeys).walked
          (Node.sorted_descends o.sortAttrKeys).toSequences
      exact (walked.puts (fun _ _ => rfl) (fun _ => rfl) differ fits).concur
    · exact .ok differ
  | merge =>
    exact concur_of_twin ((Node.merging_walked o).puts (fun _ _ => rfl) (fun _ => rfl) differ fits)
      0
  | markup => exact concur_of_twin (Node.writing_differAt o differ fits ⟨o.pretty, 0⟩) {}
  | escape => exact (Node.escaped_differAt o.escapeHtml differ fits none).concur
  | flatten => exact (Node.flattened_differAt differ fits).concur
  | join => exact (Node.joined_differAt differ fits).concur

theorem runAll_differAt (r : Registry) {passes : List Pass} {stage stage' : Stage}
    (leads : Leads stage passes stage') (met : Cache) (differ : stage.DifferAt o v w d n n')
    (fits : Fits stage.kinds o.format .tree n) :
    ∃ m m', runAll o r passes n met = (.ok m, met) ∧ runAll o r passes n' met = (.ok m', met) ∧
      Fits stage'.kinds o.format .tree m ∧ stage'.DifferAt o v w d m m' := by
  induction leads generalizing n n' with
  | nil => exact ⟨n, n', rfl, rfl, fits, differ⟩
  | cons pass late _ ih =>
    obtain ⟨m, stepped, kept⟩ := (runPure_keeps o late fits).exists_ok
    obtain ⟨m', stepped', differ⟩ := (runPure_differAt late differ fits).exists_ok stepped
    rw [runAll, runAll, run_late o r late n met, run_late o r late n' met, stepped, stepped']
    exact ih differ kept.fits

end Pass

/-! ## Programs -/

variable {o : Options} {r : Registry} {v w : Text} {d e : Nat} {n n' final : Node}
  {met met' : Cache}

theorem runAll_oneOutput (plainV : '\n' ∉ v) (plainW : '\n' ∉ w)
    (differ : DifferAt o.disableCapture (Outputs (ahead o.disableCapture) v w e) d n n')
    (fits : Fits .rendered o.format .tree n)
    (ran : Pass.runAll o r (Pass.all o) n met = (.ok final, met')) :
    ∃ final' p p', Pass.runAll o r (Pass.all o) n' met = (.ok final', met') ∧
    Program.ofTree o final = .ok p ∧ Program.ofTree o final' = .ok p' ∧
      OneOutput o.generator o.escapeHtml v w (1 + (d + e)) p.lines p'.lines := by
  have fits' : Fits .rendered o.format .tree n' := by
    refine differ.fits ?_ fits
    rintro _ _ ⟨_⟩ fits
    exact .frame rfl rfl fits.of_frame.2
  have embedded : ∀ {m : Node}, Fits .rendered o.format .tree m →
      Pass.runAll o r (Pass.all o) m met = Pass.runAll o r (.interpolate :: Pass.late o) m met := by
    intro m fits
    rw [Pass.all_eq, Pass.runAll, Pass.run, Node.rendered_of_fits fits]
    rfl
  rw [embedded fits] at ran
  rw [embedded fits']
  obtain ⟨m, met₁, first, rest⟩ := Pass.exists_of_runAll_cons ran
  obtain ⟨expanded, rfl⟩ : n.interpolated = .ok m ∧ met = met₁ := Prod.mk.inj first
  have kept := (Node.interpolated_keeps fits).of_ok expanded
  obtain ⟨m', expanded', differ⟩ :=
    (Node.interpolated_differAt differ fits).concur.exists_ok expanded
  have both : Stage.expanded.DifferAt o v w (d + e) m m' := ⟨d, e, rfl, differ⟩
  obtain ⟨_, final', ran, ran', fits, differ⟩ :=
    Pass.runAll_differAt r (Pass.leads_late o) met both kept.fits
  obtain ⟨same, rfl⟩ := Prod.mk.inj (rest.symm.trans ran)
  cases same
  obtain ⟨p, p', written, written', one⟩ := Program.ofTree_oneOutput plainV plainW differ fits
  refine ⟨final', p, p', ?_, written, written', one⟩
  have first' : Pass.interpolate.run o r n' met' = (.ok m', met') := congrArg (·, met') expanded'
  rw [Pass.runAll, first']
  exact ran'

theorem generate_eq_ok_iff {source : Source} {p : Program} (read : source.tree o = .ok n) :
    (generate o r source met).1 = .ok p ↔
      ∃ final met', Pass.runAll o r (Pass.all o) n met = (.ok final, met') ∧
      Program.ofTree o final = .ok p := by
  rw [generate, transform, read]
  dsimp only
  generalize Pass.runAll o r (Pass.all o) n met = ran
  obtain ⟨result, met'⟩ := ran
  cases result with
  | error failure => simp
  | ok final =>
    cases written : Program.ofTree o final with
    | error failure | ok p' => simp [written]

/-! ## Lines of open nodes -/

/-- The lines of a frame that are counted behind what is inside. -/
def Frame.late (noCapture : Bool) : Frame → Nat
  | .output _ source => if noCapture then 0 else source.count '\n'
  | _ => 0

theorem Frame.extent_eq (noCapture : Bool) (f : Frame) :
    f.extent 1 = f.lead noCapture + f.late noCapture := by
  cases f with
  | output _ source =>
    cases noCapture with
    | true | false => simp [extent, lead, late]
  | _ => simp [extent, lead, late]

namespace Opener

def lead (noCapture : Bool) : Opener → Nat
  | .plain => 0
  | .frame f inner => f.lead noCapture + lead noCapture inner
  | .tag _ entries => extentOf 1 entries

def late (noCapture : Bool) : Opener → Nat
  | .plain | .tag _ _ => 0
  | .frame f inner => f.late noCapture + late noCapture inner

theorem extent_fill (noCapture : Bool) (opener : Opener) (children : List Node) :
    (opener.fill children).extent 1 = opener.lead noCapture + extentOf 1 children +
      opener.late noCapture := by
  induction opener with
  | plain | tag name entries => simp [fill, lead, late]
  | frame f inner ih =>
    rw [fill, Node.extent_frame, ih, f.extent_eq noCapture, lead, late]
    omega

end Opener

def Level.late (noCapture : Bool) (v : Level) : Nat :=
  v.opener.late noCapture + extentOf 1 v.after

/-- The lines of open containers that are counted behind what is inside, though already read. -/
def Layout.late (noCapture : Bool) (l : Layout) : Nat :=
  (l.outer.map (Level.late noCapture)).sum

/-! ## Reading -/

variable {o : Options} {v w : Text}

/-- Trees and open nodes that differ in the code of one output. -/
def outputs (noCapture : Bool) (v w : Text) : Places where
  lead := Opener.lead noCapture
  related d n n' := ∃ e, DifferAt noCapture (Outputs (ahead noCapture) v w e) d n n'
  openers opener opener' :=
    opener = Outline.outputOpener .byDefault v ∧ opener' = Outline.outputOpener .byDefault w
  fill opener d ns ns' once := by
    obtain ⟨before, after, ⟨e, inside⟩, rfl⟩ := once
    refine ⟨e, ?_⟩
    induction opener with
    | plain => exact inside.seq before after |>.cast (Nat.zero_add _).symm
    | frame f inner ih => exact ih.frame f |>.cast (Nat.add_assoc ..).symm
    | tag name entries => exact (inside.seq before after).tag name entries
  opened := by
    rintro _ _ ⟨rfl, rfl⟩ children
    exact ⟨_, .here (.intro rfl)⟩

/-- Lines that have been read are counted in front of what is inside, or behind it. -/
theorem Layout.extentOf_children (noCapture : Bool) (v w : Text) (l : Layout) :
    extentOf 1 l.children =
      Level.leads (outputs noCapture v w) l.outer + extentOf 1 l.inner + l.late noCapture := by
  obtain ⟨widths, inner, outer⟩ := l
  induction outer generalizing inner with
  | nil => simp [children, Level.leads, late]
  | cons v outer ih =>
    have closed := ih (v.close inner)
    rw [Level.close, Node.extentOf_append, Node.extentOf_cons,
      v.opener.extent_fill noCapture] at closed
    rw [Level.leads_cons, Level.lead]
    simp only [late, map_cons, sum_cons, Level.late, outputs] at closed ⊢
    exact closed.trans (by omega)

namespace Outline

/-- Whether a line starts with an output mark behind its indentation, and blanks behind that. -/
def isOutputStart (start : Text) : Bool :=
  match Text.trimLeft start with
  | '=' :: gap => allBlank gap
  | _ => false

theorem ink_of_isOutputStart {start : Text} (is : isOutputStart start) :
    allBlank start = false := by
  unfold isOutputStart at is
  split at is
  next gap trimmed =>
    rw [← Text.allBlank_trimLeft, trimmed]
    rfl
  next => nomatch is

theorem exists_of_isOutputStart {start : Text} (is : isOutputStart start) :
    ∃ margin gap, start = margin ++ '=' :: gap ∧ allBlank margin ∧ allBlank gap := by
  unfold isOutputStart at is
  split at is
  next gap trimmed =>
    refine ⟨start.takeWhile Text.isBlank, gap, ?_, ?_, is⟩
    · rw [← trimmed]
      exact takeWhile_append_dropWhile.symm
    · exact all_eq_true.mpr fun _ => mem_takeWhile_imp
  next => nomatch is

end Outline

/-- A word that stands inside a line and is no part of an output mark. -/
structure Text.IsName (t : Text) : Prop extends IsWord t where
  inner : t.all isInner
  head : t.head? ≠ some '='

theorem Text.IsName.ink {t : Text} (name : t.IsName) : allBlank t = false := by
  obtain ⟨c, rest, rfl⟩ := exists_cons_of_ne_nil name.filled
  rw [allBlank, all_cons, name.plain c (.head _), Bool.false_and]

theorem Text.trim_between {gap tail : Text} (blank : allBlank gap) (blankTail : allBlank tail)
    (word : IsWord v) : trim (gap ++ (v ++ tail)) = v := by
  have empty : trimRight tail = [] := by
    induction tail with
    | nil => rfl
    | cons c tail ih =>
      rw [allBlank, all_cons, Bool.and_eq_true] at blankTail
      rw [trimRight, ih blankTail.2]
      simp [blankTail.1]
  obtain ⟨c, t, rfl⟩ := exists_cons_of_ne_nil word.filled
  have first := word.plain c (.head _)
  have left : trimLeft (gap ++ (c :: t ++ tail)) = c :: t ++ tail := by
    rw [trimLeft, dropWhile_append_of_pos (all_eq_true.mp blank)]
    simp [first]
  rw [trim, left, trimRight_append_of_eq_nil _ empty, trimRight_of_plain word.plain]

namespace Outline

theorem dispatch_output (s : State) {spot : Spot} {gap tail : Text} (blankGap : allBlank gap)
    (blankTail : allBlank tail) (name : Text.IsName v)
    (rest : spot.rest = '=' :: (gap ++ (v ++ tail))) :
    dispatch o s spot = .ok (s.openBlock (outputOpener .byDefault v) [] []) := by
  obtain ⟨c, t, rfl⟩ := exists_cons_of_ne_nil name.filled
  have single : (gap ++ (c :: t ++ tail)).head? ≠ some '=' := by
    cases gap with
    | nil => exact name.head
    | cons c gap =>
      rw [allBlank, all_cons, Bool.and_eq_true] at blankGap
      rintro ⟨⟩
      exact absurd blankGap.1 (by decide)
  obtain ⟨after, found, left⟩ : ∃ after,
    spot.scan? Indicator.read = some (.output .byDefault, after) ∧
      after.rest = gap ++ (c :: t ++ tail) :=
    Spot.exists_scan? (by rw [rest, Indicator.read_byDefault single]) (rest ▸ suffix_cons ..)
  have code : Text.trim after.rest = c :: t := by
    rw [left, Text.trim_between blankGap blankTail name.toIsWord]
  have inked : after.atEnd = false := by
    simp [Spot.atEnd, left, allBlank, name.plain c (.head _)]
  have whole : Text.endsWith ',' (Text.trimRight (c :: t)) = false := by
    rw [Text.trimRight_of_plain name.plain, name.endsWith_eq]
  rw [dispatch, found]
  simp only [marked, inked, code, takeCode, whole, Bool.false_eq_true, if_false]
  rfl

theorem step_outputLine {s : State} {start tail : Text} (free : s.takes o start = false)
    (mark : isOutputStart start) (blankTail : allBlank tail) (name : Text.IsName v) :
    step o s (start ++ v ++ tail) =
      match s.settled.enter (Indent.width o.tabSize start) with
      | (some cause, _) =>
        .error ⟨cause, (Spot.start (s.number + 1) (start ++ v ++ tail)).skipBlanks⟩
      | (none, layout) =>
        .ok ⟨s.number + 1, layout.push (outputOpener .byDefault v) [.newline] [], .nothing⟩ := by
  obtain ⟨margin, gap, rfl, blankMargin, blankGap⟩ := exists_of_isOutputStart mark
  have apart : Text.Apart '=' '=' gap (gap ++ (v ++ tail)) (margin ++ '=' :: gap)
      (margin ++ '=' :: (gap ++ (v ++ tail))) := .behind margin
  have line : margin ++ '=' :: gap ++ v ++ tail = margin ++ '=' :: (gap ++ (v ++ tail)) := by simp
  obtain ⟨ink, ink'⟩ := apart.allBlank_eq (by decide) (by decide)
  have width := Indent.width_apart o.tabSize (by decide) (by decide) apart
  obtain ⟨resting, outside⟩ := resting_of_takes ink free
  rw [line, step_of_ink ink' resting (width ▸ outside), width]
  generalize s.settled.enter _ = entered
  obtain ⟨cause?, layout⟩ := entered
  cases cause? with
  | some cause => rfl
  | none =>
    refine dispatch_output _ blankGap blankTail name ?_
    rw [Spot.rest_skipBlanks]
    show Text.trimLeft (margin ++ '=' :: (gap ++ (v ++ tail))) = _
    rw [Text.trimLeft, dropWhile_append_of_pos (all_eq_true.mp blankMargin)]
    rfl

/-- Whether the template `front`, a name and `back` has an output line that puts out the name. -/
def isOutputLine (o : Options) (front back : Text) : Bool :=
  match (linesBefore front).foldlM (step o) {} with
  | .error _ => false
  | .ok s =>
    !s.takes o (lineStart front) && isOutputStart (lineStart front) &&
      allBlank (Source.lineEnd back)

/-- The lines in front of an output line that are counted behind it, those of its containers. -/
def lateLines (o : Options) (front : Text) : Nat :=
  match (linesBefore front).foldlM (step o) {} with
  | .error _ => 0
  | .ok s =>
    Layout.late o.disableCapture (s.settled.enter (Indent.width o.tabSize (lineStart front))).2

/-- With another name in an output line, the tree differs in the code of one output. The lines in
front of it are those of the template, but for the late ones. -/
theorem ofSource_renamed {front back : Text} {n : Node} (line : isOutputLine o front back)
    (name : Text.IsName v)
    (name' : Text.IsName w) (read : ofSource o (front ++ v ++ back) = .ok n) :
    ∃ n' d e, ofSource o (front ++ w ++ back) = .ok n' ∧
      DifferAt o.disableCapture (Outputs (ahead o.disableCapture) v w e) d n n' ∧
      1 + d + lateLines o front = lineCount front := by
  unfold isOutputLine at line
  split at line
  next => cases line
  next s run =>
    simp only [Bool.and_eq_true, Bool.not_eq_true'] at line
    obtain ⟨⟨free, mark⟩, blank⟩ := line
    rw [ofSource, Source.lines_around name.filled name.inner, ofLines_of_run run,
      step_outputLine free mark blank name] at read
    rw [ofSource, Source.lines_around name'.filled name'.inner, ofLines_of_run run,
      step_outputLine free mark blank name']
    simp only [lateLines, run]
    generalize entered : s.settled.enter _ = result at read ⊢
    obtain ⟨cause?, layout⟩ := result
    cases cause? with
    | some cause => cases read
    | none =>
      have place : Layout.OnePlace (outputs o.disableCapture v w) _
          (layout.push (outputOpener .byDefault v) [.newline] [])
          (layout.push (outputOpener .byDefault w) [.newline] []) :=
        .outer _ _ [] _ (.opener _ [] ⟨rfl, rfl⟩) rfl
      obtain ⟨n', read', e, differ⟩ := (finish_onePlace place (s.number + 1) _).exists_ok read
      refine ⟨n', _, e, read', differ, ?_⟩
      have plain : ∀ line ∈ linesBefore front, '\n' ∉ line :=
        fun _ => Source.feed_not_mem_linesBefore
      obtain ⟨resting, _⟩ := resting_of_takes (ink_of_isOutputStart mark) free
      have number : s.number = 0 + (linesBefore front).length :=
        number_of_run plain (s := {}) trivial run
      have lines : extentOf 1 layout.children = s.number := by
        rw [Layout.children_enter entered]
        exact (isRead_of_run plain run resting).2
      have whole : (outputs o.disableCapture v w).lead .plain = 0 := rfl
      rw [Layout.extentOf_children o.disableCapture v w] at lines
      rw [← Source.length_linesBefore, whole]
      dsimp only
      omega

end Outline

/-! ## Programs -/

/-- The statement of an output line has the number of the line, unless there are late lines in front
of it or the block below is captured. -/
theorem generate_outputLine {r : Registry} {met : Cache} {front back : Text} {n : Node}
    {p : Program}
    (line : Outline.isOutputLine o front back) (name : Text.IsName v) (name' : Text.IsName w)
    (read : Outline.ofSource o (front ++ v ++ back) = .ok n) (plain : ∀ m ∈ n.parts, ¬m.isEmbedded)
    (compiled : (generate o r (.text (front ++ v ++ back)) met).1 = .ok p) :
    ∃ (c : Node.Context) (body : Node) (p' : Program) (entry : Nat),
      n = c.fill (.output true v body) ∧
      Outline.ofSource o (front ++ w ++ back) = .ok (c.fill (.output true w body)) ∧
      (generate o r (.text (front ++ w ++ back)) met).1 = .ok p' ∧
      OneOutput o.generator o.escapeHtml v w entry p.lines p'.lines ∧
      entry + Outline.lateLines o front = lineCount front + ahead o.disableCapture body ∧
      (entry = lineCount front ↔ Outline.lateLines o front = ahead o.disableCapture body) := by
  obtain ⟨n', d, e, read', differ, lines⟩ := Outline.ofSource_renamed line name name' read
  have near : Indent.canExpand o.tabSize := by
    obtain ⟨_, tree⟩ := Source.tree_of_generate compiled
    rw [← Outline.measurable_around name.ink name.inner front back]
    exact (Source.ofSource_of_tree rfl tree).1
  have tree :=
    Source.tree_of_ofSource ((Outline.measurable_around name.ink name.inner front back).trans near)
    read
  have tree' :=
    Source.tree_of_ofSource
    ((Outline.measurable_around name'.ink name'.inner front back).trans near) read'
  obtain ⟨final, met', ran, written⟩ := (generate_eq_ok_iff tree).mp compiled
  have fits := Node.isRead_fits (Outline.isRead_of_source read).1 plain
  obtain ⟨final', _, p', ran', written₁, written', one⟩ :=
    runAll_oneOutput name.feed_not_mem name'.feed_not_mem differ fits ran
  cases written.symm.trans written₁
  have compiled' := (generate_eq_ok_iff tree').mpr ⟨final', met', ran', written'⟩
  obtain ⟨c, _, _, ⟨same⟩, rfl, rfl⟩ := differ.exists_context
  refine ⟨c, _, p', 1 + (d + e), rfl, read', compiled', one, ?_, ?_⟩
  · omega
  · omega

/-- An output inside an output whose code is broken, below a tag with two lines of attributes. -/
def nestedFront : Text :=
  "%a(b=\"1\"\n  c=\"2\")\n  = f(x,\n    y)\n    = "

/-- Two lines below the output. -/
def nestedBack : Text :=
  "\n      %p hi\n      ok"

theorem generate_outputLine_nested :
    Outline.isOutputLine {} nestedFront nestedBack ∧ Text.IsName "z" ∧ Text.IsName "w" ∧
      lineCount nestedFront = 5 ∧
      ∃ p p', (generate {} (Registry.builtin verbatim) (.text (nestedFront ++ "z" ++ nestedBack))
        []).1 = .ok p ∧
        (generate {} (Registry.builtin verbatim) (.text (nestedFront ++ "w" ++ nestedBack)) []).1 =
          .ok p' ∧
        OneOutput .array false "z" "w" 6 p.lines p'.lines := by
  have line : Outline.isOutputLine {} nestedFront nestedBack := by decide +kernel
  have named : ∀ c : Char, Text.isBlank c = false → c ≠ ',' → isInner c → c ≠ '=' →
      Text.IsName [c] := by
    intro c ink whole inner head
    exact
      ⟨⟨by
      simp, by simpa using ink, by simpa using whole.symm⟩, by simpa using inner, by
        simpa using head⟩
  have name : Text.IsName "z" := named 'z' (by decide) (by decide) (by decide) (by decide)
  have name' : Text.IsName "w" := named 'w' (by decide) (by decide) (by decide) (by decide)
  have reads : (Outline.ofSource {} (nestedFront ++ "z" ++ nestedBack)).toOption.any
      fun n => n.parts.all fun m => !m.isEmbedded := by decide +kernel
  have compiles : (generate {} (Registry.builtin verbatim)
    (.text (nestedFront ++ "z" ++ nestedBack)) []).1.toOption.any
      fun p => p.lines.all fun l => !l.1.contains 'z' || l.2 == 6 := by decide +kernel
  refine ⟨line, name, name', by decide, ?_⟩
  obtain ⟨n, read, plain⟩ := exists_of_any reads
  obtain ⟨p, compiled, only⟩ := exists_of_any compiles
  have plain : ∀ m ∈ n.parts, ¬m.isEmbedded := by simpa using plain
  obtain ⟨_, _, p', entry, _, _, compiled', one, _, _⟩ :=
    generate_outputLine line name name' read plain compiled
  obtain ⟨text, mem, holds⟩ := one.exists_mem
  have only : ∀ l ∈ p.lines, 'z' ∈ l.1 → l.2 = 6 := by simpa [imp_iff_not_or] using only
  cases only _ mem (holds 'z' (mem_singleton_self _))
  exact ⟨p, p', compiled, compiled', one⟩

/-- The second line of a list of attributes is counted behind the block of the tag. -/
theorem generate_outputLine_late :
    Outline.isOutputLine {} "%a(b=\"1\"\n  c=\"2\")\n  = " [] ∧
      lineCount "%a(b=\"1\"\n  c=\"2\")\n  = " = 3 ∧
      (generate {} (Registry.builtin verbatim) (.text "%a(b=\"1\"\n  c=\"2\")\n  = v")
        []).1.toOption.map Program.lines =
        some [("_hamlc_buf.append('<a b=\"1\" c=\"2\">')".toList, 1),
          ("_hamlc_buf.append(_hamlc_str(v))".toList, 2), ("_hamlc_buf.append('</a>')", 3)] := by
  decide +kernel

end MarkupTemplate
