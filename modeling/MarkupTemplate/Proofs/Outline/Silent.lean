import MarkupTemplate.Proofs.Outline.Concat
import MarkupTemplate.Proofs.Outline.Dispatched

/-!
# Silent comments

A silent comment takes up its line and the lines below that are blank or indented deeper. Blank
lines in its place make no difference but for line marks: the next line is not indented deeper, so
it ends what is pending and closes whatever the comment has closed (`Layout.enter_of_enter`).
-/

namespace MarkupTemplate.Outline

open List

/-- How many lines a silent comment takes up whose mark stands in line `k`, counted from zero. -/
def silentExtent? (o : Options) (lines : List Text) (k : Nat) : Option Nat :=
  match (lines.take k).foldlM (step o) {}, lines.drop k with
  | .ok s, line :: rest =>
    match dispatched? o s line, step o s line with
    | some (.silent, _), .ok s' => some (1 + (rest.takeWhile (nested o s')).length)
    | _, _ => none
  | _, _ => none

/-- A silent comment in a template: its lines, and the state its first line is read in. -/
structure SilentAt (o : Options) (front : List Text) (line : Text) (block back : List Text)
    (s s' : State) : Prop where
  run : front.foldlM (step o) {} = .ok s
  dispatched : ∃ spot, dispatched? o s line = some (.silent, spot)
  read : step o s line = .ok s'
  block : ∀ l ∈ block, nested o s' l
  back : ∀ l, back.head? = some l → nested o s' l = false

variable {lines : List Text} {tree : Node}

variable {o : Options}

theorem silentAt_of_extent {k m : Nat} (silent : silentExtent? o lines k = some m) :
    ∃ front line block back s s', lines = front ++ line :: block ++ back ∧ front.length = k ∧
      block.length + 1 = m ∧ SilentAt o front line block back s s' := by
  unfold silentExtent? at silent
  split at silent
  next s line rest run here =>
    split at silent
    next spot s' dispatched read =>
      cases silent
      have length : (lines.take k).length = k := by
        have more : k < lines.length := by
          by_contra short
          rw [drop_eq_nil_of_le (Nat.not_lt.mp short)] at here
          nomatch here
        simp [Nat.le_of_lt more]
      refine ⟨lines.take k, line, rest.takeWhile (nested o s'), rest.dropWhile (nested o s'), s, s',
        ?_, length,
        Nat.add_comm .., run, ⟨spot, dispatched⟩, read, fun l mem => mem_takeWhile_imp mem, ?_⟩
      · rw [append_assoc, cons_append, takeWhile_append_dropWhile, ← here, take_append_drop]
      · intro l first
        have outside := head?_dropWhile_not (nested o s') rest
        rw [first] at outside
        simpa using outside
    next => nomatch silent
  next => nomatch silent

/-! ## Lists of lines -/

theorem run_silent {s : State} (silent : s.pending = .silent)
    (within : ∀ line ∈ lines, nested o s line) :
    ∃ s', lines.foldlM (step o) s = .ok s' ∧ s'.pending = .silent ∧
    s'.number = s.number + lines.length ∧ s.layout.SameInk s'.layout := by
  induction lines generalizing s with
  | nil => exact ⟨s, rfl, silent, rfl, .refl _⟩
  | cons line lines ih =>
    obtain ⟨number, layout, _⟩ := s
    cases silent
    have taken : step o ⟨number, layout, .silent⟩ line = .ok ⟨number + 1, layout.append [.newline],
        .silent⟩ := by
      have here : nested o ⟨number + 1, layout, .silent⟩ line = true := within line (.head _)
      simp only [step, here, ↓reduceIte]
      rfl
    obtain ⟨s', run, pending, counted, ink⟩ :=
      @ih ⟨number + 1, layout.append [.newline], .silent⟩ rfl
      fun l mem => within l (.tail _ mem)
    refine ⟨s', ?_, pending, ?_, (Layout.SameInk.marked layout).trans ink⟩
    · rw [foldlM_cons, taken]
      exact run
    · rw [counted, length_cons]
      exact Nat.add_right_comm ..

theorem step_behind_silent {s s₁ s₂ t : State} {layout : Layout} {d : Nat} (sound : s.Sound)
    (entered : s.settled.enter d = (none, layout))
    (outside : s.pending ≠ .nothing → d ≤ s.layout.width)
    (silent : s₁.pending = .silent) (ink : layout.SameInk s₁.layout) (waited : s.Waited s₂)
    (number : s₂.number = s₁.number) {next : Text} (free : nested o s₁ next = false)
    (read : step o s₁ next = .ok t) :
    ∃ t', step o s₂ next = .ok t' ∧ State.Beside Layout.SameInk t' t := by
  have settled : s₁.settled = s₁.layout := by rw [State.settled, silent]
  have resting : s₁.resting := by rw [State.resting, silent]
  simp only [nested, Bool.or_eq_false_iff, decide_eq_false_iff_not, Nat.not_lt] at free
  obtain ⟨inked, shallow⟩ := free
  have le : Indent.width o.tabSize next ≤ d := by
    rw [← ink.width_eq, Layout.width_of_enter entered] at shallow
    exact shallow
  have outside₂ : s₂.pending ≠ .nothing → Indent.width o.tabSize next ≤ s₂.layout.width := by
    intro waiting
    rw [waited.width_eq]
    exact Nat.le_trans le (outside (waited.waiting waiting))
  rw [step_of_ink inked resting fun _ => shallow, settled] at read
  rw [step_of_ink inked waited.resting outside₂, number]
  split at read
  next => cases read
  next layout₁ found =>
    -- The line finds its place below the comment, so it finds it without the comment.
    obtain ⟨layout', again, same⟩ := ink.enter_none found
    have alone := Layout.enter_of_enter sound.settled.1 sound.settled.2 entered le again
    obtain ⟨layout₂, there, same₂⟩ := waited.ink.enter_none alone
    have beside : State.Beside Layout.SameInk ⟨s₁.number + 1, layout₂, .nothing⟩ ⟨s₁.number + 1,
      layout₁, .nothing⟩ :=
      ⟨rfl, rfl, same₂.trans same⟩
    have concur :=
      dispatch_beside sameInk_steady beside o (Spot.start (s₁.number + 1) next).skipBlanks
    rw [there]
    rw [read] at concur
    generalize result : dispatch o ⟨s₁.number + 1, layout₂, .nothing⟩ _ = read₂ at concur
    cases concur with
    | ok here => exact ⟨_, result, here⟩

section Blanked

variable {o : Options} {front block back : List Text} {line : Text} {s s' : State}

variable (silent : SilentAt o front line block back s s')

include silent

/-- The first line of a silent comment finds its place as any line, and adds a line mark. -/
theorem SilentAt.entered :
    ∃ layout, s.settled.enter (Indent.width o.tabSize line) = (none, layout) ∧
      s' = ⟨s.number + 1, layout.append [.newline], .silent⟩ := by
  obtain ⟨spot, dispatched⟩ := silent.dispatched
  obtain ⟨layout, entered, marked⟩ := step_of_dispatched dispatched silent.read
  cases marked
  exact ⟨layout, entered, rfl⟩

variable {tree : Node}

theorem SilentAt.blanked (sound : s.Sound)
    (accepted : (line :: block ++ back).foldlM (step o) s >>= finish = .ok tree) :
    ∃ tree', (replicate (block.length + 1) [] ++ back).foldlM (step o) s >>= finish = .ok tree' ∧
      tree'.unmarked = tree.unmarked := by
  obtain ⟨spot, dispatched⟩ := silent.dispatched
  obtain ⟨_, resting, outside⟩ := of_dispatched dispatched
  obtain ⟨layout, entered, rfl⟩ := silent.entered
  obtain ⟨s₁, run₁, pending₁, number₁, ink₁⟩ := run_silent (o := o) rfl silent.block
  obtain ⟨s₂, run₂, waited, number₂⟩ :=
    @run_blank s o (replicate (block.length + 1) []) sound resting
    fun _ => allBlank_of_mem_replicate
  have ink : layout.SameInk s₁.layout := (Layout.SameInk.marked layout).trans ink₁
  have number : s₂.number = s₁.number := by
    rw [number₂, number₁, length_replicate]
    exact (Nat.add_assoc ..).symm.trans (Nat.add_right_comm ..)
  rw [cons_append, foldlM_cons, silent.read] at accepted
  change (block ++ back).foldlM (step o) _ >>= finish = _ at accepted
  rw [foldlM_append, run₁] at accepted
  rw [foldlM_append, run₂]
  change back.foldlM (step o) s₁ >>= finish = _ at accepted
  change ∃ tree', back.foldlM (step o) s₂ >>= finish = .ok tree' ∧ _
  cases back with
  | nil =>
    -- Nothing is left to be read: whatever is open is closed.
    obtain ⟨_, rfl⟩ := finish_eq_ok_iff.mp (show finish s₁ = .ok tree from accepted)
    have children : layout.children = s.settled.children := Layout.children_enter entered
    have settled : s₁.settled = s₁.layout := by rw [State.settled, pending₁]
    refine ⟨_, finish_eq_ok_iff.mpr ⟨waited.resting, rfl⟩, congrArg Node.seq ?_⟩
    calc Node.unmarkedAll s₂.settled.children
      _ = Node.unmarkedAll layout.children := by rw [children]; exact waited.ink.children
      _ = Node.unmarkedAll s₁.settled.children := by rw [settled]; exact ink.children
  | cons next rest =>
    have free : nested o s₁ next = false := by
      rw [nested, ← ink₁.width_eq]
      exact silent.back next rfl
    cases read : step o s₁ next with
    | error fault =>
      rw [foldlM_cons, read] at accepted
      cases accepted
    | ok t =>
      obtain ⟨t', read', beside⟩ :=
        step_behind_silent sound entered outside pending₁ ink waited number free read
      have concur := (foldlM_beside sameInk_steady beside (o := o) rest).bind fun _ _ =>
        finish_beside sameInk_steady
      rw [foldlM_cons, read] at accepted
      rw [foldlM_cons, read']
      change rest.foldlM (step o) t >>= finish = _ at accepted
      change ∃ tree', rest.foldlM (step o) t' >>= finish = .ok tree' ∧ _
      rw [accepted] at concur
      generalize rest.foldlM (step o) t' >>= finish = result at concur
      cases concur with
      | ok here =>
        obtain ⟨l, l', same, rfl, rfl⟩ := here
        exact ⟨_, rfl, same.tree⟩

theorem SilentAt.ofLines_blanked (plain : ∀ l ∈ front ++ line :: block ++ back, '\n' ∉ l)
    (accepted : ofLines o (front ++ line :: block ++ back) = .ok tree) :
    ∃ tree', ofLines o (front ++ (replicate (block.length + 1) [] ++ back)) = .ok tree' ∧
      tree'.unmarked = tree.unmarked := by
  have sound : s.Sound := (sound_of_run (fun l mem => plain l (by simp [mem])) silent.run).2
  rw [ofLines, append_assoc, foldlM_append, silent.run] at accepted
  rw [ofLines, foldlM_append, silent.run]
  exact silent.blanked sound accepted

end Blanked

/-! ## Empty lines at the end -/

theorem ofLines_append_empty (plain : ∀ line ∈ lines, '\n' ∉ line)
    (accepted : ofLines o lines = .ok tree) (j : Nat) :
    ∃ tree', ofLines o (lines ++ replicate j []) = .ok tree' ∧ tree'.unmarked = tree.unmarked := by
  obtain ⟨s, ends⟩ := ends_of_ok plain accepted
  obtain ⟨s', ends', same⟩ := @Ends.append_blank _ _ _ (replicate j []) ends fun _ =>
    allBlank_of_mem_replicate
  have tree_eq := ends.ofLines_eq
  rw [accepted, Except.ok.injEq] at tree_eq
  exact ⟨_, ends'.ofLines_eq, by rw [tree_eq]; exact congrArg Node.seq same⟩

theorem resting_of_step_empty {s s' : State} (good : s.pending.Good) (read : step o s [] = .ok s')
    (resting : s'.resting) : s.resting := by
  obtain ⟨number, layout, pending⟩ := s
  cases pending with
  | nothing | silent | text => rfl
  | attributes form entries left name extraLines =>
    have goes : Attribute.resume form entries (number + 1) [] =
        .ok (.continues form entries (form.skipGap (Spot.start (number + 1) []).skipBlanks)) := by
      rw [Attribute.resume, Attribute.readEntries]
      exact if_pos rfl
    simp only [step, goes, tagAttributes] at read
    cases read
    cases resting
  | code code use =>
    have broken : Text.endsWith ',' (Text.trimRight (code ++ '\n' :: Text.trim [])) := by
      rw [Text.trimRight_append_of_eq_nil code (by decide)]
      exact good.1
    simp only [step, takeCode, broken, ↓reduceIte] at read
    cases read
    cases resting

theorem resting_of_run_empty {s s' : State} {j : Nat} (good : s.pending.Good)
    (run : (replicate j []).foldlM (step o) s = .ok s') (resting : s'.resting) : s.resting := by
  induction j generalizing s with
  | zero =>
    cases run
    exact resting
  | succ j ih =>
    rw [replicate_succ, foldlM_cons] at run
    obtain ⟨next, read, run⟩ := exists_of_bind run
    have taken := step_of_ok not_mem_nil good read
    exact resting_of_step_empty good read (ih (taken.good (s := s.counted) good) run)

theorem ofLines_dropEmptyEnd (plain : ∀ line ∈ lines, '\n' ∉ line)
    (accepted : ofLines o lines = .ok tree) :
    ∃ tree', ofLines o (Source.dropEmptyEnd lines) = .ok tree' ∧
    tree'.unmarked = tree.unmarked := by
  obtain ⟨j, whole⟩ := Source.dropEmptyEnd_append_replicate lines
  have plain' : ∀ line ∈ Source.dropEmptyEnd lines, '\n' ∉ line := by
    intro line mem
    exact plain line (by rw [← whole]; exact mem_append_left _ mem)
  obtain ⟨s', ends'⟩ := ends_of_ok plain accepted
  have run := ends'.run
  rw [← whole, foldlM_append] at run
  obtain ⟨s, front, rest⟩ := exists_of_bind run
  have good := (sound_of_run plain' front).1
  have resting := resting_of_run_empty good rest ends'.resting
  have kept : ofLines o (Source.dropEmptyEnd lines) = .ok s.settled.tree := by
    rw [ofLines, front]
    exact finish_eq_ok_iff.mpr ⟨resting, rfl⟩
  obtain ⟨tree', longer, same⟩ := ofLines_append_empty plain' kept j
  rw [whole, accepted, Except.ok.injEq] at longer
  exact ⟨_, kept, by rw [longer, same]⟩

/-! ## Templates -/

theorem rawLines_blanked_of_lines {source : Text} {front back : List Text}
    (whole : Source.lines source = front ++ lines ++ back) (filled : lines ≠ []) :
    ∃ j, Source.rawLines (Source.blanked front.length lines.length source) =
      front ++ (replicate lines.length [] ++ back) ++ replicate j [] := by
  obtain ⟨j, raw⟩ := Source.dropEmptyEnd_append_replicate (Source.rawLines source)
  rw [← Source.lines_eq, whole] at raw
  have positive : 0 < lines.length := length_pos_iff.mpr filled
  have inside : front.length < Source.lineCount source := by
    rw [← Source.length_rawLines, ← raw]
    simp only [length_append]
    omega
  have start : (Source.rawLines source).take front.length = front := by
    rw [← raw, append_assoc, append_assoc, take_left]
  have rest : (Source.rawLines source).drop (front.length + lines.length) = back ++
      replicate j [] := by
    rw [← raw, append_assoc]
    exact drop_left' (by simp)
  refine ⟨j, ?_⟩
  rw [Source.rawLines_blanked positive inside, start, rest]
  simp only [append_assoc]

/-- A silent comment is transparent: with all of its lines made empty, a template that is accepted
is accepted as well, and its tree is the same but for line marks. -/
theorem ofSource_blanked {o : Options} {source : Text} {tree : Node} {k m : Nat}
    (accepted : ofSource o source = .ok tree)
    (silent : silentExtent? o (Source.lines source) k = some m) :
    ∃ tree', ofSource o (Source.blanked k m source) = .ok tree' ∧
    tree'.unmarked = tree.unmarked := by
  obtain ⟨front, line, block, back, s, s', lines, rfl, rfl, comment⟩ := silentAt_of_extent silent
  have plain : ∀ l ∈ front ++ line :: block ++ back, '\n' ∉ l := by
    intro l mem
    rw [← lines] at mem
    exact Source.not_mem_of_mem_lines mem
  rw [ofSource, lines] at accepted
  -- First the comment is made empty, then the empty lines at the end are added, and then all of
  -- them are dropped.
  obtain ⟨tree₁, read₁, same₁⟩ := comment.ofLines_blanked plain accepted
  obtain ⟨j, raw⟩ := rawLines_blanked_of_lines lines (cons_ne_nil line block)
  rw [length_cons] at raw
  have plain' : ∀ l ∈ front ++ (replicate (block.length + 1) [] ++ back), '\n' ∉ l := by
    intro l mem
    refine @Source.not_mem_of_mem_rawLines (Source.blanked front.length (block.length + 1) source) l
      ?_
    rw [raw]
    exact mem_append_left _ mem
  obtain ⟨tree₂, read₂, same₂⟩ := ofLines_append_empty plain' read₁ j
  rw [← raw] at read₂
  obtain ⟨tree₃, read₃, same₃⟩ :=
    ofLines_dropEmptyEnd (fun l => Source.not_mem_of_mem_rawLines) read₂
  exact ⟨tree₃, read₃, same₃.trans (same₂.trans same₁)⟩

/-- A comment that closes a block and runs over a blank line, before a line that closes one more. -/
theorem ofSource_blanked_nested :
    silentExtent? {} (Source.lines "%a\n  %b\n    c\n  -# d\n\n      e\nf") 3 = some 3 ∧
      ∃ tree', ofSource {} (Source.blanked 3 3 "%a\n  %b\n    c\n  -# d\n\n      e\nf") =
        .ok tree' ∧ tree'.unmarked = .seq [.tag "a" [] (some (.seq [.tag "b" [] (some (.seq
          [.interpolate "c"]))])), .interpolate "f"] := by
  have accepted : ofSource {} "%a\n  %b\n    c\n  -# d\n\n      e\nf" = .ok (.seq
      [.tag "a" [] (some (.seq [.newline, .tag "b" [] (some (.seq [.newline, .interpolate "c",
        .newline])), .newline, .newline, .newline])), .interpolate "f", .newline]) := by
    decide +kernel
  have silent : silentExtent? {} (Source.lines "%a\n  %b\n    c\n  -# d\n\n      e\nf") 3 =
      some 3 := by
    decide +kernel
  obtain ⟨tree', read, same⟩ := ofSource_blanked accepted silent
  exact ⟨silent, tree', read, same.trans (by decide)⟩

end MarkupTemplate.Outline
