import MarkupTemplate.Proofs.Node.Parts
import MarkupTemplate.Proofs.Outline.Held

/-!
# Layouts without line marks

Two layouts have the same ink if they differ at most in line marks. Lines are read alike in both
(`sameInk_steady`), blank lines add line marks only (`run_blank`), and a line that closes blocks
makes no difference to a later one that is not indented deeper (`enter_of_enter`).
-/

namespace MarkupTemplate

open Node (unmarkedAll)

/-- Two levels that differ at most in line marks. -/
structure Level.SameInk (v v' : Level) : Prop where
  before : unmarkedAll v.before = unmarkedAll v'.before
  opener : v.opener = v'.opener
  after : unmarkedAll v.after = unmarkedAll v'.after

/-- Two layouts that differ at most in line marks. -/
structure Layout.SameInk (l l' : Layout) : Prop where
  widths : l.widths = l'.widths
  inner : unmarkedAll l.inner = unmarkedAll l'.inner
  outer : List.Forall₂ Level.SameInk l.outer l'.outer

theorem Level.SameInk.close {v v' : Level} (same : v.SameInk v') {children children' : List Node}
    (inner : unmarkedAll children = unmarkedAll children') :
    unmarkedAll (v.close children) = unmarkedAll (v'.close children') := by
  simp only [Level.close, Node.unmarkedAll_append,
    Node.unmarkedAll_cons (Opener.fill_ne_newline _ _), same.before,
    same.after, same.opener, v'.opener.unmarked_fill inner]

namespace Layout.SameInk

variable {l l' : Layout}

theorem refl (l : Layout) : SameInk l l :=
  ⟨rfl, rfl, List.forall₂_same.mpr fun _ _ => ⟨rfl, rfl, rfl⟩⟩

theorem trans {l'' : Layout} (first : SameInk l l') (second : SameInk l' l'') : SameInk l l'' := by
  refine ⟨first.widths.trans second.widths, first.inner.trans second.inner, ?_⟩
  have both : ∀ {as bs cs : List Level}, List.Forall₂ Level.SameInk as bs →
    List.Forall₂ Level.SameInk bs cs →
      List.Forall₂ Level.SameInk as cs := by
    intro as bs cs here there
    induction here generalizing cs with
    | nil => exact there
    | cons level _ ih =>
      cases there with
      | cons level' rest =>
        exact .cons ⟨level.before.trans level'.before, level.opener.trans level'.opener,
          level.after.trans level'.after⟩ (ih rest)
  exact both first.outer second.outer

variable (same : SameInk l l')

include same

theorem symm : SameInk l' l :=
  ⟨same.widths.symm, same.inner.symm,
    same.outer.flip.imp fun _ _ level => ⟨level.before.symm, level.opener.symm, level.after.symm⟩⟩

omit same in
theorem marked (l : Layout) : SameInk l (l.append [.newline]) :=
  ⟨rfl, by simp [Layout.append], (refl l).outer⟩

theorem width_eq : l.width = l'.width := by
  rw [width, width, same.widths]

theorem expecting_eq : l.expecting = l'.expecting := by
  rw [expecting, expecting, same.widths, same.outer.length_eq]

theorem withWidths (widths : List Nat) : SameInk { l with widths } { l' with widths } :=
  ⟨rfl, same.inner, same.outer⟩

theorem append {nodes nodes' : List Node} (added : unmarkedAll nodes = unmarkedAll nodes') :
    SameInk (l.append nodes) (l'.append nodes') :=
  ⟨same.widths, by simp [Layout.append, same.inner, added], same.outer⟩

theorem push (opener : Opener) {start start' : List Node}
    (starts : unmarkedAll start = unmarkedAll start') (after : List Node) :
    SameInk (l.push opener start after) (l'.push opener start' after) :=
  ⟨same.widths, starts, .cons ⟨same.inner, rfl, rfl⟩ same.outer⟩

theorem close : SameInk l.close l'.close := by
  obtain ⟨widths, inner, outer⟩ := l
  obtain ⟨_, inner', outer'⟩ := l'
  obtain ⟨rfl, ink, levels⟩ := same
  cases levels with
  | nil => exact ⟨rfl, ink, .nil⟩
  | cons level levels => exact ⟨rfl, level.close ink, levels⟩

theorem enter (w : Nat) : (l.enter w).1 = (l'.enter w).1 ∧ SameInk (l.enter w).2 (l'.enter w).2 :=
  enter_related widths expecting_eq close withWidths same w

theorem enter_none {w : Nat} {entered : Layout} (found : l'.enter w = (none, entered)) :
    ∃ entered', l.enter w = (none, entered') ∧ SameInk entered' entered := by
  obtain ⟨cause, layout⟩ := same.enter w
  rw [found] at cause layout
  exact ⟨(l.enter w).2, Prod.ext cause rfl, layout⟩

theorem children : unmarkedAll l.children = unmarkedAll l'.children := by
  obtain ⟨widths, inner, outer⟩ := l
  obtain ⟨_, inner', outer'⟩ := l'
  obtain ⟨rfl, ink, levels⟩ := same
  change List.Forall₂ Level.SameInk outer outer' at levels
  induction levels generalizing inner inner' with
  | nil => exact ink
  | cons level _ ih => exact ih _ _ (level.close ink)

theorem tree : l.tree.unmarked = l'.tree.unmarked :=
  congrArg Node.seq same.children

end Layout.SameInk

theorem sameInk_steady : Layout.Steady Layout.SameInk where
  width_eq := Layout.SameInk.width_eq
  append same _ := same.append rfl
  push same opener _ after := same.push opener rfl after
  enter same w := same.enter w

/-! ## Blank lines -/

namespace Outline

/-- What blank lines make of a state: what is open stays open, and only line marks are added. -/
structure State.Waited (s s' : State) : Prop where
  sound : s'.Sound
  resting : s'.resting
  width_eq : s'.layout.width = s.layout.width
  waiting : s'.pending ≠ .nothing → s.pending ≠ .nothing
  ink : s'.settled.SameInk s.settled

variable {s : State} {o : Options} {line : Text}

theorem State.Waited.trans {s' s'' : State} (first : s.Waited s') (second : s'.Waited s'') :
    s.Waited s'' :=
  ⟨second.sound, second.resting, second.width_eq.trans first.width_eq,
    fun more => first.waiting (second.waiting more),
    second.ink.trans first.ink⟩

theorem step_blank (sound : s.Sound) (resting : s.resting) (blank : Text.allBlank line) :
    ∃ s', step o s line = .ok s' ∧ s.Waited s' ∧ s'.number = s.number + 1 := by
  have counted : s.counted.Sound := ⟨sound.rising, sound.depth⟩
  obtain ⟨number, layout, pending⟩ := s
  have marked := (Layout.SameInk.marked layout).symm
  cases pending with
  | nothing =>
    refine ⟨_, ?_, ⟨Step.sound (o := o) counted (.blank rfl), rfl, rfl, fun more => absurd rfl more,
      marked⟩, rfl⟩
    simp only [step, fresh, blank, ↓reduceIte]
    rfl
  | silent =>
    refine ⟨_, ?_, ⟨Step.sound (o := o) counted (.silent rfl), rfl, rfl, by simp, marked⟩, rfl⟩
    simp only [step, nested, blank, Bool.true_or, ↓reduceIte]
    rfl
  | text block use =>
    refine ⟨_, ?_, ⟨Step.sound (o := o) counted (.textBlank rfl), rfl, rfl, by simp, ?_⟩, rfl⟩
    · simp only [step, textLine, blank, ↓reduceIte]
      rfl
    · have same := Layout.SameInk.refl layout
      cases use with
      | embedded name | comment =>
        refine same.append ?_
        simp [TextBlock.addBlank, Node.unmarkedAll_cons, Node.unmarked]
      | tag head =>
        refine same.push head.opener ?_ head.marks
        simp [TextBlock.addBlank]
  | attributes form entries left name extraLines | code code use => cases resting

theorem allBlank_of_mem_replicate {k : Nat} (mem : line ∈ List.replicate k []) :
    Text.allBlank line := by
  rw [List.eq_of_mem_replicate mem]
  rfl

theorem run_blank {lines : List Text} (sound : s.Sound) (resting : s.resting)
    (blank : ∀ line ∈ lines, Text.allBlank line) :
    ∃ s', lines.foldlM (step o) s = .ok s' ∧ s.Waited s' ∧ s'.number = s.number + lines.length := by
  induction lines generalizing s with
  | nil => exact ⟨s, rfl, ⟨sound, resting, rfl, id, .refl _⟩, rfl⟩
  | cons line lines ih =>
    obtain ⟨next, read, waited, number⟩ := step_blank (o := o) sound resting (blank line (.head _))
    obtain ⟨s', run, waited', number'⟩ :=
      ih waited.sound waited.resting (fun l mem => blank l (.tail _ mem))
    refine ⟨s', ?_, waited.trans waited', ?_⟩
    · rw [List.foldlM_cons, read]
      exact run
    · rw [number', number, List.length_cons]
      omega

end Outline

namespace Layout

/-! ## Closing blocks twice -/

theorem close_withWidths (l : Layout) (widths : List Nat) :
    close { l with widths } = { l.close with widths } := by
  obtain ⟨_, inner, outer⟩ := l
  cases outer with
  | nil | cons v outer => rfl

theorem closeDeeper_withWidths (w : Nat) (widths : List Nat) (l : Layout) (other : List Nat) :
    closeDeeper w widths { l with widths := other } = closeDeeper w widths l := by
  induction widths generalizing l with
  | nil => rfl
  | cons d widths ih => rw [closeDeeper, closeDeeper, close_withWidths, ih]

variable {w d : Nat}

theorem closeDeeper_of_le {widths : List Nat} (le : widths.headD 0 ≤ w) (l : Layout) :
    closeDeeper w widths l = { l with widths } := by
  cases widths with
  | nil => rfl
  | cons d widths =>
    have shallow : d ≤ w := le
    rw [closeDeeper, if_neg (Nat.not_lt.mpr shallow)]

theorem closeDeeper_closeDeeper (le : w ≤ d) (widths : List Nat) (l : Layout) :
    closeDeeper w (closeDeeper d widths l).widths (closeDeeper d widths l) =
      closeDeeper w widths l := by
  induction widths generalizing l with
  | nil => rfl
  | cons first widths ih =>
    rw [closeDeeper]
    split
    next deeper => rw [ih, closeDeeper, if_pos (by omega)]
    next => exact closeDeeper_withWidths w (first :: widths) l _

/-- How a line finds room: as the first in a block, or at the indentation of an open block. -/
theorem cases_of_enter {l l' : Layout} (entered : l.enter w = (none, l')) :
    (l.width < w ∧ l.expecting ∧ l' = { l with widths := w :: l.widths }) ∨
      (w ≤ l.width ∧ l' = closeDeeper w l.widths (if l.expecting then l.close else l) ∧
        l'.width = w) := by
  unfold enter at entered
  split at entered
  next deeper =>
    split at entered
    next expecting =>
      cases entered
      exact .inl ⟨deeper, expecting, rfl⟩
    next => nomatch entered
  next shallow =>
    generalize closed : closeDeeper w l.widths (if l.expecting then l.close else l) = l₁ at entered
    simp only at entered
    split at entered
    next width =>
      cases entered
      exact .inr ⟨Nat.not_lt.mp shallow, rfl, width⟩
    next => nomatch entered

theorem enter_of_width {l : Layout} (shallow : w ≤ l.width)
    (found : (closeDeeper w l.widths (if l.expecting then l.close else l)).width = w) :
    l.enter w = (none, closeDeeper w l.widths (if l.expecting then l.close else l)) := by
  unfold enter
  rw [if_neg (Nat.not_lt.mpr shallow)]
  simp only
  rw [if_pos found]

theorem width_of_enter {l l' : Layout} (entered : l.enter w = (none, l')) : l'.width = w := by
  rcases cases_of_enter entered with ⟨_, _, rfl⟩ | ⟨_, _, width⟩
  · rfl
  · exact width

/-- What finds room behind a line, and is not indented deeper, finds the same without the line. -/
theorem enter_of_enter {l l' l'' : Layout} (rising : l.Rising) (depth : l.Even ∨ l.Ahead)
    (first : l.enter d = (none, l')) (le : w ≤ d) (second : l'.enter w = (none, l'')) :
    l.enter w = (none, l'') := by
  have width := width_of_enter first
  have even := (even_of_enter rising depth first).2
  rcases cases_of_enter second with ⟨deeper, _⟩ | ⟨_, closed, found⟩
  · omega
  rw [expecting_of_even even, if_neg (by simp)] at closed
  rcases cases_of_enter first with ⟨deeper, expecting, rfl⟩ | ⟨shallow, rfl, _⟩
  · -- The first line is the first one in a block.  The second one is in the block as well, or
    -- closes it.
    rcases Nat.lt_or_eq_of_le le with less | rfl
    · have out : l'' = closeDeeper w l.widths l.close := by
        rw [closed, closeDeeper, if_pos less, close_withWidths, closeDeeper_withWidths]
      have shallow : w ≤ l.width := by
        by_contra deeper
        have still := closeDeeper_of_le (Nat.le_of_lt (Nat.not_le.mp deeper)) l.close
        rw [out, still] at found
        exact deeper (Nat.le_of_eq found.symm)
      have same : closeDeeper w l.widths (if l.expecting then l.close else l) = l'' := by
        rw [if_pos expecting, out]
      rw [← same] at found ⊢
      exact enter_of_width shallow found
    · rw [closeDeeper_of_le (Nat.le_refl w)] at closed
      rw [closed]
      exact first
  · rw [closeDeeper_closeDeeper le] at closed
    rw [closed] at found ⊢
    exact enter_of_width (by omega) found

end Layout

end MarkupTemplate
