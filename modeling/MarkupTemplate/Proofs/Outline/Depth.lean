import MarkupTemplate.Proofs.Outline.Shift
import MarkupTemplate.Proofs.Outline.Step

/-!
# Open containers and indentations

While a template is read, the indentations of the open blocks rise from the outside in, and there
are as many as containers around the innermost one, or one less right after a line that opened a
container. So a line that is not indented closes everything (`enter_zero`). The outermost container
is never closed by a line, since there is always an open one inside it to close (`enter?_eq`).
-/

namespace MarkupTemplate

open List

namespace Layout

/-- Whether the indentations of the open blocks rise and none of them is zero. -/
structure Rising (l : Layout) : Prop where
  sorted : l.widths.Pairwise (· > ·)
  positive : ∀ w ∈ l.widths, 0 < w

/-- Whether every open container inside the outermost one has its indentation. -/
def Even (l : Layout) : Prop :=
  l.outer.length = l.widths.length

/-- Whether the innermost container was opened by the last line. -/
def Ahead (l : Layout) : Prop :=
  l.outer.length = l.widths.length + 1

variable {l l' : Layout} {w : Nat}

theorem expecting_of_even (even : l.Even) : l.expecting = false := by
  unfold Even at even
  simp [expecting, even]

theorem expecting_of_ahead (ahead : l.Ahead) : l.expecting = true := by
  unfold Ahead at ahead
  simp [expecting, ahead]

theorem even_close_of_ahead (ahead : l.Ahead) : l.close.Even := by
  unfold Ahead at ahead
  unfold close Even
  split
  next empty => simp [empty] at ahead
  next v outer more => simpa [more] using ahead

@[simp] theorem widths_close (l : Layout) : l.close.widths = l.widths := by
  unfold close
  split <;> rfl

theorem length_outer_close (l : Layout) : l.close.outer.length = l.outer.length - 1 := by
  unfold close
  split
  next empty => simp [empty]
  next v outer more => simp [more]

theorem children_close (l : Layout) : l.close.children = l.children := by
  obtain ⟨widths, inner, outer⟩ := l
  cases outer with
  | nil | cons v outer => rfl

theorem children_enter {cause? : Option Cause} (entered : l.enter w = (cause?, l')) :
    l'.children = l.children :=
  enter_keeps (P := fun l' => l'.children = l.children) (fun kept => (children_close _).trans kept)
    (fun kept _ => kept) rfl entered

theorem closeDeeper_even {widths : List Nat} (even : l.outer.length = widths.length) :
    (closeDeeper w widths l).widths <:+ widths ∧ (closeDeeper w widths l).Even := by
  induction widths generalizing l with
  | nil => exact ⟨suffix_refl _, even⟩
  | cons d widths ih =>
    simp only [closeDeeper]
    split
    · have closed : l.close.outer.length = widths.length := by
        rw [length_outer_close, even]
        rfl
      obtain ⟨suffix, even⟩ := ih closed
      exact ⟨suffix.trans (suffix_cons d widths), even⟩
    · exact ⟨suffix_refl _, even⟩

theorem even_of_enter (rising : l.Rising) (depth : l.Even ∨ l.Ahead)
    (entered : l.enter w = (none, l')) : l'.Rising ∧ l'.Even := by
  unfold enter at entered
  split at entered
  next deeper =>
    have ahead : l.Ahead := by
      rcases depth with even | ahead
      · rw [expecting_of_even even] at entered
        cases entered
      · exact ahead
    rw [expecting_of_ahead ahead] at entered
    cases entered
    refine ⟨⟨?_, ?_⟩, ahead⟩
    · refine pairwise_cons.mpr ⟨?_, rising.sorted⟩
      intro d mem
      -- The new indentation is above the innermost one and so above all.
      cases widths : l.widths with
      | nil => simp [widths] at mem
      | cons first others =>
        have innermost : l.width = first := by simp [width, widths]
        have sorted := rising.sorted
        rw [widths, pairwise_cons] at sorted
        rw [widths, mem_cons] at mem
        rcases mem with rfl | mem
        · omega
        · have := sorted.1 d mem
          omega
    · intro d mem
      rcases mem_cons.mp mem with rfl | mem
      · omega
      · exact rising.positive d mem
  next =>
    have even : (if l.expecting then l.close else l).outer.length = l.widths.length := by
      rcases depth with even | ahead
      · rw [expecting_of_even even]
        exact even
      · rw [expecting_of_ahead ahead, if_pos rfl, even_close_of_ahead ahead, widths_close]
    obtain ⟨suffix, even⟩ := closeDeeper_even (w := w) even
    simp only at entered
    generalize closeDeeper w l.widths (if l.expecting then l.close else l) = closed
      at entered suffix even
    split at entered
    next =>
      cases entered
      exact ⟨⟨rising.sorted.sublist suffix.sublist,
        fun d mem => rising.positive d (suffix.subset mem)⟩, even⟩
    next => cases entered

/-- A line that is not indented closes everything. -/
theorem enter_zero (rising : l.Rising) (depth : l.Even ∨ l.Ahead) :
    l.enter 0 = (none, { inner := l.children }) := by
  have all : ∀ (widths : List Nat) (l : Layout), (∀ w ∈ widths, 0 < w) →
      l.outer.length = widths.length → closeDeeper 0 widths l = { inner := l.children } := by
    intro widths
    induction widths with
    | nil =>
      intro l _ flat
      rw [length_nil, length_eq_zero_iff] at flat
      simp [closeDeeper, children, flat]
    | cons d widths ih =>
      intro l positive even
      rw [closeDeeper, if_pos (positive d (.head _)),
        ih l.close (fun w mem => positive w (.tail _ mem))
          (by rw [length_outer_close, even]; rfl), children_close]
  have closed : closeDeeper 0 l.widths (if l.expecting then l.close else l) =
      { inner := l.children } := by
    rcases depth with even | ahead
    · rw [expecting_of_even even]
      exact all l.widths l rising.positive even
    · rw [expecting_of_ahead ahead, if_pos rfl,
        all l.widths l.close rising.positive (by rw [length_outer_close, ahead]; rfl),
        children_close]
  simp only [enter, Nat.not_lt_zero, ↓reduceIte, closed]
  rfl

/-! ### The outermost container -/

/-- Closes the innermost open container, unless it is the outermost one. -/
def close? (l : Layout) : Option Layout :=
  match l.outer with
  | [] => none
  | v :: outer => some { l with inner := v.close l.inner, outer }

/-- Closes blocks of the indentations `widths` deeper than `w`, each in the outermost container. -/
def closeDeeper? (w : Nat) : (widths : List Nat) → Layout → Option Layout
  | [], l => some { l with widths := [] }
  | d :: widths, l =>
    if w < d then l.close?.bind (closeDeeper? w widths) else some { l with widths := d :: widths }

/-- Makes room for a line as `enter` does, if the outermost container need not be closed for it. -/
def enter? (l : Layout) (w : Nat) : Option (Option Cause × Layout) :=
  if l.width < w then some (l.enter w)
  else do
    let l' ← if l.expecting then l.close? else some l
    let l' ← closeDeeper? w l.widths l'
    return if l'.width = w then (none, l') else (some .malformedIndent, l')

theorem close?_eq (inside : l.outer ≠ []) : l.close? = some l.close := by
  obtain ⟨widths, inner, outer⟩ := l
  cases outer with
  | nil => exact absurd rfl inside
  | cons v outer => rfl

theorem closeDeeper?_eq {widths : List Nat} (even : l.outer.length = widths.length) :
    closeDeeper? w widths l = some (closeDeeper w widths l) := by
  induction widths generalizing l with
  | nil => rfl
  | cons d widths ih =>
    have inside : l.outer ≠ [] := by
      intro empty
      rw [empty] at even
      cases even
    have closed : l.close.outer.length = widths.length := by
      rw [length_outer_close, even]
      rfl
    rw [closeDeeper?, closeDeeper, close?_eq inside, Option.bind_some, ih closed]
    split
    · rfl
    · rfl

theorem enter?_eq (depth : l.Even ∨ l.Ahead) (w : Nat) : l.enter? w = some (l.enter w) := by
  unfold enter?
  split
  next => rfl
  next shallow =>
    rw [enter, if_neg shallow]
    rcases depth with even | ahead
    · rw [expecting_of_even even]
      simp only [Bool.false_eq_true, if_false, Option.bind_eq_bind, Option.bind_some,
        closeDeeper?_eq even]
      rfl
    · have inside : l.outer ≠ [] := by
        intro empty
        unfold Ahead at ahead
        simp [empty] at ahead
      have closed : l.close.outer.length = l.widths.length := by
        rw [even_close_of_ahead ahead, widths_close]
      rw [expecting_of_ahead ahead]
      simp only [if_true, close?_eq inside, Option.bind_eq_bind, Option.bind_some,
        closeDeeper?_eq closed]
      rfl

end Layout

namespace Outline

/-- What holds of the layout while a template is read. -/
structure State.Sound (s : State) : Prop where
  rising : s.layout.Rising
  /-- Only a finished line leaves a container without indentation. -/
  depth : s.layout.Even ∨ s.pending = .nothing ∧ s.layout.Ahead

variable {s : State} {o : Options}

theorem State.Sound.even (sound : s.Sound) (waiting : s.pending ≠ .nothing) : s.layout.Even := by
  rcases sound.depth with even | ⟨nothing, _⟩
  · exact even
  · exact absurd nothing waiting

theorem sound_after (rising : s.layout.Rising) (even : s.layout.Even) (effect : Effect) :
    (s.after effect).Sound := by
  cases effect with
  | close nodes | silent | wait pending => exact ⟨⟨rising.sorted, rising.positive⟩, Or.inl even⟩
  | block opener start after =>
    refine ⟨⟨rising.sorted, rising.positive⟩, Or.inr ⟨rfl, ?_⟩⟩
    exact congrArg (· + 1) even

theorem State.Sound.settled (sound : s.Sound) :
    s.settled.Rising ∧ (s.settled.Even ∨ s.settled.Ahead) := by
  unfold State.settled
  split
  next block use pending =>
    have after :=
      sound_after sound.rising (sound.even (by rw [pending]; simp)) (textEffect block use)
    rw [finishText_eq]
    refine ⟨after.rising, ?_⟩
    rcases after.depth with even | ⟨_, ahead⟩
    · exact Or.inl even
    · exact Or.inr ahead
  next =>
    refine ⟨sound.rising, ?_⟩
    rcases sound.depth with even | ⟨_, ahead⟩
    · exact Or.inl even
    · exact Or.inr ahead

theorem Step.sound {s' : State} (sound : s.Sound) (taken : Step o s s') : s'.Sound := by
  cases taken with
  | blank =>
    refine ⟨⟨sound.rising.sorted, sound.rising.positive⟩, ?_⟩
    rcases sound.depth with even | ⟨_, ahead⟩
    · exact Or.inl even
    · exact Or.inr ⟨rfl, ahead⟩
  | silent pending =>
    exact sound_after sound.rising (sound.even (by rw [pending]; simp)) .silent
  | textBlank pending | textLine pending =>
    exact sound_after sound.rising (sound.even (by rw [pending]; simp)) (.wait _)
  | attributes pending | code pending =>
    exact sound_after sound.rising (sound.even (by rw [pending]; simp)) _
  | line resting entered =>
    obtain ⟨rising, even⟩ := Layout.even_of_enter sound.settled.1 sound.settled.2 entered
    exact sound_after rising even _

theorem sound_of_run {lines : List Text} (plain : ∀ line ∈ lines, '\n' ∉ line)
    (run : lines.foldlM (step o) {} = .ok s) : s.pending.Good ∧ s.Sound := by
  have start : ({} : State).Sound := ⟨⟨.nil, nofun⟩, Or.inl rfl⟩
  have good : (State.pending {}).Good := trivial
  refine run_invariant ?_ plain good start run
  intro s s' _ sound taken
  exact taken.sound (s := s.counted) ⟨sound.rising, sound.depth⟩

end Outline

end MarkupTemplate
