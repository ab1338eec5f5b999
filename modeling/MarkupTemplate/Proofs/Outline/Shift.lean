import MarkupTemplate.Proofs.Outline.TwoRuns

/-!
# Reading further down a template

A line that stands for itself is read in the same way wherever it stands. `State.below n front` is a
state with `n` lines and the nodes `front` in front of it. Places `n` lines apart are parallel and
layouts with nodes in front stay so, so a step from such a state is a step from the state itself,
moved in the same way (`step_below`), and so is a whole run (`foldlM_below`).
-/

namespace MarkupTemplate

/-! ## Places and faults -/

def Spot.below (n : Nat) (s : Spot) : Spot :=
  { s with number := s.number + n }

def Fault.below (n : Nat) (f : Fault) : Fault :=
  { f with spot := f.spot.below n }

/-- A result `n` lines further down, where `f` moves what was found. -/
def Fault.moved {α : Type} (n : Nat) (f : α → α) : Except Fault α → Except Fault α
  | .ok a => .ok (f a)
  | .error fault => .error (fault.below n)

theorem Spot.parallel_below (n : Nat) : Spot.Parallel fun s s' => s' = s.below n where
  rest_eq := by
    rintro s _ rfl
    rfl
  advance := by
    rintro s _ rfl k
    rfl

theorem Fault.Parallel.eq_moved {α : Type} {n : Nat} {f : α → α} {x x' : Except Fault α}
    (parallel : Fault.Parallel (fun s s' => s' = s.below n) (fun a a' => a' = f a) x x') :
    x' = Fault.moved n f x := by
  cases parallel with
  | ok here => rw [here, moved]
  | error cause here => rw [here, moved, below]

namespace Layout

/-! ## Nodes in front of a layout -/

/-- The open containers with nodes in front of the children of the outermost one. -/
def underLevels (front : List Node) : List Level → List Level
  | [] => []
  | [v] => [{ v with before := front ++ v.before }]
  | v :: levels => v :: underLevels front levels

/-- A layout with nodes in front of the children of the outermost container. -/
def under (front : List Node) (l : Layout) : Layout :=
  match l.outer with
  | [] => { l with inner := front ++ l.inner }
  | v :: levels => { l with outer := underLevels front (v :: levels) }

theorem length_underLevels (front : List Node) (levels : List Level) :
    (underLevels front levels).length = levels.length := by
  induction levels with
  | nil => rfl
  | cons v levels ih =>
    cases levels with
    | nil => rfl
    | cons w levels => simpa [underLevels] using ih

variable (front : List Node) (l : Layout)

@[simp] theorem widths_under : (l.under front).widths = l.widths := by
  unfold under
  split <;> rfl

@[simp] theorem width_under : (l.under front).width = l.width := by
  rw [width, widths_under]
  rfl

@[simp] theorem expecting_under : (l.under front).expecting = l.expecting := by
  unfold under
  split
  next empty => rfl
  next v levels more =>
    simp only [expecting, length_underLevels, more]

theorem append_under (nodes : List Node) :
    (l.under front).append nodes = (l.append nodes).under front := by
  obtain ⟨widths, inner, outer⟩ := l
  cases outer with
  | nil => simp [append, under]
  | cons v levels => rfl

theorem push_under (opener : Opener) (start after : List Node) :
    (l.under front).push opener start after = (l.push opener start after).under front := by
  obtain ⟨widths, inner, outer⟩ := l
  cases outer with
  | nil | cons v levels => rfl

theorem close_under : (l.under front).close = l.close.under front := by
  obtain ⟨widths, inner, outer⟩ := l
  cases outer with
  | nil => rfl
  | cons v levels =>
    cases levels with
    | nil => simp [close, under, underLevels, Level.close]
    | cons w levels => rfl

theorem withWidths_under (widths : List Nat) :
    { l.under front with widths := widths } = { l with widths := widths }.under front := by
  obtain ⟨_, inner, outer⟩ := l
  cases outer with
  | nil | cons v levels => rfl

theorem steady_under : Steady fun l l' => l' = l.under front where
  width_eq := by
    rintro l _ rfl
    exact (width_under front l).symm
  append := by
    rintro l _ rfl nodes
    exact append_under front l nodes
  push := by
    rintro l _ rfl opener start after
    exact push_under front l opener start after
  enter := by
    rintro l _ rfl
    refine enter_related (R := fun l l' => l' = l.under front) ?_ ?_ ?_ ?_ rfl
    · rintro l _ rfl
      exact (widths_under front l).symm
    · rintro l _ rfl
      exact (expecting_under front l).symm
    · rintro l _ rfl
      exact close_under front l
    · rintro l _ rfl widths
      exact withWidths_under front l widths

def children : List Node :=
  l.outer.foldl (fun children v => v.close children) l.inner

theorem foldl_close_underLevels (levels : List Level) (more : levels ≠ []) (inner : List Node) :
    (underLevels front levels).foldl (fun children v => v.close children) inner =
      front ++ levels.foldl (fun children v => v.close children) inner := by
  induction levels generalizing inner with
  | nil => exact absurd rfl more
  | cons v levels ih =>
    cases levels with
    | nil => simp [underLevels, Level.close]
    | cons w levels =>
      rw [underLevels, List.foldl_cons, ih (by simp)]
      · rfl
      · simp

@[simp] theorem children_under : (l.under front).children = front ++ l.children := by
  obtain ⟨widths, inner, outer⟩ := l
  cases outer with
  | nil => rfl
  | cons v levels => exact foldl_close_underLevels front (v :: levels) (by simp) inner

end Layout

namespace Outline

/-! ## States -/

/-- Something unfinished that was begun `n` lines further down. -/
def Pending.below (n : Nat) : Pending → Pending
  | .attributes form entries left name extraLines =>
    .attributes form entries (left.below n) name extraLines
  | p => p

/-- A state with `n` lines and some nodes in front. -/
def State.below (n : Nat) (front : List Node) (s : State) : State where
  number := s.number + n
  layout := s.layout.under front
  pending := s.pending.below n

section Below

variable (n : Nat) (front : List Node)

theorem State.parallel_below (s : State) :
    State.Parallel (fun s s' => s' = s.below n) (fun l l' => l' = l.under front) s.number
      (s.number + n) s (s.below n front) := by
  refine ⟨rfl, rfl, rfl, ?_⟩
  obtain ⟨number, layout, pending⟩ := s
  cases pending with
  | nothing | silent | text | code => constructor
  | attributes => exact .attributes _ _ _ _ rfl

variable {n front}

theorem State.Parallel.eq_below {number number' : Nat} {s s' : State} (below : number' = number + n)
    (states : State.Parallel (fun s s' => s' = s.below n)
      (fun l l' => l' = l.under front) number number' s s') :
    s' = s.below n front := by
  obtain ⟨_, l, pending⟩ := s
  obtain ⟨_, l', pending'⟩ := s'
  obtain ⟨rfl, rfl, rfl, pendings⟩ := states
  cases pendings with
  | nothing | silent | text | code => exact congrArg (State.mk · _ _) below
  | attributes _ _ _ _ here =>
    subst here
    exact congrArg (State.mk · _ _) below

variable (n front)

theorem dispatch_below (o : Options) (s : State) (spot : Spot) :
    dispatch o (s.below n front) (spot.below n) =
      Fault.moved n (State.below n front) (dispatch o s spot) :=
  ((dispatch_parallel (Spot.parallel_below n) rfl (Layout.steady_under front)
    (s.parallel_below n front) o).mono
    fun _ _ => State.Parallel.eq_below rfl).eq_moved

/-! ## Steps -/

theorem step_below (o : Options) (s : State) (line : Text) :
    step o (s.below n front) line = Fault.moved n (State.below n front) (step o s line) := by
  -- The number of the line, counted after what is in front or before.
  have counted : s.number + n + 1 = s.number + 1 + n := Nat.add_right_comm s.number n 1
  have start : (Spot.start (s.number + n + 1) line).skipBlanks =
    (Spot.start (s.number + 1) line).skipBlanks.below n :=
    counted ▸ rfl
  exact ((step_parallel (Spot.parallel_below n) (Layout.steady_under front) rfl
    (s.parallel_below n front) start).mono
    fun _ _ => State.Parallel.eq_below counted).eq_moved

theorem foldlM_below (o : Options) (s : State) (lines : List Text) :
    lines.foldlM (step o) (s.below n front) =
      Fault.moved n (State.below n front) (lines.foldlM (step o) s) := by
  induction lines generalizing s with
  | nil => rfl
  | cons line lines ih =>
    rw [List.foldlM_cons, List.foldlM_cons, step_below]
    cases step o s line with
    | error fault => rfl
    | ok s' => exact ih s'

theorem finishText_below (s : State) (block : TextBlock) (use : TextUse) :
    (s.below n front).finishText block use = (s.finishText block use).below n front := by
  have both := (s.parallel_below n front).finishText (Layout.steady_under front) block use
  exact both.eq_below rfl

end Below

end Outline

end MarkupTemplate
