import Mathlib.Data.Nat.Find
import Mathlib.Data.List.Basic
import MarkupTemplate.Layout

/-!
# Indentation and nesting

What a layout built from rows should be can be said without the stack of open containers:

* a row *fits* if it is indented deeper than the row in front, which opens a container, or if it is
  not and goes back to the indentation of an earlier row, with no shallower row in between;
* the *parent* of a row is the last row in front of it that is indented less.

Rows are numbered from one; number zero is the outermost container, with indentation zero. `replay`
accepts rows exactly if all of them fit, and then every node is a child of its parent's container,
in order. The layout after `m` rows is described as a whole (`reached`): the ancestors of row `m`
are open. A row that goes back walks up the ancestors of the row in front to its own indentation
(`closeDeeper_settled`).
-/

namespace MarkupTemplate.Layout

open List

/-! ## Rows -/

/-- What a row adds to the tree. -/
inductive Part where
  | node (n : Node)
  /-- A node around a container that is filled by the rows below. -/
  | block (opener : Opener)
deriving DecidableEq

def Part.opens : Part → Bool
  | .node _ => false
  | .block _ => true

/-- The node of a part whose container, if it has one, holds the given children. -/
def Part.fill : Part → List Node → Node
  | .node n, _ => n
  | .block opener, children => opener.fill children

/-- A line of a template as far as the layout is concerned. -/
structure Row where
  indent : Nat
  part : Part
deriving DecidableEq

def add (l : Layout) : Part → Layout
  | .node n => l.append [n]
  | .block opener => l.push opener [] []

def place (l : Layout) (r : Row) : Except Cause Layout :=
  match l.enter r.indent with
  | (some cause, _) => .error cause
  | (none, l') => .ok (l'.add r.part)

def replay (rows : List Row) : Except Cause Layout :=
  rows.foldlM place {}

/-! ## What rows mean -/

section Meaning

variable (rows : List Row)

def indentOf : Nat → Nat
  | 0 => 0
  | i + 1 => (rows[i]?).elim 0 (·.indent)

def partOf : Nat → Part
  | 0 => .node (.seq [])
  | i + 1 => (rows[i]?).elim (.node (.seq [])) (·.part)

def opensAt (i : Nat) : Bool :=
  (partOf rows i).opens

/-- Whether the indentation of a row suits the rows in front of it. -/
def Fits (i : Nat) : Prop :=
  (indentOf rows (i - 1) < indentOf rows i ∧ opensAt rows (i - 1)) ∨
    (indentOf rows i ≤ indentOf rows (i - 1) ∧
      ∃ j, j < i ∧ indentOf rows j = indentOf rows i ∧
        ∀ k, j < k → k < i → indentOf rows i ≤ indentOf rows k)

/-- Whether every row suits the rows in front of it. -/
def WellIndented : Prop :=
  ∀ i, 1 ≤ i → i ≤ rows.length → Fits rows i

/-- The last row in front of a row that is indented less, or zero. -/
def parentOf (i : Nat) : Nat :=
  Nat.findGreatest (fun j => 0 < j ∧ indentOf rows j < indentOf rows i) (i - 1)

/-- The nodes of the first `m` rows with the parent `j`, in order, each with its children. -/
def childrenUpTo (m j : Nat) : List Node :=
  ((range' (j + 1) (m - j)).filter fun i => parentOf rows i = j).attach.map fun ⟨i, _⟩ =>
    (partOf rows i).fill (childrenUpTo m i)
termination_by m - j
decreasing_by
  rename_i mem
  simp only [mem_filter, mem_range'_1] at mem
  omega

/-- The nodes of the rows that have the parent `j`, in order, each with its own children. -/
def childrenOf (j : Nat) : List Node :=
  childrenUpTo rows rows.length j

end Meaning

/-! ## Parents -/

section Parents

variable {rows : List Row}

theorem parentOf_zero : parentOf rows 0 = 0 := rfl

variable {i k p m : Nat}

theorem parentOf_lt (positive : 0 < i) : parentOf rows i < i := by
  have := Nat.findGreatest_le (P := fun j => 0 < j ∧ indentOf rows j < indentOf rows i) (i - 1)
  unfold parentOf
  omega

theorem parentOf_lt_of_inner (inner : parentOf rows i ≠ 0) : parentOf rows i < i := by
  rcases Nat.eq_zero_or_pos i with rfl | positive
  · exact absurd parentOf_zero inner
  · exact parentOf_lt positive

theorem indentOf_parentOf_lt (inner : parentOf rows i ≠ 0) :
    indentOf rows (parentOf rows i) < indentOf rows i :=
  (Nat.findGreatest_of_ne_zero rfl inner).2

/-- The rows between a row and its parent are not indented less than the row. -/
theorem indentOf_le_between (above : parentOf rows i < k) (below : k < i) :
    indentOf rows i ≤ indentOf rows k := by
  by_contra shallower
  exact Nat.findGreatest_is_greatest above (by omega) ⟨by omega, by omega⟩

/-- A row that is indented less, with no other such row after it, is the parent. -/
theorem parentOf_eq (before : p < i) (shallower : p ≠ 0 → indentOf rows p < indentOf rows i)
    (between : ∀ k, p < k → k < i → indentOf rows i ≤ indentOf rows k) : parentOf rows i = p := by
  rcases Nat.lt_trichotomy (parentOf rows i) p with less | equal | more
  · have := indentOf_le_between less before
    have := shallower (by omega)
    omega
  · exact equal
  · have : indentOf rows (parentOf rows i) < indentOf rows i := indentOf_parentOf_lt (by omega)
    have := between _ more (parentOf_lt (by omega))
    omega

theorem le_parentOf (before : p < i) (shallower : indentOf rows p < indentOf rows i) :
    p ≤ parentOf rows i := by
  by_contra less
  have : indentOf rows i ≤ indentOf rows p := indentOf_le_between (by omega) before
  omega

/-- The parent of a row, the parent of that, and so on, without the outermost container. -/
def ancestors (rows : List Row) (i : Nat) : List Nat :=
  if _inner : parentOf rows i = 0 then []
  else parentOf rows i :: ancestors rows (parentOf rows i)
termination_by i
decreasing_by
  exact parentOf_lt_of_inner _inner

theorem ancestors_of_outermost (outermost : parentOf rows i = 0) : ancestors rows i = [] := by
  rw [ancestors, dif_pos outermost]

theorem ancestors_of_inner (inner : parentOf rows i ≠ 0) :
    ancestors rows i = parentOf rows i :: ancestors rows (parentOf rows i) := by
  rw [ancestors, dif_neg inner]

theorem ancestors_congr (same : parentOf rows i = parentOf rows k) :
    ancestors rows i = ancestors rows k := by
  rw [ancestors, ancestors.eq_def rows k, same]

/-- Two rows of one indentation, with no shallower row in between, have the same parent. -/
theorem parentOf_eq_of_indentOf_eq {j : Nat} (before : j < i)
    (same : indentOf rows j = indentOf rows i)
    (between : ∀ k, j < k → k < i → indentOf rows i ≤ indentOf rows k) :
    parentOf rows i = parentOf rows j := by
  have parentLe : parentOf rows j ≤ j := by
    rcases Nat.eq_zero_or_pos j with rfl | positive
    · exact Nat.le_of_eq parentOf_zero
    · exact Nat.le_of_lt (parentOf_lt positive)
  refine parentOf_eq (by omega) ?_ ?_
  · intro inner
    rw [← same]
    exact indentOf_parentOf_lt inner
  · intro k above below
    rcases Nat.lt_trichotomy k j with less | rfl | more
    · rw [← same]
      exact indentOf_le_between above less
    · exact Nat.le_of_eq same.symm
    · exact between k more below

/-! ## Rows that fit -/

theorem pos_of_opensAt (opens : opensAt rows i) : 0 < i := by
  rcases Nat.eq_zero_or_pos i with rfl | positive
  · exact absurd opens (by simp [opensAt, partOf, Part.opens])
  · exact positive

/-- A row that fits is nested in an open container, or it is not indented. -/
theorem Fits.cases (fits : Fits rows i) :
    (parentOf rows i = i - 1 ∧ i - 1 ≠ 0 ∧ opensAt rows (i - 1)) ∨
      ∃ j, j < i ∧ indentOf rows j = indentOf rows i ∧ parentOf rows i = parentOf rows j := by
  rcases fits with ⟨deeper, opens⟩ | ⟨_, j, before, same, between⟩
  · have inner : i - 1 ≠ 0 := Nat.ne_of_gt (pos_of_opensAt opens)
    refine Or.inl ⟨parentOf_eq (by omega) (fun _ => deeper) ?_, inner, opens⟩
    intro k above below
    omega
  · exact Or.inr ⟨j, before, same, parentOf_eq_of_indentOf_eq before same between⟩

variable (fits : ∀ i, 1 ≤ i → i ≤ m → Fits rows i)

include fits

theorem indentOf_eq_zero (i : Nat) (le : i ≤ m) (outermost : parentOf rows i = 0) :
    indentOf rows i = 0 := by
  induction i using Nat.strong_induction_on with
  | _ i earlier =>
    rcases Nat.eq_zero_or_pos i with rfl | positive
    · rfl
    · rcases (fits i positive le).cases with ⟨parent, inner, _⟩ | ⟨j, before, same, parent⟩
      · exact absurd (parent ▸ outermost) inner
      · rw [← same]
        exact earlier j before (by omega) (parent ▸ outermost)

theorem opensAt_parentOf (i : Nat) (le : i ≤ m) (inner : parentOf rows i ≠ 0) :
    opensAt rows (parentOf rows i) := by
  induction i using Nat.strong_induction_on with
  | _ i earlier =>
    rcases Nat.eq_zero_or_pos i with rfl | positive
    · exact absurd parentOf_zero inner
    · rcases (fits i positive le).cases with ⟨parent, _, opens⟩ | ⟨j, before, _, parent⟩
      · rw [parent]
        exact opens
      · rw [parent] at inner ⊢
        exact earlier j before (by omega) inner

end Parents

/-! ## Children of the first rows -/

section Children

variable {rows : List Row}

theorem childrenUpTo_eq (m j : Nat) :
    childrenUpTo rows m j =
      ((range' (j + 1) (m - j)).filter fun i => parentOf rows i = j).map fun i =>
        (partOf rows i).fill (childrenUpTo rows m i) := by
  rw [childrenUpTo]
  exact attach_map_val (f := fun i => (partOf rows i).fill (childrenUpTo rows m i))

theorem childrenUpTo_self (m : Nat) : childrenUpTo rows m m = [] := by
  rw [childrenUpTo_eq]
  simp

/-- Rows that are added elsewhere leave the children of a row as they were. Every row after row `a`
has its parent after `a`, or up to `lo`, and the children are those of a row in between. -/
theorem childrenUpTo_of_elsewhere {a m lo : Nat} (le : a ≤ m)
    (elsewhere : ∀ i, a < i → i ≤ m → parentOf rows i ≤ lo ∨ a < parentOf rows i) (x : Nat)
    (above : lo < x) (below : x ≤ a) : childrenUpTo rows m x = childrenUpTo rows a x := by
  induction distance : a - x using Nat.strong_induction_on generalizing x with
  | _ n closer =>
    have split : range' (x + 1) (m - x) =
        range' (x + 1) (a - x) ++ range' (a + 1) (m - a) := by
      rw [show a + 1 = x + 1 + (a - x) by omega, range'_append_1]
      congr 1
      omega
    have empty : (range' (a + 1) (m - a)).filter (fun i => parentOf rows i = x) = [] := by
      rw [filter_eq_nil_iff]
      intro i mem
      rw [mem_range'_1] at mem
      have := elsewhere i (by omega) (by omega)
      simp only [decide_eq_true_eq]
      omega
    rw [childrenUpTo_eq, childrenUpTo_eq, split, filter_append, empty, append_nil]
    refine map_congr_left ?_
    intro i mem
    rw [mem_filter, mem_range'_1] at mem
    rw [closer (a - i) (by omega) i (by omega) (by omega) rfl]

/-- Where every later row is inside row `p`, this row is the last child of its parent. -/
theorem childrenUpTo_parentOf {m p : Nat} (positive : 0 < p) (le : p ≤ m)
    (inside : ∀ i, p < i → i ≤ m → p ≤ parentOf rows i) :
    childrenUpTo rows m (parentOf rows p) =
      childrenUpTo rows (p - 1) (parentOf rows p) ++
        [(partOf rows p).fill (childrenUpTo rows m p)] := by
  have parentLt : parentOf rows p < p := parentOf_lt positive
  generalize parent : parentOf rows p = q at parentLt
  have split : range' (q + 1) (m - q) =
      range' (q + 1) (p - 1 - q) ++ p :: range' (p + 1) (m - p) := by
    rw [← range'_succ, show range' p (m - p + 1) =
      range' (q + 1 + (p - 1 - q)) (m - p + 1) by congr 1; omega, range'_append_1]
    congr 1
    omega
  have empty : (range' (p + 1) (m - p)).filter (fun i => parentOf rows i = q) = [] := by
    rw [filter_eq_nil_iff]
    intro i mem
    rw [mem_range'_1] at mem
    have := inside i (by omega) (by omega)
    simp only [decide_eq_true_eq]
    omega
  rw [childrenUpTo_eq, childrenUpTo_eq (p - 1), split, filter_append,
    filter_cons_of_pos (by simpa using parent), empty, map_append, map_singleton]
  congr 1
  refine map_congr_left ?_
  intro i mem
  rw [mem_filter, mem_range'_1] at mem
  -- The earlier children lie between the parent and row `p`, and no later row joins them.
  rw [@childrenUpTo_of_elsewhere _ (p - 1) m q (by omega) ?_ i (by omega) (by omega)]
  intro k above below
  rcases Nat.eq_or_lt_of_le (show p ≤ k by omega) with rfl | later
  · exact Or.inl (Nat.le_of_eq parent)
  · have := inside k later below
    exact Or.inr (by omega)

end Children

/-! ## The layout after the first rows -/

section Reached

variable {rows : List Row}

def Part.opener : Part → Opener
  | .node _ => .plain
  | .block opener => opener

theorem Part.fill_of_opens {part : Part} (opens : part.opens) (children : List Node) :
    part.opener.fill children = part.fill children := by
  cases part with
  | node n => nomatch opens
  | block opener => rfl

variable (rows) in
/-- The container around the one that a row opens. -/
def levelOf (j : Nat) : Level :=
  ⟨childrenUpTo rows (j - 1) (parentOf rows j), (partOf rows j).opener, []⟩

variable (rows) in
/-- The indentations of a row and its ancestors, of which the outermost is not kept. -/
def widthsOf (i : Nat) : List Nat :=
  ((i :: ancestors rows i).dropLast).map (indentOf rows)

variable (rows) in
/-- The layout of the first `m` rows with the containers open that row `i` is in. -/
def settled (m i : Nat) : Layout where
  widths := widthsOf rows i
  inner := childrenUpTo rows m (parentOf rows i)
  outer := (ancestors rows i).map (levelOf rows)

variable (rows) in
/-- The layout of the first `m` rows: open are the containers of row `m`, and its own if any. -/
def reached (m : Nat) : Layout :=
  if opensAt rows m then
    { widths := widthsOf rows m, inner := [],
      outer := levelOf rows m :: (ancestors rows m).map (levelOf rows) }
  else settled rows m m

variable {i m : Nat}

theorem widthsOf_of_outermost (outermost : parentOf rows i = 0) : widthsOf rows i = [] := by
  rw [widthsOf, ancestors_of_outermost outermost]
  rfl

theorem widthsOf_of_inner (inner : parentOf rows i ≠ 0) :
    widthsOf rows i = indentOf rows i :: widthsOf rows (parentOf rows i) := by
  rw [widthsOf, ancestors_of_inner inner]
  rfl

theorem length_widthsOf (i : Nat) : (widthsOf rows i).length = (ancestors rows i).length := by
  simp [widthsOf]

theorem settled_congr {k : Nat} (indent : indentOf rows i = indentOf rows k)
    (parent : parentOf rows i = parentOf rows k) : settled rows m i = settled rows m k := by
  have widths : widthsOf rows i = widthsOf rows k := by
    rcases Nat.eq_zero_or_pos (parentOf rows k) with outermost | inner
    · rw [widthsOf_of_outermost outermost, widthsOf_of_outermost (parent ▸ outermost)]
    · rw [widthsOf_of_inner (i := i) (by omega), widthsOf_of_inner (i := k) (by omega), indent,
        parent]
  rw [settled, settled, widths, parent, ancestors_congr parent]

theorem expecting_reached (m : Nat) : (reached rows m).expecting = opensAt rows m := by
  unfold reached
  split
  next opens =>
    simp [expecting, length_widthsOf, opens]
  next closed =>
    simp [expecting, settled, length_widthsOf, closed]

theorem widths_reached (m : Nat) : (reached rows m).widths = widthsOf rows m := by
  unfold reached
  split <;> rfl

/-- A row that has found room adds its part as the last child of its parent. -/
theorem add_settled (m : Nat) :
    (settled rows m (m + 1)).add (partOf rows (m + 1)) = reached rows (m + 1) := by
  have children := @childrenUpTo_parentOf rows (m + 1) (m + 1) (by omega)
    le_rfl (by omega)
  rw [childrenUpTo_self, Nat.add_sub_cancel] at children
  unfold reached opensAt
  cases part : partOf rows (m + 1) with
  | node n =>
    rw [part] at children
    simp only [add, append, Part.opens, Bool.false_eq_true, ↓reduceIte, settled, children]
    rfl
  | block opener =>
    simp only [add, push, Part.opens, ↓reduceIte, settled, levelOf, part, Part.opener,
      Nat.add_sub_cancel]

/-! ## Closing containers -/

/-- The container of a row with all later rows inside is closed to the children of its parent. -/
theorem close_levelOf {p : Nat} (le : p ≤ m) (opens : opensAt rows p)
    (inside : ∀ k, p < k → k ≤ m → indentOf rows p < indentOf rows k) :
    (levelOf rows p).close (childrenUpTo rows m p) = childrenUpTo rows m (parentOf rows p) := by
  rw [childrenUpTo_parentOf (pos_of_opensAt opens) le fun k after last =>
    le_parentOf after (inside k after last)]
  rw [levelOf, Level.close, Part.fill_of_opens opens]

/-- Whether no row after row `i` is indented less. -/
def Visible (rows : List Row) (m i : Nat) : Prop :=
  ∀ k, i < k → k ≤ m → indentOf rows i ≤ indentOf rows k

/-- Between a row and its parent, and behind a visible row, all rows are inside the parent. -/
theorem Visible.inside (visible : Visible rows m i) (inner : parentOf rows i ≠ 0) :
    ∀ k, parentOf rows i < k → k ≤ m → indentOf rows (parentOf rows i) < indentOf rows k := by
  intro k after last
  have shallower := indentOf_parentOf_lt inner
  rcases Nat.lt_trichotomy k i with less | rfl | more
  · have := indentOf_le_between after less
    omega
  · exact shallower
  · have := visible k more last
    omega

theorem Visible.parentOf (visible : Visible rows m i) (inner : parentOf rows i ≠ 0) :
    Visible rows m (parentOf rows i) :=
  fun k after last => Nat.le_of_lt (visible.inside inner k after last)

variable (fits : ∀ i, 1 ≤ i → i ≤ m → Fits rows i)

include fits

theorem headD_widthsOf (le : i ≤ m) : (widthsOf rows i).headD 0 = indentOf rows i := by
  by_cases outermost : parentOf rows i = 0
  · rw [widthsOf_of_outermost outermost, indentOf_eq_zero fits i le outermost]
    rfl
  · rw [widthsOf_of_inner outermost]
    rfl

theorem width_reached : (reached rows m).width = indentOf rows m := by
  have head := headD_widthsOf fits (Nat.le_refl m)
  unfold reached
  split <;> exact head

/-- Closing what is deeper than `w` ends at a row that is not deeper, behind which all rows are. -/
theorem closeDeeper_settled {w : Nat} (i : Nat) (le : i ≤ m)
    (visible : Visible rows m i) (deeper : ∀ k, i < k → k ≤ m → w < indentOf rows k) {l : Layout}
    (inner : l.inner = (settled rows m i).inner) (outer : l.outer = (settled rows m i).outer) :
    ∃ t, t ≤ m ∧ closeDeeper w (widthsOf rows i) l = settled rows m t ∧ indentOf rows t ≤ w ∧
      ∀ k, t < k → k ≤ m → w < indentOf rows k := by
  induction i using Nat.strong_induction_on generalizing l with
  | _ i earlier =>
    by_cases outermost : parentOf rows i = 0
    · refine ⟨i, le, ?_, ?_, deeper⟩
      · rw [widthsOf_of_outermost outermost, closeDeeper, settled, widthsOf_of_outermost outermost,
          inner, outer]
        rfl
      · rw [indentOf_eq_zero fits i le outermost]
        exact Nat.zero_le w
    · have before := parentOf_lt_of_inner outermost
      rw [widthsOf_of_inner outermost, closeDeeper]
      split
      next close =>
        -- The block that row `i` is in ends, so the walk goes on at its parent.
        refine earlier (parentOf rows i) before (by omega) (visible.parentOf outermost) ?_ ?_ ?_
        · intro k after last
          rcases Nat.lt_trichotomy k i with less | rfl | more
          · have := indentOf_le_between after less
            omega
          · exact close
          · exact deeper k more last
        · rw [settled] at inner outer
          rw [ancestors_of_inner outermost, map_cons] at outer
          simp only [Layout.close, outer, inner]
          exact close_levelOf (by omega) (opensAt_parentOf fits i le outermost)
            (visible.inside outermost)
        · rw [settled, ancestors_of_inner outermost, map_cons] at outer
          simp only [Layout.close, outer]
          rfl
      next stay =>
        refine ⟨i, le, ?_, by omega, deeper⟩
        rw [settled, widthsOf_of_inner outermost, inner, outer]
        rfl

/-! ## One more row -/

/-- Closing what is deeper than `w`, after the block that the last row opened and left empty. -/
theorem closeDeeper_reached (w : Nat) : ∃ t, t ≤ m ∧
      closeDeeper w (reached rows m).widths
          (if (reached rows m).expecting then (reached rows m).close else reached rows m) =
        settled rows m t ∧
      indentOf rows t ≤ w ∧ ∀ k, t < k → k ≤ m → w < indentOf rows k := by
  rw [widths_reached, expecting_reached]
  refine closeDeeper_settled fits m (Nat.le_refl m) (fun k _ _ => by omega) (by omega) ?_ ?_
  · split
    next opens =>
      have closed := close_levelOf (Nat.le_refl m) opens (by omega)
      rw [childrenUpTo_self] at closed
      rw [reached, if_pos opens]
      exact closed
    next closed =>
      rw [reached, if_neg closed]
  · split
    next opens =>
      rw [reached, if_pos opens]
      rfl
    next closed =>
      rw [reached, if_neg closed]

theorem enter_of_fits (fit : Fits rows (m + 1)) :
    (reached rows m).enter (indentOf rows (m + 1)) = (none, settled rows m (m + 1)) := by
  rw [enter, width_reached fits]
  rcases fit with ⟨deeper, opens⟩ | ⟨shallower, j, before, same, between⟩
  · rw [Nat.add_sub_cancel] at deeper opens
    have parent : parentOf rows (m + 1) = m :=
      parentOf_eq (Nat.lt_succ_self m) (fun _ => deeper) (by omega)
    have inner : parentOf rows (m + 1) ≠ 0 := by
      rw [parent]
      exact Nat.ne_of_gt (pos_of_opensAt opens)
    rw [if_pos deeper, expecting_reached, if_pos opens, settled, widthsOf_of_inner inner,
      ancestors_of_inner inner, parent, childrenUpTo_self, reached, if_pos opens]
    rfl
  · rw [Nat.add_sub_cancel] at shallower
    rw [if_neg (by omega)]
    obtain ⟨t, le, closed, atMost, behind⟩ := closeDeeper_reached fits (indentOf rows (m + 1))
    -- Row `j` has the indentation that is looked for, so the walk ends there or later.
    have notBefore : j ≤ t := by
      by_contra less
      have := behind j (by omega) (by omega)
      omega
    have equal : indentOf rows t = indentOf rows (m + 1) := by
      rcases Nat.eq_or_lt_of_le notBefore with rfl | after
      · exact same
      · have := between t after (by omega)
        omega
    have found : settled rows m t = settled rows m (m + 1) := by
      refine settled_congr equal (parentOf_eq_of_indentOf_eq (by omega) equal ?_).symm
      intro k after last
      exact Nat.le_of_lt (behind k after (by omega))
    have width : (settled rows m t).width = indentOf rows (m + 1) :=
      (headD_widthsOf fits le).trans equal
    simp only [closed, width, ↓reduceIte]
    rw [found]

theorem enter_of_not_fits (misfit : ¬ Fits rows (m + 1)) :
    ∃ cause l, (reached rows m).enter (indentOf rows (m + 1)) = (some cause, l) := by
  rw [enter, width_reached fits]
  by_cases deeper : indentOf rows m < indentOf rows (m + 1)
  · have closed : ¬ opensAt rows m := fun opens => misfit (Or.inl ⟨deeper, opens⟩)
    rw [if_pos deeper, expecting_reached, if_neg closed]
    exact ⟨_, _, rfl⟩
  · rw [if_neg deeper]
    obtain ⟨t, le, closed, atMost, behind⟩ := closeDeeper_reached fits (indentOf rows (m + 1))
    have different : indentOf rows t ≠ indentOf rows (m + 1) := by
      intro equal
      refine misfit (Or.inr ⟨by rw [Nat.add_sub_cancel]; omega, t, by omega, equal, ?_⟩)
      intro k after last
      exact Nat.le_of_lt (behind k after (by omega))
    have width : (settled rows m t).width ≠ indentOf rows (m + 1) := by
      rw [show (settled rows m t).width = indentOf rows t from headD_widthsOf fits le]
      exact different
    simp only [closed, width, ↓reduceIte]
    exact ⟨_, _, rfl⟩

/-! ## All rows -/

/-- Closing everything that row `i` is in gives the children of the outermost container. -/
theorem foldl_close_ancestors (i : Nat) (le : i ≤ m)
    (visible : Visible rows m i) :
    ((ancestors rows i).map (levelOf rows)).foldl (fun children v => v.close children)
      (childrenUpTo rows m (parentOf rows i)) = childrenUpTo rows m 0 := by
  induction i using Nat.strong_induction_on with
  | _ i earlier =>
    by_cases outermost : parentOf rows i = 0
    · rw [ancestors_of_outermost outermost, outermost]
      rfl
    · have before := parentOf_lt_of_inner outermost
      rw [ancestors_of_inner outermost, map_cons, foldl_cons,
        close_levelOf (by omega) (opensAt_parentOf fits i le outermost)
          (visible.inside outermost)]
      exact earlier _ before (by omega) (visible.parentOf outermost)

theorem tree_reached : (reached rows m).tree = .seq (childrenUpTo rows m 0) := by
  have visible : Visible rows m m := fun k _ _ => by omega
  have outside := foldl_close_ancestors fits m (Nat.le_refl m) visible
  unfold reached
  split
  next opens =>
    have closed := close_levelOf (Nat.le_refl m) opens (by omega)
    rw [childrenUpTo_self] at closed
    rw [tree, foldl_cons, closed, outside]
  next closed =>
    rw [tree, settled, outside]

omit fits

theorem place_of_lt (lt : m < rows.length) (l : Layout) :
    l.place rows[m] = match l.enter (indentOf rows (m + 1)) with
      | (some cause, _) => .error cause
      | (none, l') => .ok (l'.add (partOf rows (m + 1))) := by
  simp [place, indentOf, partOf, lt]

/-- As long as the rows fit, the layout is the one that was described. -/
theorem foldlM_place (le : m ≤ rows.length) (fits : ∀ i, 1 ≤ i → i ≤ m → Fits rows i) :
    (rows.take m).foldlM place {} = .ok (reached rows m) := by
  induction m with
  | zero =>
    have empty : reached rows 0 = {} := by
      simp [reached, opensAt, partOf, Part.opens, settled, widthsOf_of_outermost parentOf_zero,
        ancestors_of_outermost parentOf_zero, parentOf_zero, childrenUpTo_self]
    rw [empty]
    rfl
  | succ m before =>
    have earlier : ∀ i, 1 ≤ i → i ≤ m → Fits rows i := fun i first last => fits i first (by omega)
    rw [take_succ_eq_append_getElem (by omega), foldlM_append, before (by omega) earlier]
    simp only [bind, Except.bind, foldlM_cons, foldlM_nil, place_of_lt,
      enter_of_fits earlier (fits (m + 1) (by omega) le_rfl), add_settled]
    rfl

/-- The first row that does not fit is refused, whatever follows. -/
theorem replay_of_not_fits (lt : m < rows.length) (fits : ∀ i, 1 ≤ i → i ≤ m → Fits rows i)
    (misfit : ¬ Fits rows (m + 1)) : ∃ cause, replay rows = .error cause := by
  obtain ⟨cause, l, refused⟩ := enter_of_not_fits fits misfit
  refine ⟨cause, ?_⟩
  rw [replay, ← take_append_drop m rows, foldlM_append,
    foldlM_place (Nat.le_of_lt lt) fits, drop_eq_getElem_cons lt]
  simp only [bind, Except.bind, foldlM_cons, place_of_lt, refused]

end Reached

/-- Rows are accepted exactly if every row fits, and then every node is, in the order of the rows, a
child of the container that its parent opened. -/
theorem replay_exact (rows : List Row) :
    ((∃ l, replay rows = .ok l) ↔ WellIndented rows) ∧
      ∀ l, replay rows = .ok l →
        l.tree = .seq (childrenOf rows 0) ∧
          ∀ i, 1 ≤ i → i ≤ rows.length → parentOf rows i ≠ 0 → opensAt rows (parentOf rows i) := by
  have accepted : WellIndented rows → replay rows = .ok (reached rows rows.length) := by
    intro fits
    have whole := foldlM_place le_rfl fits
    rw [take_length] at whole
    exact whole
  have fitting : ∀ l, replay rows = .ok l → WellIndented rows := by
    intro l ok i first last
    induction i using Nat.strong_induction_on with
    | _ i earlier =>
      by_contra misfit
      obtain ⟨cause, refused⟩ := replay_of_not_fits (m := i - 1) (by omega)
        (fun k first' last' => earlier k (by omega) first' (by omega))
        (by rwa [Nat.sub_add_cancel first])
      rw [refused] at ok
      nomatch ok
  refine ⟨⟨fun ⟨l, ok⟩ => fitting l ok, fun fits => ⟨_, accepted fits⟩⟩, ?_⟩
  intro l ok
  have fits := fitting l ok
  rw [accepted fits] at ok
  cases ok
  exact ⟨tree_reached fits, fun i _ last inner => opensAt_parentOf fits i last inner⟩

end MarkupTemplate.Layout
