import Mathlib.Data.List.Basic
import Mathlib.Algebra.BigOperators.Group.List.Basic
import Mathlib.Algebra.GroupWithZero.Nat
import MarkupTemplate.Embedded.Engine
import MarkupTemplate.Proofs.Node.Walk
import MarkupTemplate.Proofs.Text.Closed

/-!
# The lines a tree takes up

A tree takes up a line for each line mark and for each line feed inside its codes. `extent feed`
counts a line feed `feed` times: `extent 0` is the number of line marks, and `extent 1` is how far
the line of the template moves on when statements are written for the tree.
-/

namespace MarkupTemplate

open List

/-! ## Line feeds in codes -/

namespace Interpolation

/-- The line feeds in a code. -/
def Segment.feeds : Segment → Nat
  | .literal _ => 0
  | .code text => text.count '\n'

/-- The line feeds in the codes of an interpolated text. -/
def feeds (text : Text) : Nat :=
  (((segments? text).getD []).map Segment.feeds).sum

theorem feeds_consChar (c : Char) (segments : List Segment) :
    ((consChar c segments).map Segment.feeds).sum = (segments.map Segment.feeds).sum := by
  unfold consChar
  split
  next text rest => simp [Segment.feeds]
  next => simp [Segment.feeds]

theorem subset_of_expression? {depth : Nat} {t code rest : Text}
    (read : expression? depth t = some (code, rest)) : code ⊆ t ∧ rest ⊆ t := by
  have step : ∀ {c : Char} {t code rest : Text} {found? : Option (Text × Text)},
      (∀ code rest, found? = some (code, rest) → code ⊆ t ∧ rest ⊆ t) →
      found?.map (fun found => (c :: found.1, found.2)) = some (code, rest) →
      code ⊆ c :: t ∧ rest ⊆ c :: t := by
    intro c t code rest found? inner mapped
    cases found? with
    | none => cases mapped
    | some found =>
      cases mapped
      obtain ⟨inCode, inRest⟩ := inner _ _ rfl
      exact ⟨cons_subset_cons c inCode, subset_cons_of_subset c inRest⟩
  fun_induction expression? depth t generalizing code rest with
  | case1 => cases read
  | case2 depth t ih | case4 t _ _ ih | case5 depth c t _ _ ih =>
    exact step (fun _ _ found => ih found) read
  | case3 t =>
    cases read
    exact ⟨nil_subset _, subset_cons_self ..⟩

theorem feeds_map {found? : Option (List Segment)} {f : List Segment → List Segment}
    (kept : ∀ segments, ((f segments).map Segment.feeds).sum = (segments.map Segment.feeds).sum) :
    (((found?.map f).getD []).map Segment.feeds).sum =
      ((found?.getD []).map Segment.feeds).sum := by
  cases found? with
  | none => rfl
  | some segments => exact kept segments

theorem feeds_eq_zero {text : Text} (plain : '\n' ∉ text) : feeds text = 0 := by
  unfold feeds
  induction text using unclosed?.induct with
  | case1 => rw [segments?_nil]; rfl
  | case2 t ih =>
    rw [segments?_escape, feeds_map fun segments => by rw [feeds_consChar, feeds_consChar]]
    exact ih fun feed => plain (by simp [feed])
  | case3 t ih =>
    rw [segments?_double, feeds_map fun segments => feeds_consChar _ segments]
    exact ih fun feed => plain (by simp [feed])
  | case4 t unclosed => rw [segments?_code, unclosed]; rfl
  | case5 t code rest closed ih =>
    obtain ⟨inCode, inRest⟩ := subset_of_expression? closed
    have zero : code.count '\n' = 0 :=
      count_eq_zero_of_not_mem fun feed => plain (by simp [inCode feed])
    rw [segments?_code, closed]
    simp only
    rw [feeds_map fun segments => by simp [Segment.feeds, zero]]
    exact ih fun feed => plain (by simp [inRest feed])
  | case6 c t noEscape noDouble noCode ih =>
    rw [segments?_char noEscape noDouble noCode, feeds_map fun segments =>
      feeds_consChar _ segments]
    exact ih fun feed => plain (.tail _ feed)

/-- Line feeds and spaces in front of a text stand for themselves. -/
theorem feeds_append {front : Text} (margin : ∀ c ∈ front, c = '\n' ∨ c = ' ') (text : Text) :
    feeds (front ++ text) = feeds text := by
  induction front with
  | nil => rfl
  | cons c front ih =>
    have own : c ≠ '\\' ∧ c ≠ '#' := by
      rcases margin c (.head _) with rfl | rfl
      · decide
      · decide
    rw [← ih fun d mem => margin d (.tail _ mem), cons_append, feeds,
      segments?_cons own.1 own.2, feeds_map fun segments => feeds_consChar _ segments]
    rfl

/-- The braces around a code that is put out without escaping are on lines of its own code. -/
theorem count_unescaped? {text inside : Text} (found : unescaped? text = some inside) :
    inside.count '\n' = text.count '\n' := by
  unfold unescaped? at found
  split at found
  next t =>
    split at found
    next closed =>
      cases found
      have last : t.dropLast ++ ['\x7d'] = t := by
        simp only [Text.endsWith, beq_iff_eq] at closed
        rw [dropLast_append_getLast? _ closed]
      rw [count_cons_of_ne (by decide)]
      nth_rewrite 2 [← last]
      rw [count_append]
      rfl
    next => nomatch found
  next => nomatch found

end Interpolation

/-! ## Extents -/

def Leaf.extent (feed : Nat) : Leaf → Nat
  | .newline => 1
  | .dynamic source | .code source | .value _ source => feed * source.count '\n'
  | .interpolate text => feed * Interpolation.feeds text
  | .unknown | .static _ | .doctype _ | .trim _ => 0

def Frame.extent (feed : Nat) : Frame → Nat
  | .control source | .output _ source => feed * source.count '\n'
  | _ => 0

namespace Node

mutual

def extent (feed : Nat) : Node → Nat
  | .leaf l => l.extent feed
  | .frame f inner => f.extent feed + extent feed inner
  | .group _ children => extentOf feed children
  | .tag _ entries none => extentOf feed entries
  | .tag _ entries (some body) => extentOf feed entries + extent feed body

def extentOf (feed : Nat) : List Node → Nat
  | [] => 0
  | n :: ns => extent feed n + extentOf feed ns

end

variable (feed : Nat)

@[simp] theorem extent_leaf (l : Leaf) : extent feed (.leaf l) = l.extent feed :=
  rfl

@[simp] theorem extent_frame (f : Frame) (inner : Node) :
    extent feed (.frame f inner) = f.extent feed + extent feed inner :=
  rfl

@[simp] theorem extent_group (g : Group) (children : List Node) :
    extent feed (.group g children) = extentOf feed children :=
  rfl

@[simp] theorem extent_closed (name : Text) (entries : List Node) :
    extent feed (.tag name entries none) = extentOf feed entries :=
  rfl

@[simp] theorem extent_tag (name : Text) (entries : List Node) (body : Node) :
    extent feed (.tag name entries (some body)) = extentOf feed entries + extent feed body :=
  rfl

@[simp] theorem extentOf_nil : extentOf feed [] = 0 :=
  rfl

@[simp] theorem extentOf_cons (n : Node) (ns : List Node) :
    extentOf feed (n :: ns) = extent feed n + extentOf feed ns :=
  rfl

@[simp] theorem extentOf_append (ns ms : List Node) :
    extentOf feed (ns ++ ms) = extentOf feed ns + extentOf feed ms := by
  induction ns with
  | nil => simp
  | cons n ns ih => simp [ih, Nat.add_assoc]

@[simp] theorem extentOf_replicate (k : Nat) : extentOf feed (List.replicate k .newline) = k := by
  induction k with
  | zero => simp
  | succ k ih => simp [replicate_succ, ih, Leaf.extent, Nat.add_comm]

theorem extentOf_eq_zero {ns : List Node} (each : ∀ n ∈ ns, extent feed n = 0) :
    extentOf feed ns = 0 := by
  induction ns with
  | nil => simp
  | cons n ns ih =>
    simp [each n (.head _), ih fun m mem => each m (.tail _ mem)]

theorem extentOf_zero {ns : List Node} (each : ∀ n ∈ ns, extent 0 n = n.marks) :
    extentOf 0 ns = marksOf ns := by
  induction ns with
  | nil => simp [marksOf]
  | cons n ns ih =>
    rw [extentOf_cons, marksOf, each n (.head _),
      ih fun m mem => each m (.tail _ mem)]

/-- Without line feeds a tree takes up a line for each line mark. -/
theorem extent_zero (n : Node) : extent 0 n = n.marks := by
  induction n using Node.induction with
  | leaf l =>
    cases l with
    | _ => simp [Leaf.extent, marks]
  | frame f inner ih =>
    cases f with
    | _ => simp [Frame.extent, marks, ih]
  | group g children ih => rw [extent_group, marks, extentOf_zero ih]
  | closed name entries ih => rw [extent_closed, marks, extentOf_zero ih]
  | tag name entries body ihEntries ihBody =>
    rw [extent_tag, marks, extentOf_zero ihEntries, ihBody]

end Node

end MarkupTemplate
