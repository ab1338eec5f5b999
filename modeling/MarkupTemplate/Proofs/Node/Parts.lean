import MarkupTemplate.Node.Interpolated
import Mathlib.Data.List.Basic
import MarkupTemplate.Layout

/-!
# Parts of trees

What a template says is stated over the list of all nodes of its tree. `unmarked` deletes line marks
at every depth, so that trees can be compared by what they put out.
-/

namespace MarkupTemplate

namespace Node

mutual

def unmarked : Node → Node
  | .leaf l => .leaf l
  | .frame f inner => .frame f (unmarked inner)
  | .group g children => .group g (unmarkedAll children)
  | .tag name entries none => .tag name (unmarkedAll entries) none
  | .tag name entries (some body) => .tag name (unmarkedAll entries) (some (unmarked body))

def unmarkedAll : List Node → List Node
  | [] => []
  | .leaf .newline :: ns => unmarkedAll ns
  | n :: ns => unmarked n :: unmarkedAll ns

end

@[simp] theorem unmarkedAll_nil : unmarkedAll [] = [] := rfl

@[simp] theorem unmarkedAll_newline (ns : List Node) :
    unmarkedAll (.newline :: ns) = unmarkedAll ns := rfl

theorem unmarkedAll_cons {n : Node} (ink : n ≠ .newline) (ns : List Node) :
    unmarkedAll (n :: ns) = unmarked n :: unmarkedAll ns := by
  rw [unmarkedAll]
  exact ink

@[simp] theorem unmarkedAll_append (ns ms : List Node) :
    unmarkedAll (ns ++ ms) = unmarkedAll ns ++ unmarkedAll ms := by
  induction ns with
  | nil => rfl
  | cons n ns ih =>
    by_cases mark : n = .newline
    · rw [mark]
      exact ih
    · rw [List.cons_append, unmarkedAll_cons mark, unmarkedAll_cons mark, ih, List.cons_append]

end Node

/-! ## Open containers -/

theorem Opener.fill_ne_newline (opener : Opener) (children : List Node) :
    opener.fill children ≠ .newline := by
  cases opener with
  | plain | frame f inner | tag name entries => exact fun same => nomatch same

theorem Opener.unmarked_fill (opener : Opener) {children children' : List Node}
    (same : Node.unmarkedAll children = Node.unmarkedAll children') :
    (opener.fill children).unmarked = (opener.fill children').unmarked := by
  induction opener with
  | plain | tag name entries => simp only [fill, Node.unmarked, same]
  | frame f inner ih => simp only [fill, Node.unmarked, ih]

/-- Whether a part of a text is code between braces of its own, put out without escaping. -/
def Interpolation.Segment.isRaw : Segment → Bool
  | .literal _ => false
  | .code source => (unescaped? source).isSome

/-- Whether some code in a text is put out without escaping. -/
def Interpolation.hasRaw (t : Text) : Bool :=
  (segments? t).any fun segments => segments.any Segment.isRaw

namespace Node

mutual

/-- A node and all nodes inside it. -/
def parts : Node → List Node
  | .leaf l => [.leaf l]
  | .frame f inner => .frame f inner :: parts inner
  | .group g children => .group g children :: partsOf children
  | .tag name entries none => .tag name entries none :: partsOf entries
  | .tag name entries (some body) =>
    .tag name entries (some body) :: (partsOf entries ++ parts body)

def partsOf : List Node → List Node
  | [] => []
  | n :: ns => parts n ++ partsOf ns

end

theorem mem_parts_self (n : Node) : n ∈ n.parts := by
  cases n with
  | leaf l | frame f inner | group g children => simp [parts]
  | tag name entries body? =>
    cases body? with
    | none | some body => simp [parts]

theorem mem_partsOf {m : Node} {ns : List Node} : m ∈ partsOf ns ↔ ∃ n ∈ ns, m ∈ n.parts := by
  induction ns with
  | nil => simp [partsOf]
  | cons n ns ih => simp [partsOf, ih]

theorem filterMap_partsOf {α : Type} (f : Node → Option α) (ns : List Node) :
    (partsOf ns).filterMap f = ns.flatMap fun n => n.parts.filterMap f := by
  induction ns with
  | nil => rfl
  | cons n ns ih => rw [partsOf, List.filterMap_append, ih, List.flatMap_cons]

def isEmbedded : Node → Bool
  | .frame (.embedded _) _ => true
  | _ => false

def isRawOutput : Node → Bool
  | .frame (.output false _) _ => true
  | _ => false

/-- Whether a node is a text with code that is put out without escaping. -/
def isRawText : Node → Bool
  | .leaf (.interpolate t) => Interpolation.hasRaw t
  | _ => false

end Node

end MarkupTemplate
