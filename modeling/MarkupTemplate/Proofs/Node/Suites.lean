import MarkupTemplate.Node.Flat
import MarkupTemplate.Proofs.Node.Differ
import MarkupTemplate.Proofs.Outline.Shape

/-!
# Blocks and the statements they belong to

A block of a tree holds the indented statements below the statement right in front of it in a
sequence. `Attached` says that every block stands there. `items` reads such a tree: what it puts out
and does, in order, with each block below its statement, whatever sequences, line marks and joined
texts it is made of. An item with others below it is found in the tree again, as a statement with a
block right behind it (`hasSuite_of_inside`).
-/

namespace MarkupTemplate

open List

/-! ## Items -/

/-- Something that a program does for a tree. -/
inductive Item where
  | char (c : Char)
  | output (source : Text)
  | statement (source : Text)
  | suite (header : Text) (body : List Item)
  | kept (name : Text) (body : List Item)

/-- A text is put out character by character. -/
def Item.ofText (text : Text) : List Item :=
  text.map .char

/-- An item stands among others or below one of them. -/
inductive Item.Inside (i : Item) : List Item → Prop where
  | here {is : List Item} : i ∈ is → Inside i is
  | suite {header : Text} {body is : List Item} :
    .suite header body ∈ is → Inside i body → Inside i is
  | kept {name : Text} {body is : List Item} : .kept name body ∈ is → Inside i body → Inside i is

variable {is js : List Item}

theorem Item.Inside.mono {i : Item} (inside : Inside i is) (sub : is ⊆ js) : Inside i js := by
  cases inside with
  | here mem => exact .here (sub mem)
  | suite mem below => exact .suite (sub mem) below
  | kept mem below => exact .kept (sub mem) below

theorem Item.Inside.of_append {i : Item} (inside : Inside i (is ++ js)) :
    Inside i is ∨ Inside i js := by
  cases inside with
  | here mem => exact (mem_append.mp mem).imp .here .here
  | suite mem below => exact (mem_append.mp mem).imp (.suite · below) (.suite · below)
  | kept mem below => exact (mem_append.mp mem).imp (.kept · below) (.kept · below)

namespace Node

def isBlock : Node → Bool
  | .frame .block _ => true
  | _ => false

mutual

/-- The items of a tree of core nodes. -/
def items : Node → List Item
  | .leaf (.static text) => Item.ofText text
  | .leaf (.dynamic source) => [.output source]
  | .leaf (.code source) => [.statement source]
  | .leaf _ => []
  | .frame (.capture name) body => [.kept name (items body)]
  | .frame _ inner => items inner
  | .group _ children => itemsOf children
  | .tag _ _ _ => []

/-- The items of several trees, where a block right behind a statement belongs to it. -/
def itemsOf : List Node → List Item
  | [] => []
  | .leaf (.code header) :: .frame .block body :: ns => .suite header (items body) :: itemsOf ns
  | n :: ns => items n ++ itemsOf ns

end

/-- Whether every block among several nodes stands right behind a statement that ends in a colon. -/
def chained : List Node → Bool
  | [] => true
  | .leaf (.code header) :: .frame .block _ :: ns => Text.endsWith ':' header && chained ns
  | n :: ns => !n.isBlock && chained ns

theorem exists_of_isBlock {n : Node} (block : n.isBlock) : ∃ body, n = .block body := by
  unfold isBlock at block
  split at block
  next body => exact ⟨body, rfl⟩
  next => nomatch block

theorem chained_block (body : Node) (ns : List Node) : chained (.block body :: ns) = false := rfl

variable {ns after : List Node} {list : List Node → Prop} {d : Context}

theorem chained_cons {n : Node} (other : n.isBlock = false) (chain : chained ns) :
    chained (n :: ns) := by
  rw [chained]
  · simp [other, chain]
  · rintro header body ns' rfl rfl
    rw [chained_block] at chain
    nomatch chain

theorem chained_of_forall (each : ∀ n ∈ ns, n.isBlock = false) : chained ns := by
  induction ns with
  | nil => rfl
  | cons n ns ih =>
    rw [forall_mem_cons] at each
    exact chained_cons each.1 (ih each.2)

theorem chained_cases {n : Node} (chain : chained (n :: ns)) :
    (∃ header body rest, n = .code header ∧ ns = .block body :: rest ∧ Text.endsWith ':' header ∧
      chained rest) ∨ (n.isBlock = false ∧ chained ns) := by
  unfold chained at chain
  split at chain
  next => contradiction
  next header body rest same =>
    cases same
    rw [Bool.and_eq_true] at chain
    exact .inl ⟨header, body, rest, rfl, rfl, chain.1, chain.2⟩
  next same =>
    cases same
    rw [Bool.and_eq_true, Bool.not_eq_true'] at chain
    exact .inr chain

theorem chained_append : ∀ {ns ms : List Node}, chained ns → chained ms → chained (ns ++ ms)
  | [], _, _, rest => rest
  | n :: ns, ms, first, rest => by
    rcases chained_cases first with ⟨header, body, ns, rfl, rfl, ends, first⟩ | ⟨other, first⟩
    · rw [cons_append, cons_append, chained, ends, chained_append first rest]
      rfl
    · exact chained_cons other (chained_append first rest)

theorem exists_of_chained {body : Node} : ∀ {before : List Node},
    chained (before ++ .block body :: after) →
      ∃ front header, before = front ++ [.code header] ∧ Text.endsWith ':' header
  | [], chain => nomatch chain
  | n :: before, chain => by
    rcases chained_cases chain with ⟨header, inner, rest, rfl, same, ends, chain⟩ | ⟨_, chain⟩
    · cases before with
      | nil => exact ⟨[], header, rfl, ends⟩
      | cons m before =>
        cases same
        obtain ⟨front, header', rfl, ends⟩ := exists_of_chained chain
        exact ⟨.code header :: .block inner :: front, header', rfl, ends⟩
    · obtain ⟨front, header, rfl, ends⟩ := exists_of_chained chain
      exact ⟨n :: front, header, rfl, ends⟩

/-! ## Attached blocks -/

/-- A tree in which every block belongs to the statement in front of it, perhaps with embedded
blocks. What attribute lists hold is a parameter, as merging changes it. -/
inductive Attached (blocks : Bool) (list : List Node → Prop) : Node → Prop where
  | leaf {l : Leaf} : l ≠ .unknown → Attached blocks list (.leaf l)
  | frame {f : Frame} {inner : Node} : (∀ name, f ≠ .embedded name) → inner.isBlock = false →
    Attached blocks list inner → Attached blocks list (.frame f inner)
  | embedded {name : Text} {nodes : List Node} :
    blocks → (∀ n ∈ nodes, Outline.IsTextNode n) →
    Attached blocks list (.embedded name (.seq nodes))
  | seq {children : List Node} : chained children → (∀ n ∈ children, Attached blocks list n) →
    Attached blocks list (.seq children)
  | closed {name : Text} {entries : List Node} :
    list entries → Attached blocks list (.tag name entries none)
  | tag {name : Text} {entries : List Node} {body : Node} : list entries → body.isBlock = false →
    Attached blocks list body → Attached blocks list (.tag name entries (some body))

namespace Context

def comp : Context → Context → Context
  | .here, d => d
  | .frame f inner, d => .frame f (inner.comp d)
  | .seq before inner after, d => .seq before (inner.comp d) after
  | .tag name entries body, d => .tag name entries (body.comp d)

theorem fill_comp (c d : Context) (n : Node) : (c.comp d).fill n = c.fill (d.fill n) := by
  induction c with
  | here => rfl
  | frame f inner ih | seq before inner after ih | tag name entries body ih =>
    rw [comp, fill, fill, ih]

def blocks : Context → Nat
  | .here => 0
  | .frame .block inner => inner.blocks + 1
  | .frame _ inner => inner.blocks
  | .seq _ inner _ => inner.blocks
  | .tag _ _ body => body.blocks

theorem blocks_comp (c d : Context) : (c.comp d).blocks = c.blocks + d.blocks := by
  induction c with
  | here => exact (Nat.zero_add _).symm
  | frame f inner ih =>
    cases f with
    | block => rw [comp, blocks, blocks, ih, Nat.add_right_comm]
    | _ => exact ih
  | seq before inner after ih | tag name entries body ih => exact ih

end Context

theorem Attached.of_frame {f : Frame} {inner : Node}
    (attached : Attached false list (.frame f inner)) :
    inner.isBlock = false ∧ Attached false list inner := by
  generalize whole : Node.frame f inner = n at attached
  cases attached with
  | frame _ nested attached =>
    cases whole
    exact ⟨nested, attached⟩
  | embedded blocks => cases blocks
  | _ => cases whole

theorem IsCore.of_fill {n : Node} (core : IsCore (d.fill n)) : IsCore n := by
  induction d with
  | here => exact core
  | frame f d ih =>
    cases core with
    | block inside | capture _ inside => exact ih inside
  | seq before d after ih =>
    cases core with
    | seq each => exact ih (each _ (by simp))
  | tag => nomatch core

theorem Attached.of_fill {n : Node} (attached : Attached false list (d.fill n)) :
    Attached false list n := by
  induction d with
  | here => exact attached
  | frame f d ih => exact ih attached.of_frame.2
  | seq before d after ih =>
    cases attached with
    | seq _ each => exact ih (each _ (by simp))
  | tag name entries d ih =>
    cases attached with
    | tag _ _ inside => exact ih inside

theorem Attached.of_suite {before : List Node} {header : Text} {body : Node}
    (attached : Attached false list
      (d.fill (.seq (before ++ .code header :: .block body :: after))))
    (core : IsCore (d.fill (.seq (before ++ .code header :: .block body :: after)))) :
    IsCore body ∧ Attached false list body ∧ body.isBlock = false := by
  have block : IsCore (.block body) ∧ Attached false list (.block body) := by
    cases core.of_fill with
    | seq cores =>
      cases attached.of_fill with
      | seq _ each => exact ⟨cores _ (by simp), each _ (by simp)⟩
  obtain ⟨nested, attached⟩ := block.2.of_frame
  cases block.1 with
  | block core => exact ⟨core, attached, nested⟩

/-- Every block of a tree is right behind a statement that ends in a colon, in a sequence. -/
theorem Attached.block_place {c : Context} {body : Node}
    (attached : Attached false list (c.fill (.block body))) :
    c = .here ∨ ∃ (d : Context) (before : List Node) (header : Text) (after : List Node),
      c = d.comp (.seq (before ++ [.code header]) .here after) ∧ Text.endsWith ':' header := by
  induction c with
  | here => exact .inl rfl
  | frame f inner ih =>
    obtain ⟨nested, attached⟩ := attached.of_frame
    rcases ih attached with rfl | ⟨d, before, header, after, rfl, ends⟩
    · nomatch nested
    · exact .inr ⟨.frame f d, before, header, after, rfl, ends⟩
  | seq front inner back ih =>
    cases attached with
    | seq chain each =>
      rcases ih (each _ (by simp)) with rfl | ⟨d, before, header, after, rfl, ends⟩
      · obtain ⟨before, header, rfl, ends⟩ := exists_of_chained chain
        exact .inr ⟨.here, before, header, back, rfl, ends⟩
      · exact .inr ⟨.seq front d back, before, header, after, rfl, ends⟩
  | tag name entries inner ih =>
    cases attached with
    | tag _ nested attached =>
      rcases ih attached with rfl | ⟨d, before, header, after, rfl, ends⟩
      · nomatch nested
      · exact .inr ⟨.tag name entries d, before, header, after, rfl, ends⟩

/-! ## Items and places -/

theorem itemsOf_cons (n : Node) (chain : chained ns) :
    itemsOf (n :: ns) = n.items ++ itemsOf ns := by
  rw [itemsOf]
  rintro header body ns' rfl rfl
  nomatch chain

theorem itemsOf_suite (header : Text) (body : Node) (ns : List Node) :
    itemsOf (.code header :: .block body :: ns) = .suite header body.items :: itemsOf ns := rfl

/-- A statement with a block right behind it stands somewhere in a tree. -/
def HasSuite (n : Node) (header : Text) (body : Node) : Prop :=
  ∃ (d : Context) (before after : List Node),
    n = d.fill (.seq (before ++ .code header :: .block body :: after))

section HasSuite

variable {header : Text} {body n : Node}

theorem HasSuite.frame (f : Frame) (has : n.HasSuite header body) :
    HasSuite (.frame f n) header body := by
  obtain ⟨d, before, after, rfl⟩ := has
  exact ⟨.frame f d, before, after, rfl⟩

theorem HasSuite.child (ns : List Node) (has : n.HasSuite header body) :
    HasSuite (.seq (n :: ns)) header body := by
  obtain ⟨d, before, after, rfl⟩ := has
  exact ⟨.seq [] d ns, before, after, rfl⟩

theorem HasSuite.cons (n : Node) {ns : List Node} (has : HasSuite (.seq ns) header body) :
    HasSuite (.seq (n :: ns)) header body := by
  obtain ⟨d, before, after, same⟩ := has
  cases d with
  | here =>
    cases same
    exact ⟨.here, n :: before, after, rfl⟩
  | seq front inner back =>
    cases same
    exact ⟨.seq (n :: front) inner back, before, after, rfl⟩
  | frame | tag => nomatch same

variable {js : List Item}

theorem not_inside_leaf {l : Leaf} : ¬Item.Inside (.suite header js) (items (.leaf l)) := by
  have plain : ∀ i ∈ items (.leaf l), ∀ text is, i ≠ .suite text is ∧ i ≠ .kept text is := by
    cases l with
    | _ => simp [items, Item.ofText]
  intro inside
  cases inside with
  | here mem | suite mem => exact (plain _ mem _ _).1 rfl
  | kept mem => exact (plain _ mem _ _).2 rfl

theorem hasSuite_of_inside_itemsOf : ∀ {ns : List Node}, chained ns →
    (∀ n ∈ ns, Item.Inside (.suite header js) n.items → ∃ body, js = body.items ∧
      n.HasSuite header body) →
    Item.Inside (.suite header js) (itemsOf ns) → ∃ body, js = body.items ∧
    HasSuite (.seq ns) header body
  | [], _, _, inside => by
    cases inside with
    | here mem | suite mem | kept mem => nomatch mem
  | n :: ns, chain, each, inside => by
    rcases chained_cases chain with ⟨header', block, rest, rfl, rfl, ends, chain⟩ | ⟨other, chain⟩
    · simp only [forall_mem_cons] at each
      rw [itemsOf_suite, ← singleton_append] at inside
      rcases inside.of_append with first | behind
      · cases first with
        | here mem =>
          cases mem_singleton.mp mem
          exact ⟨block, rfl, .here, [], rest, rfl⟩
        | suite mem below =>
          cases mem_singleton.mp mem
          obtain ⟨body, same, has⟩ := each.2.1 below
          exact ⟨body, same, .cons _ (has.child rest)⟩
        | kept mem => cases mem_singleton.mp mem
      · obtain ⟨body, same, has⟩ := hasSuite_of_inside_itemsOf chain each.2.2 behind
        exact ⟨body, same, .cons _ (.cons _ has)⟩
    · rw [forall_mem_cons] at each
      rw [itemsOf_cons n chain] at inside
      rcases inside.of_append with first | behind
      · obtain ⟨body, same, has⟩ := each.1 first
        exact ⟨body, same, has.child ns⟩
      · obtain ⟨body, same, has⟩ := hasSuite_of_inside_itemsOf chain each.2 behind
        exact ⟨body, same, .cons n has⟩

/-- A statement with others below it is a statement with a block right behind it. -/
theorem hasSuite_of_inside {list : List Node → Prop} (core : IsCore n)
    (attached : Attached false list n)
    (inside : Item.Inside (.suite header js) n.items) :
    ∃ body, js = body.items ∧ n.HasSuite header body := by
  induction core with
  | newline | static | dynamic | code => exact absurd inside not_inside_leaf
  | block _ ih =>
    obtain ⟨body, same, has⟩ := ih attached.of_frame.2 inside
    exact ⟨body, same, has.frame .block⟩
  | capture name _ ih =>
    cases inside with
    | here mem | suite mem => cases mem_singleton.mp mem
    | kept mem below =>
      cases mem_singleton.mp mem
      obtain ⟨body, same, has⟩ := ih attached.of_frame.2 below
      exact ⟨body, same, has.frame (.capture name)⟩
  | seq _ ih =>
    cases attached with
    | seq chain each =>
      exact hasSuite_of_inside_itemsOf chain (fun n mem inside => ih n mem (each n mem) inside)
        inside

end HasSuite

end Node

end MarkupTemplate
