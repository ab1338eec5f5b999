import MarkupTemplate.Proofs.Outline.Concat
import MarkupTemplate.Proofs.Outline.Shape

/-!
# Every line once

Reading a template loses no line and counts none twice. A line leaves a line mark in the tree, or it
goes on with a broken code and leaves a line feed in it. So the line marks and the line feeds in the
codes of control and output lines make up the lines of the template.
-/

namespace MarkupTemplate

open Node (extent extentOf)

/-! ## Codes of lines -/

namespace Node

/-- The line feeds in the code of a node that is a control or output line. -/
def lineFeeds : Node → Nat
  | .frame (.control source) _ | .frame (.output _ source) _ => source.count '\n'
  | _ => 0

/-- The line feeds in the codes of the control and output lines of a tree. -/
def codeFeeds (n : Node) : Nat :=
  (n.parts.map lineFeeds).sum

def codeFeedsOf (ns : List Node) : Nat :=
  ((partsOf ns).map lineFeeds).sum

@[simp] theorem codeFeeds_leaf (l : Leaf) : codeFeeds (.leaf l) = 0 := by
  simp [codeFeeds, parts, lineFeeds]

@[simp] theorem codeFeeds_frame (f : Frame) (inner : Node) :
    codeFeeds (.frame f inner) = f.extent 1 + codeFeeds inner := by
  cases f with
  | _ => simp [codeFeeds, parts, lineFeeds, Frame.extent]

@[simp] theorem codeFeeds_group (g : Group) (children : List Node) :
    codeFeeds (.group g children) = codeFeedsOf children := by
  simp [codeFeeds, codeFeedsOf, parts, lineFeeds]

@[simp] theorem codeFeeds_closed (name : Text) (entries : List Node) :
    codeFeeds (.tag name entries none) = codeFeedsOf entries := by
  simp [codeFeeds, codeFeedsOf, parts, lineFeeds]

@[simp] theorem codeFeeds_tag (name : Text) (entries : List Node) (body : Node) :
    codeFeeds (.tag name entries (some body)) = codeFeedsOf entries + codeFeeds body := by
  simp [codeFeeds, codeFeedsOf, parts, lineFeeds]

@[simp] theorem codeFeedsOf_nil : codeFeedsOf [] = 0 := rfl

@[simp] theorem codeFeedsOf_cons (n : Node) (ns : List Node) :
    codeFeedsOf (n :: ns) = codeFeeds n + codeFeedsOf ns := by
  simp [codeFeeds, codeFeedsOf, partsOf]

/-! ## Trees that account for their lines -/

/-- A tree whose line feeds are all in the codes of control and output lines. -/
def Accounts (n : Node) : Prop :=
  n.extent 1 = n.extent 0 + n.codeFeeds

theorem Accounts.all {ns : List Node} (each : ∀ n ∈ ns, Accounts n) :
    extentOf 1 ns = extentOf 0 ns + codeFeedsOf ns := by
  induction ns with
  | nil => rfl
  | cons n ns ih =>
    obtain ⟨first, rest⟩ := List.forall_mem_cons.mp each
    rw [extentOf_cons, extentOf_cons, codeFeedsOf_cons, first, ih rest]
    omega

theorem Accounts.leaf {l : Leaf} (same : l.extent 1 = l.extent 0) : Accounts (.leaf l) := by
  simp [Accounts, same]

theorem Accounts.frame (f : Frame) {inner : Node} (accounts : Accounts inner) :
    Accounts (.frame f inner) := by
  have zero : f.extent 0 = 0 := by
    cases f with
    | _ => simp [Frame.extent]
  rw [Accounts, extent_frame, extent_frame, codeFeeds_frame, accounts, zero]
  omega

theorem Accounts.seq {children : List Node} (each : ∀ n ∈ children, Accounts n) :
    Accounts (.seq children) := by
  rw [Accounts, extent_group, extent_group, codeFeeds_group, Accounts.all each]

theorem Accounts.closed (name : Text) {entries : List Node} (each : ∀ e ∈ entries, Accounts e) :
    Accounts (.tag name entries none) := by
  rw [Accounts, extent_closed, extent_closed, codeFeeds_closed, Accounts.all each]

theorem Accounts.tag (name : Text) {entries : List Node} {body : Node}
    (each : ∀ e ∈ entries, Accounts e)
    (accounts : Accounts body) : Accounts (.tag name entries (some body)) := by
  rw [Accounts, extent_tag, extent_tag, codeFeeds_tag, Accounts.all each, accounts]
  omega

end Node

namespace Outline

open Node (Accounts)

theorem accounts_isEntry {e : Node} (entry : Attribute.IsEntry e) : Accounts e := by
  have zero : e.codeFeeds = 0 := by
    cases entry with
    | text => simp [Attribute.textEntry, Frame.extent]
    | code => simp [Attribute.codeEntry, Frame.extent]
    | shortcut sign name =>
      unfold Attribute.shortcutEntry
      split <;> simp [Frame.extent]
  rw [Accounts, extent_isEntry entry, extent_isEntry entry, zero]

theorem accounts_text {n : Node} (text : IsTextNode n) : Accounts n := by
  have zero : n.codeFeeds = 0 := by
    cases text with
    | newline | text => exact Node.codeFeeds_leaf _
  rw [Accounts, extent_isTextNode text, extent_isTextNode text, zero, Nat.add_zero]

theorem accounts_of_isRead {format : Format} {n : Node} (read : IsRead format n) : Accounts n := by
  induction read with
  | @leaf l read =>
    refine .leaf ?_
    cases l with
    | newline | static | doctype => rfl
    | interpolate t =>
      simp only [Leaf.isRead, Bool.and_eq_true, beq_iff_eq] at read
      simp [Leaf.extent, read.2]
    | _ => cases read
  | frame _ _ _ ih => exact .frame _ ih
  | embedded texts => exact .frame _ (.seq fun n mem => accounts_text (texts n mem))
  | seq _ ih => exact .seq ih
  | closed entries => exact .closed _ fun e mem => accounts_isEntry (entries e mem)
  | tag entries _ ih => exact .tag _ (fun e mem => accounts_isEntry (entries e mem)) ih

/-! ## Whole templates -/

variable {o : Options} {t : Text} {n : Node}

theorem isRead_of_source (read : ofSource o t = .ok n) :
    IsRead o.format n ∧ n.extent 1 = (Source.lines t).length := by
  have plain : ∀ line ∈ Source.lines t, '\n' ∉ line := fun line => Source.not_mem_of_mem_lines
  obtain ⟨s, ends⟩ := ends_of_ok plain read
  rw [ofSource, ends.ofLines_eq] at read
  cases read
  obtain ⟨each, extent⟩ := isRead_of_run plain ends.run ends.resting
  exact ⟨.seq each, by rw [Node.extent_group, extent, ends.number]⟩

/-- Every line of a template is accounted for exactly once, by a line mark in the tree or by a line
feed in the code of a control or output line. -/
theorem lines_of_source {o : Options} {t : Text} {n : Node} (read : ofSource o t = .ok n) :
    n.marks + n.codeFeeds = (Source.lines t).length := by
  obtain ⟨isRead, extent⟩ := isRead_of_source read
  rw [← extent, ← Node.extent_zero, accounts_of_isRead isRead]

/-- A byte order mark, a list of attributes and a text over two lines each, a silent comment, and
codes that are broken once and twice, the second time in front of an empty line. -/
def brokenLines : Text :=
  "\uFEFF%p(a=b\r\n  c) d\n  e\n\n-# f\n  g\n- if h(i,\n    j):\n  = k,\n\n  l\n\n"

theorem lines_of_source_broken :
    ∃ n, ofSource {} brokenLines = .ok n ∧ n.codeFeeds = 3 ∧ n.marks + n.codeFeeds = 11 := by
  have accepted : (ofSource {} brokenLines).toOption.map Node.codeFeeds = some 3 := by
    decide +kernel
  have eleven : (Source.lines brokenLines).length = 11 := by decide
  obtain ⟨n, read, three⟩ := exists_of_toOption accepted
  exact ⟨n, read, three, (lines_of_source read).trans eleven⟩

end Outline

end MarkupTemplate
