import MarkupTemplate.Proofs.Node.Suites
import MarkupTemplate.Proofs.Program.Joined

/-!
# Lines of suites

The statements of a block are printed right behind the line of the statement they belong to, one
level deeper (`ofTree_suite`), and a block that says nothing becomes one that does nothing. What a
block is made of decides about that, not how it prints: a block of statements without ink says
something, and its suite is made of blank lines (`isSilent`). Every other suite has a line with ink
on its own level.
-/

namespace MarkupTemplate

open List

/-! ## Ink -/

namespace Text

theorem allBlank_append (s t : Text) : allBlank (s ++ t) = (allBlank s && allBlank t) :=
  all_append

theorem all_allBlank_split (t : Text) : (split '\n' t).all allBlank = allBlank t := by
  induction t with
  | nil => rfl
  | cons c t ih =>
    by_cases feed : c = '\n'
    · subst feed
      have blank : isBlank '\n' := by decide
      have cut : split '\n' ('\n' :: t) = [] :: split '\n' t := by simp [split]
      simp only [cut, all_cons, ih, allBlank, blank, all_nil]
    · obtain ⟨part, parts, whole, longer⟩ := split_cons_of_ne feed t
      rw [whole, all_cons] at ih
      rw [longer, all_cons, allBlank, all_cons, ← allBlank, Bool.and_assoc, ih]
      rfl

theorem allBlank_spaces (n : Nat) : allBlank (spaces n) := by
  have blank : isBlank ' ' := by decide
  simp [allBlank, spaces, blank]

theorem allBlank_of_endsWith {c : Char} (ink : isBlank c = false) {t : Text} (ends : endsWith c t) :
    allBlank t = false := by
  have mem : c ∈ t := mem_of_getLast? (beq_iff_eq.mp ends)
  refine Bool.eq_false_iff.mpr fun blank => ?_
  rw [all_eq_true.mp blank c mem] at ink
  nomatch ink

end Text

theorem Form.allBlank_text (strategy : Strategy) {form : Form} (own : ∀ code, form ≠ .host code) :
    Text.allBlank (form.text strategy) = false := by
  have call : Text.allBlank ")" = false := by decide
  have assign : Text.allBlank " = " = false := by decide
  have add : Text.allBlank " += " = false := by decide
  have appendTo (buffer expression : Text) : Text.allBlank (appendTo strategy buffer expression) =
      false := by
    cases strategy with
    | array => simp only [Form.appendTo, Text.allBlank_append, call, Bool.and_false]
    | string => simp only [Form.appendTo, Text.allBlank_append, add, Bool.and_false, Bool.false_and]
  cases form with
  | literal buffer text | output buffer code => exact appendTo buffer _
  | host code => exact absurd rfl (own code)
  | begin name | finish name =>
    simp only [Form.text, Text.allBlank_append, assign, Bool.and_false, Bool.false_and]
  | pass =>
    show Text.allBlank "pass" = false
    decide

namespace Stmt

def hasInk (strategy : Strategy) : Stmt → Bool
  | .plain form _ => !Text.allBlank (form.text strategy)
  | .suite _ => false

/-- The lines of several statements, without those of the suites among them. -/
def ownLines (strategy : Strategy) (level : Nat) (ss : List Stmt) : List PrintedLine :=
  ss.flatMap fun
    | .plain form line => printed strategy level (.plain form line)
    | .suite _ => []

theorem ownLines_subset (strategy : Strategy) (level : Nat) (ss : List Stmt) :
    ownLines strategy level ss ⊆ printedAll strategy level ss := by
  induction ss with
  | nil => exact nil_subset _
  | cons s ss ih =>
    rw [ownLines, flatMap_cons, printedAll]
    refine append_subset.mpr ⟨?_, fun l mem => mem_append_right _ (ih mem)⟩
    cases s with
    | plain form line => exact subset_append_left _ _
    | suite body => exact nil_subset _

theorem any_ownLines (strategy : Strategy) (level : Nat) (ss : List Stmt) :
    ((ownLines strategy level ss).any fun l => !Text.allBlank l.1) = ss.any (hasInk strategy) := by
  have plain (form : Form) (line : Nat) :
      ((printed strategy level (.plain form line)).any fun l => !Text.allBlank l.1) =
        !Text.allBlank (form.text strategy) := by
    rw [printed, any_map, ← Text.all_allBlank_split, not_all_eq_any_not]
    congr 1
    funext part
    simp [Text.allBlank_append, margin, Text.allBlank_spaces]
  induction ss with
  | nil => rfl
  | cons s ss ih =>
    rw [ownLines, flatMap_cons, any_append, any_cons, ← ih]
    cases s with
    | plain form line => rw [plain]; rfl
    | suite body => rfl

end Stmt

/-! ## Silent blocks -/

def Item.isBlank : Item → Bool
  | .statement source => Text.allBlank source
  | .char _ | .output _ | .suite _ _ | .kept _ _ => false

/-- Whether a tree is made of statements without ink. -/
def Node.isSilent (n : Node) : Bool :=
  !n.items.isEmpty && n.items.all Item.isBlank

namespace Program

open Node
open Text (allBlank)
open Stmt (printedAll)

/-- A tree with items has statements, and ink if some item is more than a blank statement. -/
structure Speaks (strategy : Strategy) (is : List Item) (ss : List Stmt) : Prop where
  eq_nil : ss = [] ↔ is = []
  ink : ss.any (Stmt.hasInk strategy) = is.any (!·.isBlank)

section Speaks

variable {strategy : Strategy}

theorem Speaks.append {is js : List Item} {ss ss' : List Stmt} (first : Speaks strategy is ss)
    (rest : Speaks strategy js ss') : Speaks strategy (is ++ js) (ss ++ ss') where
  eq_nil := by rw [append_eq_nil_iff, append_eq_nil_iff, first.eq_nil, rest.eq_nil]
  ink := by rw [any_append, any_append, first.ink, rest.ink]

theorem Speaks.ofInk {i : Item} {is : List Item} {form : Form} {line : Nat} (ss : List Stmt)
    (ink : allBlank (form.text strategy) = false) (other : i.isBlank = false) :
    Speaks strategy (i :: is) (.plain form line :: ss) where
  eq_nil := ⟨nofun, nofun⟩
  ink := by simp [Stmt.hasInk, ink, other]

theorem Speaks.any_suite {n : Node} {ss : List Stmt} (speaks : Speaks strategy n.items ss)
    (line : Nat) :
    (if ss.isEmpty then [.plain .pass line] else ss).any (Stmt.hasInk strategy) = !n.isSilent := by
  have pass : allBlank (Form.pass.text strategy) = false := Form.allBlank_text strategy nofun
  unfold Node.isSilent
  cases ss with
  | nil =>
    rw [speaks.eq_nil.mp rfl]
    simp [Stmt.hasInk, pass]
  | cons s ss =>
    have filled : n.items ≠ [] := fun empty => nomatch speaks.eq_nil.mpr empty
    rw [isEmpty_eq_false_iff.mpr filled, Bool.not_false, Bool.true_and, not_all_eq_any_not]
    exact speaks.ink

end Speaks

variable {t : Target} {line line' : Nat} {ss : List Stmt}

theorem speaks_statementsOf : ∀ {ns : List Node}, chained ns →
    (∀ n ∈ ns, n.isBlock = false → ∀ {line line' : Nat} {ss : List Stmt},
      statements t line n = .ok (ss, line') → Speaks t.strategy n.items ss) →
    ∀ {line line' : Nat} {ss : List Stmt}, statementsOf t line ns = .ok (ss, line') →
    Speaks t.strategy (itemsOf ns) ss
  | [], _, _, line, line', ss, written => by
    rw [statementsOf] at written
    cases written
    exact ⟨iff_of_true rfl rfl, rfl⟩
  | n :: ns, chain, each, line, line', ss, written => by
    rw [statementsOf] at written
    obtain ⟨⟨first, between⟩, here, written⟩ := exists_of_bind written
    obtain ⟨⟨rest, _⟩, behind, written⟩ := exists_of_bind written
    cases written
    rcases chained_cases chain with ⟨header, body, ns, rfl, rfl, ends, chain⟩ | ⟨other, chain⟩
    · rw [statements] at here
      cases here
      rw [itemsOf_suite]
      -- The block is not looked at: its header has ink.
      exact .ofInk rest (Text.allBlank_of_endsWith (by decide) ends) rfl
    · rw [forall_mem_cons] at each
      rw [itemsOf_cons n chain]
      exact (each.1 other here).append (speaks_statementsOf chain each.2 behind)

theorem speaks_statements {list : List Node → Prop} {n : Node} (core : IsCore n)
    (attached : Attached false list n)
    (other : n.isBlock = false) (written : statements t line n = .ok (ss, line')) :
    Speaks t.strategy n.items ss := by
  induction core generalizing t line line' ss with
  | newline =>
    rw [statements] at written
    cases written
    exact ⟨iff_of_true rfl rfl, rfl⟩
  | static text =>
    rw [statements] at written
    cases text with
    | nil =>
      cases written
      exact ⟨iff_of_true rfl rfl, rfl⟩
    | cons c text =>
      cases written
      exact .ofInk [] (Form.allBlank_text _ (by simp)) rfl
  | dynamic source =>
    rw [statements] at written
    cases written
    exact .ofInk [] (Form.allBlank_text _ (by simp)) rfl
  | code source =>
    rw [statements] at written
    cases written
    exact ⟨iff_of_false (cons_ne_nil _ _) (cons_ne_nil _ _), by simp [Stmt.hasInk, Form.text, items,
      Item.isBlank]⟩
  | block => cases other
  | capture name _ ih =>
    rw [statements] at written
    obtain ⟨_, _, written⟩ := exists_of_bind written
    cases written
    exact .ofInk _ (Form.allBlank_text _ (by simp)) rfl
  | seq _ ih =>
    cases attached with
    | seq chain each =>
      exact speaks_statementsOf chain (fun n mem other => ih n mem (each n mem) other) written

/-! ## Places of suites -/

theorem exists_of_statementsOf_append {before after : List Node} {n : Node}
    (written : statementsOf t line (before ++ n :: after) = .ok (ss, line')) :
    ∃ front line₁ here line₂ back, ss = front ++ here ++ back ∧
    statements t line₁ n = .ok (here, line₂) ∧ statementsOf t line₂ after = .ok (back, line') := by
  rw [statementsOf_append_eq] at written
  obtain ⟨⟨front, line₁⟩, _, done⟩ := exists_of_bind written
  obtain ⟨⟨rest, _⟩, behind, done⟩ := exists_of_bind done
  cases done
  rw [statementsOf] at behind
  obtain ⟨⟨here, line₂⟩, first, done⟩ := exists_of_bind behind
  obtain ⟨⟨back, _⟩, last, done⟩ := exists_of_bind done
  cases done
  exact ⟨front, line₁, here, line₂, back, (append_assoc ..).symm, first, last⟩

/-- The lines of a node are among those of the whole tree, as deep as there are blocks around. -/
theorem printed_fill {d : Context} {n : Node}
    (written : statements t line (d.fill n) = .ok (ss, line')) :
    ∃ (t' : Target) (line₁ line₂ : Nat) (here : List Stmt), t'.strategy = t.strategy ∧
      statements t' line₁ n = .ok (here, line₂) ∧ ∀ level, ∃ before after,
      printedAll t.strategy level ss =
        before ++ printedAll t.strategy (level + d.blocks) here ++ after := by
  induction d generalizing t line line' ss with
  | here => exact ⟨t, line, line', ss, rfl, written, fun level => ⟨[], [], (append_nil _).symm⟩⟩
  | frame f d ih =>
    cases f with
    | block =>
      rw [Context.fill, statements] at written
      obtain ⟨⟨body, after⟩, inside, written⟩ := exists_of_bind written
      cases written
      obtain ⟨t', line₁, line₂, here, same, written, lines⟩ := ih inside
      refine ⟨t', line₁, line₂, here, same, written, fun level => ?_⟩
      obtain ⟨before, behind, whole⟩ := lines (level + 1)
      rw [Context.blocks, ← Nat.add_assoc, Nat.add_right_comm, suiteOf, printedAll, Stmt.printed,
        printedAll,
        append_nil]
      split
      next empty =>
        rw [isEmpty_iff.mp empty] at whole
        obtain ⟨front, _⟩ := append_eq_nil_iff.mp whole.symm
        rw [(append_eq_nil_iff.mp front).2]
        exact ⟨[], _, rfl⟩
      next => exact ⟨before, behind, whole⟩
    | capture name =>
      rw [Context.fill, statements] at written
      obtain ⟨⟨body, after⟩, inside, written⟩ := exists_of_bind written
      cases written
      obtain ⟨t', line₁, line₂, here, same, written, lines⟩ := ih inside
      refine ⟨t', line₁, line₂, here, same, written, fun level => ?_⟩
      obtain ⟨before, behind, whole⟩ := lines level
      refine ⟨printedAll t.strategy level [.plain (.begin name) line] ++ before,
        behind ++ printedAll t.strategy level [.plain (.finish name) after], ?_⟩
      rw [Stmt.printedAll_append, Stmt.printedAll_append, whole]
      simp only [append_assoc]
      rfl
    | _ => cases written
  | seq front d back ih =>
    obtain ⟨first, line₁, inside, line₂, rest, rfl, here, _⟩ :=
      exists_of_statementsOf_append written
    obtain ⟨t', line₁, line₂, here, same, written, lines⟩ := ih here
    refine ⟨t', line₁, line₂, here, same, written, fun level => ?_⟩
    obtain ⟨before, behind, whole⟩ := lines level
    refine ⟨printedAll t.strategy level first ++ before, behind ++ printedAll t.strategy level rest,
      ?_⟩
    rw [Stmt.printedAll_append, Stmt.printedAll_append, whole]
    simp only [append_assoc]
    rfl
  | tag => cases written

theorem exists_of_statementsOf_suite {before after : List Node} {header : Text} {body : Node}
    (written : statementsOf t line (before ++ .code header :: .block body :: after) =
      .ok (ss, line')) :
    ∃ front line₁ line₂ inside line₃ back, statements t line₂ body = .ok (inside, line₃) ∧
      ss = front ++ .plain (.host header) line₁ :: suiteOf inside line₃ ++ back := by
  obtain ⟨front, line₁, here, line₂, rest, rfl, first, behind⟩ :=
    exists_of_statementsOf_append written
  rw [statements] at first
  cases first
  rw [statementsOf] at behind
  obtain ⟨⟨suite, line₃⟩, block, done⟩ := exists_of_bind behind
  obtain ⟨⟨back, _⟩, _, done⟩ := exists_of_bind done
  cases done
  rw [statements] at block
  obtain ⟨⟨inside, line₃⟩, within, done⟩ := exists_of_bind block
  cases done
  exact ⟨front, line₁, _, inside, line₃, back, within, by simp⟩

theorem printedAll_suiteOf (strategy : Strategy) (level : Nat) (body : List Stmt) (line : Nat) :
    printedAll strategy level (suiteOf body line) =
      printedAll strategy (level + 1) (if body.isEmpty then [.plain .pass line] else body) := by
  rw [suiteOf, printedAll, Stmt.printed, printedAll, append_nil]

section Suites

variable {o : Options} {n : Node} {p : Program} (written : ofTree o n = .ok p) {d : Context}
  {before after : List Node}
  {header : Text} {body : Node}
    (place : n = d.fill (.seq (before ++ .code header :: .block body :: after)))

include written place

theorem lines_of_suite :
    ∃ (t : Target) (line₁ : Nat) (inside : List Stmt) (line₂ : Nat) (front : List PrintedLine)
    (line : Nat) (back : List PrintedLine), t.strategy = p.strategy ∧
    statements t line₁ body = .ok (inside, line₂) ∧
      p.lines = front ++ Stmt.printed p.strategy d.blocks (.plain (.host header) line) ++
        printedAll p.strategy d.blocks (suiteOf inside line₂) ++ back := by
  subst place
  obtain ⟨⟨all, _⟩, tree, done⟩ := exists_of_bind written
  cases done
  obtain ⟨t, _, _, here, same, sequence, lines⟩ := printed_fill tree
  obtain ⟨front, line, line₁, inside, line₂, back, block, rfl⟩ :=
    exists_of_statementsOf_suite sequence
  obtain ⟨first, last, whole⟩ := lines 0
  refine ⟨t, line₁, inside, line₂, first ++ printedAll o.generator d.blocks front, line,
    printedAll o.generator d.blocks back ++ last, same, block, ?_⟩
  rw [Nat.zero_add, Stmt.printedAll_append, Stmt.printedAll_append, printedAll] at whole
  rw [Program.lines, whole]
  simp only [append_assoc]

/-- The lines of a block are one level deeper than those of its statement. A block without items
does nothing, and some line on its level has ink unless the block is silent. -/
theorem ofTree_suite {list : List Node → Prop} (core : IsCore n)
    (attached : Attached false list n) : ∃ front line ss back,
      p.lines = front ++ Stmt.printed p.strategy d.blocks (.plain (.host header) line) ++
        printedAll p.strategy (d.blocks + 1) ss ++ back ∧
      Stmt.ownLines p.strategy (d.blocks + 1) ss ⊆ p.lines ∧
      (body.items = [] → ∃ line, ss = [.plain .pass line]) ∧
      ((∃ l ∈ Stmt.ownLines p.strategy (d.blocks + 1) ss, allBlank l.1 = false) ↔
        body.isSilent = false) := by
  obtain ⟨t, line₁, inside, line₂, front, line, back, same, block, lines⟩ :=
    lines_of_suite written place
  rw [printedAll_suiteOf] at lines
  subst place
  obtain ⟨core, attached, nested⟩ := attached.of_suite core
  have speaks := speaks_statements core attached nested block
  rw [same] at speaks
  have ink := speaks.any_suite line₂
  have idle : body.items = [] → (if inside.isEmpty then [.plain .pass line₂] else inside) =
      [.plain .pass line₂] := by
    intro empty
    rw [speaks.eq_nil.mpr empty]
    rfl
  generalize (if inside.isEmpty then [.plain .pass line₂] else inside) = ss at lines ink idle
  refine ⟨front, line, ss, back, lines, ?_, fun empty => ⟨line₂, idle empty⟩, ?_⟩
  · intro l own
    rw [lines]
    exact mem_append_left _ (mem_append_right _ (Stmt.ownLines_subset _ _ ss own))
  · rw [← Bool.not_eq_true', ← ink, ← Stmt.any_ownLines _ (d.blocks + 1), any_eq_true]
    simp only [Bool.not_eq_true']

end Suites

end Program

end MarkupTemplate
