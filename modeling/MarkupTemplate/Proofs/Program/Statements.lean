import MarkupTemplate.Program.Basic
import MarkupTemplate.Proofs.Node.Grammar
import MarkupTemplate.Proofs.Source
import MarkupTemplate.Proofs.Text.Literal

/-!
# Statements of core trees

Statements can be written for every tree of core nodes, and the line after them is the one they
start from plus those the tree takes up (`statements_core`). Only code from the template has line
feeds.
-/

namespace MarkupTemplate

open List

/-! ## Lines of a statement -/

namespace Form

variable {strategy : Strategy} {buffer : Text}

theorem count_appendTo (strategy : Strategy) (buffer expression : Text) :
    (appendTo strategy buffer expression).count '\n' = buffer.count '\n' +
      expression.count '\n' := by
  have call : (".append(" : Text).count '\n' = 0 := by decide
  have close : (")" : Text).count '\n' = 0 := by decide
  have assign : (" += " : Text).count '\n' = 0 := by decide
  cases strategy with
  | array => rw [appendTo, count_append, count_append, count_append, call, close]; rfl
  | string => rw [appendTo, count_append, count_append, assign]; rfl

/-- A literal takes no lines of its own. -/
theorem extraLines_literal (strategy : Strategy) (buffer t : Text) :
    (literal buffer t).extraLines strategy = buffer.count '\n' := by
  rw [extraLines, text, count_appendTo, count_eq_zero_of_not_mem (Text.feed_not_mem_quote t),
    Nat.add_zero]

section

variable (plain : '\n' ∉ buffer)

include plain

theorem extraLines_output (code : Text) :
    (output buffer code).extraLines strategy = code.count '\n' := by
  have name : (textHelper ++ "(" : Text).count '\n' = 0 := by decide
  have close : (")" : Text).count '\n' = 0 := by decide
  rw [extraLines, text, count_appendTo, count_append, count_append, name, close,
    count_eq_zero_of_not_mem plain]
  omega

theorem extraLines_begin : (begin buffer).extraLines strategy = 0 := by
  refine count_eq_zero_of_not_mem ?_
  refine Text.feed_not_mem_append (Text.feed_not_mem_append plain (by decide)) ?_
  cases strategy with
  | array | string => decide

theorem feed_not_mem_wholeBuffer : '\n' ∉ wholeBuffer strategy buffer := by
  cases strategy with
  | array => exact Text.feed_not_mem_append (Text.feed_not_mem_append (by decide) plain) (by decide)
  | string => exact plain

theorem extraLines_finish : (finish buffer).extraLines strategy = 0 := by
  refine count_eq_zero_of_not_mem ?_
  rw [text]
  refine Text.feed_not_mem_append (Text.feed_not_mem_append ?_ (feed_not_mem_wholeBuffer plain))
    (by decide)
  refine Text.feed_not_mem_append (Text.feed_not_mem_append ?_ (by decide)) (by decide)
  exact Text.feed_not_mem_append plain (by decide)

end

end Form

/-! ## Trees -/

namespace Program

open Node

theorem statementsOf_append {t : Target} {line line' line'' : Nat} {ns ms : List Node}
    {first rest : List Stmt} (front : statementsOf t line ns = .ok (first, line'))
    (behind : statementsOf t line' ms = .ok (rest, line'')) :
    statementsOf t line (ns ++ ms) = .ok (first ++ rest, line'') := by
  induction ns generalizing line first with
  | nil =>
    rw [statementsOf] at front
    cases front
    exact behind
  | cons n ns ih =>
    rw [statementsOf] at front
    rw [cons_append, statementsOf]
    cases written : statements t line n with
    | error _ => rw [written] at front; nomatch front
    | ok head =>
      obtain ⟨body, between⟩ := head
      rw [written] at front
      simp only [bind, Except.bind, pure, Except.pure] at front ⊢
      cases others : statementsOf t between ns with
      | error _ => rw [others] at front; nomatch front
      | ok tail =>
        rw [others] at front
        cases front
        rw [ih others, append_assoc]

theorem statementsOf_core {t : Target} {ns : List Node}
    (each : ∀ n ∈ ns, ∀ line, ∃ body, statements t line n = .ok (body, line + n.extent 1))
    (line : Nat) : ∃ body, statementsOf t line ns = .ok (body, line + extentOf 1 ns) := by
  induction ns generalizing line with
  | nil => exact ⟨[], rfl⟩
  | cons n ns ih =>
    obtain ⟨first, written⟩ := each n (.head _) line
    obtain ⟨rest, others⟩ := ih (fun m mem => each m (.tail _ mem))
      (line + n.extent 1)
    refine ⟨first ++ rest, ?_⟩
    rw [statementsOf, written]
    simp only [bind, Except.bind, pure, Except.pure]
    rw [others, extentOf_cons, Nat.add_assoc]

theorem statements_core {format : Format} {p : Place} {n : Node} (fits : Fits .core format p n)
    (top : p = .tree) {t : Target} (plain : '\n' ∉ t.buffer) (line : Nat) :
    ∃ body, statements t line n = .ok (body, line + n.extent 1) := by
  induction fits generalizing t line with
  | @leaf p l nested allowed =>
    cases l with
    | newline => exact ⟨[], rfl⟩
    | static text =>
      rw [statements, Target.emit, Form.extraLines_literal, count_eq_zero_of_not_mem plain]
      split
      · exact ⟨[], rfl⟩
      · exact ⟨_, rfl⟩
    | dynamic code =>
      rw [statements, Target.emit, Form.extraLines_output plain]
      exact ⟨_, by rw [extent_leaf, Leaf.extent, Nat.one_mul]⟩
    | code source =>
      rw [statements, Target.emit, Form.extraLines, Form.text]
      exact ⟨_, by rw [extent_leaf, Leaf.extent, Nat.one_mul]⟩
    | _ => cases allowed
  | @frame p f inner nested allowed _ ih =>
    cases f with
    | block =>
      obtain ⟨body, written⟩ := ih top plain line
      rw [statements, written]
      exact ⟨_, by simp [Frame.extent]; rfl⟩
    | capture name =>
      have oneLine : '\n' ∉ name := by simpa [Kinds.frame] using allowed
      obtain ⟨body, written⟩ := ih top (t := { t with buffer := name }) oneLine line
      rw [statements]
      simp only [Target.emit, Form.extraLines_begin oneLine, Form.extraLines_finish oneLine,
        Nat.add_zero]
      rw [written]
      exact ⟨_, by simp [Frame.extent]; rfl⟩
    | _ => cases allowed
  | seq _ _ ih =>
    rw [statements, extent_group]
    exact statementsOf_core (fun n mem => ih n mem top plain) line
  | closed allowed | tag allowed => cases allowed
  | _ => cases top

theorem ofTree_core (o : Options) {n : Node} (fits : Fits .core o.format .tree n) :
    ∃ p, ofTree o n = .ok p := by
  have oneLine : '\n' ∉ buffer := by decide
  obtain ⟨body, written⟩ := statements_core fits rfl (t := ⟨o.generator, buffer⟩) oneLine 1
  rw [ofTree, written]
  exact ⟨_, rfl⟩

end Program

/-! ## The line map -/

theorem Stmt.printedAll_append (strategy : Strategy) (level : Nat) (ss ss' : List Stmt) :
    printedAll strategy level (ss ++ ss') =
      printedAll strategy level ss ++ printedAll strategy level ss' := by
  induction ss with
  | nil => rfl
  | cons s ss ih => rw [cons_append, printedAll, ih, printedAll, append_assoc]

theorem Program.lineMap_append (p : Program) {body : List Stmt} {form : Form} {line : Nat}
    (last : p.body = body ++ [.plain form line]) (single : form.extraLines p.strategy = 0) :
    ∃ front, p.lineMap = front ++ [line, 0] := by
  have oneLine : '\n' ∉ form.text p.strategy := count_eq_zero.mp single
  refine ⟨List.replicate p.opening.length 0 ++ (Stmt.printedAll p.strategy 0 body).map (·.2), ?_⟩
  rw [lineMap, lines, last, Stmt.printedAll_append, Stmt.printedAll, Stmt.printed,
    Text.split_of_not_mem oneLine]
  simp [Stmt.printedAll]

end MarkupTemplate
