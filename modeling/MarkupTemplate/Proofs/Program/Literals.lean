import MarkupTemplate.Proofs.Attribute.Contributed
import MarkupTemplate.Proofs.Host.Phrases
import MarkupTemplate.Proofs.Program.Statements

/-!
# Texts in programs

Texts of a template get into its program as literals: static texts, the known values and the
delimiter of a joined attribute, and templates that are filled in later. Each literal stays on its
line and stands for its text, so nothing of a text is taken for code (`literals_read_back`).
-/

namespace MarkupTemplate

open List

open Text (quote unquote? Spells)

theorem Attribute.known_arguments (used : Nat) (values : List Node) :
    Forall₂ (fun v part => ∀ text, staticText? v = some text →
      part = "_hamlc_markup(" ++ quote text ++ ")") values (mergeParts used values).2.1 := by
  obtain ⟨slots, stand, parts, -⟩ := exists_slots used values
  rw [parts, forall₂_map_right_iff]
  refine stand.imp fun v slot takes text known => ?_
  cases takes with
  | known known' => rw [Option.some.inj (known.symm.trans known')]; rfl
  | code => nomatch known
  | captured unknown => nomatch known.symm.trans unknown

namespace Program

open Attribute Host Embedded

/-- A literal has no line breaks and stands for its text: for a static text, which takes no more
lines than the name of its buffer, for the delimiter and the known values of a joined attribute, and
for a template to be filled in. -/
theorem literals_read_back :
    (∀ text rest, '\n' ∉ quote text ∧ '\r' ∉ quote text ∧
      (∃ q written, (q = '\'' ∨ q = '"') ∧ quote text = q :: written ++ [q] ∧
        Spells q written text) ∧
      unquote? (quote text ++ rest) = some (text, rest)) ∧
    (∀ (t : Target) (line level : Nat) (text : Text), text ≠ [] →
      statements t line (.static text) =
        .ok ([.plain (.literal t.buffer text) line], line + t.buffer.count '\n') ∧
      (Stmt.printed t.strategy level (.plain (.literal t.buffer text) line)).length = 1 +
        t.buffer.count '\n' ∧
      ('\n' ∉ t.buffer → ∃ front back,
        Stmt.printed t.strategy level (.plain (.literal t.buffer text) line) =
          [(front ++ quote text ++ back, line)])) ∧
    (∀ temp delimiter parts, ∃ back, joinStatement temp delimiter parts =
      temp ++ " = _hamlc_join_attr(" ++ quote delimiter ++ back) ∧
    (∀ used values, Forall₂ (fun v part => ∀ text, staticText? v = some text →
      part = "_hamlc_markup(" ++ quote text ++ ")") values (mergeParts used values).2.1) ∧
    ∀ text, wholeExpr? (deferredCode text) =
      some (.call filler [.string text, .call allVariables []]) := by
  refine ⟨fun text rest => ?_, fun t line level text filled => ?_, fun temp delimiter parts => ?_,
    known_arguments,
    wholeExpr?_deferredCode⟩
  · exact ⟨Text.break_not_mem_quote (.inl rfl) text, Text.break_not_mem_quote (.inr rfl) text,
      Text.spells_quote text,
      Text.unquote?_quote text rest⟩
  · have lines := Form.extraLines_literal t.strategy t.buffer text
    have written : statements t line (.static text) = .ok (t.emit (.literal t.buffer text) line) :=
      congrArg Except.ok (if_neg (by simpa using filled))
    refine ⟨by rw [written, Target.emit, lines], ?_, fun plain => ?_⟩
    · rw [Stmt.printed, length_map, Text.length_split, ← Form.extraLines, lines, Nat.add_comm]
    · have around : ∃ front back, (Form.literal t.buffer text).text t.strategy = front ++
          (quote text ++ back) := by
        cases t.strategy with
        | array => exact ⟨_, _, append_assoc ..⟩
        | string => exact ⟨_, [], by rw [append_nil]; rfl⟩
      obtain ⟨front, back, whole⟩ := around
      rw [count_eq_zero_of_not_mem plain] at lines
      refine ⟨Stmt.margin level ++ front, back, ?_⟩
      rw [Stmt.printed, Text.split_of_not_mem (count_eq_zero.mp lines), whole]
      simp
  · exact ⟨_, by rw [joinStatement, append_assoc _ _ "])".toList, append_assoc _ _ (_ ++ _)]⟩

def bothQuotes : Text :=
  "it's \"so\"\n\\"

theorem literals_read_back_bothQuotes :
    quote bothQuotes = "'it\\'s \"so\"\\n\\\\'" ∧
    unquote? (quote bothQuotes) = some (bothQuotes, []) ∧
    bothQuotes ≠ [] ∧ '\n' ∉ buffer ∧ ∃ front back,
      Stmt.printed .array 1 (.plain (.literal buffer bothQuotes) 3) =
        [(front ++ quote bothQuotes ++ back, 3)] := by
  have filled : bothQuotes ≠ [] := by decide
  have plain : '\n' ∉ buffer := by decide
  have read := (literals_read_back.1 bothQuotes []).2.2.2
  rw [append_nil] at read
  exact ⟨by decide, read, filled, plain,
    (literals_read_back.2.1 ⟨.array, buffer⟩ 3 1 bothQuotes filled).2.2 plain⟩

end Program

end MarkupTemplate
