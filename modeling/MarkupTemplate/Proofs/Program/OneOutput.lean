import MarkupTemplate.Proofs.Node.Carried
import MarkupTemplate.Proofs.Program.Statements

/-!
# Programs that differ in one output

Trees of core nodes that differ in the code of one output give programs that differ in one line. Its
line in the template is where the tree starts, plus the lines in front of the output
(`ofTree_oneOutput`).
-/

namespace MarkupTemplate

open List

/-- Printed lines are the same but for one, which puts out two codes, with its template line. -/
inductive OneOutput (strategy : Strategy) (byDefault : Bool) (v w : Text) (line : Nat) :
    List PrintedLine → List PrintedLine → Prop where
  | intro (before after : List PrintedLine) (level : Nat) (buffer : Text) (on? : Option Bool) :
    OneOutput strategy byDefault v w line
      (before ++ (Stmt.margin level ++ (Form.output buffer (Node.escapedCode byDefault on? v)).text
        strategy, line) ::
        after)
      (before ++ (Stmt.margin level ++ (Form.output buffer (Node.escapedCode byDefault on? w)).text
        strategy, line) ::
        after)

section OneOutput

variable {strategy : Strategy} {byDefault noCapture : Bool} {v w : Text} {line : Nat}
  {ls ls' : List PrintedLine}

theorem OneOutput.within (before after : List PrintedLine)
    (one : OneOutput strategy byDefault v w line ls ls') :
    OneOutput strategy byDefault v w line (before ++ (ls ++ after)) (before ++ (ls' ++ after)) := by
  obtain ⟨front, behind, level, buffer, on?⟩ := one
  simpa using OneOutput.intro (before ++ front) (behind ++ after) level buffer on?

theorem OneOutput.ne_nil (one : OneOutput strategy byDefault v w line ls ls') :
    ls ≠ [] ∧ ls' ≠ [] := by
  obtain ⟨front, behind, level, buffer, on?⟩ := one
  simp

theorem OneOutput.exists_mem (one : OneOutput strategy byDefault v w line ls ls') :
    ∃ text, (text, line) ∈ ls ∧ ∀ c ∈ v, c ∈ text := by
  obtain ⟨before, after, level, buffer, on?⟩ := one
  refine ⟨_, mem_append_right _ (.head _), fun c mem => ?_⟩
  have inside : c ∈ Node.escapedCode byDefault on? v := by
    unfold Node.escapedCode
    split
    · simp [mem]
    · exact mem
  cases strategy with
  | array | string => simp [Form.text, Form.appendTo, inside]

namespace Program

open Node

/-- The statements of two trees are printed the same but for one line. -/
structure Differing (t : Target) (byDefault : Bool) (v w : Text) (entry : Nat)
    (ss ss' : List Stmt) : Prop where
  printed : ∀ level, OneOutput t.strategy byDefault v w entry (Stmt.printedAll t.strategy level ss)
    (Stmt.printedAll t.strategy level ss')

variable {t : Target} {format : Format} {d : Nat} {n n' : Node} {ss ss' : List Stmt}

theorem Differing.isEmpty_eq (differing : Differing t byDefault v w line ss ss') :
    ss.isEmpty = false ∧ ss'.isEmpty = false := by
  have filled := (differing.printed 0).ne_nil
  constructor
  · rw [isEmpty_eq_false_iff]
    rintro rfl
    exact filled.1 rfl
  · rw [isEmpty_eq_false_iff]
    rintro rfl
    exact filled.2 rfl

theorem Differing.within (before after : List Stmt)
    (differing : Differing t byDefault v w line ss ss') :
    Differing t byDefault v w line (before ++ (ss ++ after)) (before ++ (ss' ++ after)) where
  printed level := by
    simp only [Stmt.printedAll_append]
    exact (differing.printed level).within _ _

theorem Differing.suite (differing : Differing t byDefault v w line ss ss') (line' : Nat) :
    Differing t byDefault v w line (suiteOf ss line') (suiteOf ss' line') where
  printed level := by
    have inside := (differing.printed (level + 1)).within [] []
    simpa [suiteOf, differing.isEmpty_eq, Stmt.printedAll, Stmt.printed] using inside

theorem printedAll_output {buffer code : Text} (plainBuffer : '\n' ∉ buffer) (plain : '\n' ∉ code)
    (level : Nat) : Stmt.printedAll strategy level [.plain (.output buffer code) line] =
      [(Stmt.margin level ++ (Form.output buffer code).text strategy, line)] := by
  have single : '\n' ∉ (Form.output buffer code).text strategy :=
    count_eq_zero.mp
      ((Form.extraLines_output plainBuffer code).trans (count_eq_zero_of_not_mem plain))
  rw [Stmt.printedAll, Stmt.printed, Text.split_of_not_mem single]
  rfl

/-! ## Trees -/

/-- The statements of two trees end in the same line, and are printed the same but for one line. -/
def Write (t : Target) (byDefault : Bool) (v w : Text) (line entry : Nat) (n n' : Node) : Prop :=
  ∃ ss ss' line', statements t line n = .ok (ss, line') ∧ statements t line n' = .ok (ss', line') ∧
    Differing t byDefault v w entry ss ss'

theorem write_output (plain : '\n' ∉ t.buffer) (plainV : '\n' ∉ v) (plainW : '\n' ∉ w)
    (on? : Option Bool) : Write t byDefault v w line line (.dynamic (escapedCode byDefault on? v))
      (.dynamic (escapedCode byDefault on? w)) := by
  have oneLine : ∀ {source : Text}, '\n' ∉ source → '\n' ∉ escapedCode byDefault on? source :=
    fun plain =>
    count_eq_zero.mp ((count_escapedCode byDefault on? _).trans (count_eq_zero_of_not_mem plain))
  have written : ∀ {code : Text}, '\n' ∉ code →
      statements t line (.dynamic code) = .ok ([.plain (.output t.buffer code) line], line) := by
    intro code plainCode
    rw [statements, Target.emit, Form.extraLines_output plain, count_eq_zero_of_not_mem plainCode,
      Nat.add_zero]
  refine ⟨_, _, line, written (oneLine plainV), written (oneLine plainW), ⟨fun level => ?_⟩⟩
  rw [printedAll_output plain (oneLine plainV), printedAll_output plain (oneLine plainW)]
  exact .intro [] [] level t.buffer on?

theorem Write.block {entry : Nat} (write : Write t byDefault v w line entry n n') :
    Write t byDefault v w line entry (.block n) (.block n') := by
  obtain ⟨ss, ss', line', first, second, differing⟩ := write
  have written : ∀ {m : Node} {body : List Stmt}, statements t line m = .ok (body, line') →
      statements t line (.block m) = .ok (suiteOf body line', line') := by
    intro m body read
    rw [statements, read]
    rfl
  exact ⟨_, _, line', written first, written second, differing.suite line'⟩

theorem Write.capture {entry : Nat} {name : Text} (plain : '\n' ∉ name)
    (write : Write { t with buffer := name } byDefault v w line entry n n') :
    Write t byDefault v w line entry (.capture name n) (.capture name n') := by
  obtain ⟨ss, ss', line', first, second, differing⟩ := write
  have written : ∀ {m : Node} {body : List Stmt}, statements { t with buffer := name } line m =
    .ok (body, line') →
      statements t line (.capture name m) =
        .ok ([.plain (.begin name) line] ++ (body ++ [.plain (.finish name) line']), line') := by
    intro m body read
    simp only [statements, Target.emit, Form.extraLines_begin plain, Form.extraLines_finish plain,
      Nat.add_zero, read]
    rfl
  exact ⟨_, _, line', written first, written second, ⟨(differing.within _ _).printed⟩⟩

theorem Write.seq {entry : Nat} {before after : List Node} (plain : '\n' ∉ t.buffer)
    (fitsBefore : ∀ m ∈ before, Fits .core format .tree m)
    (fitsAfter : ∀ m ∈ after, Fits .core format .tree m)
    (write : Write t byDefault v w (line + extentOf 1 before) entry n n') :
    Write t byDefault v w line entry (.seq (before ++ n :: after))
    (.seq (before ++ n' :: after)) := by
  obtain ⟨ss, ss', line', first, second, differing⟩ := write
  obtain ⟨front, inFront⟩ :=
    statementsOf_core (fun m mem => statements_core (fitsBefore m mem) rfl plain) line
  obtain ⟨back, inBack⟩ :=
    statementsOf_core (fun m mem => statements_core (fitsAfter m mem) rfl plain) line'
  have written : ∀ {m : Node} {body : List Stmt}, statements t (line + extentOf 1 before) m =
    .ok (body, line') →
      statements t line (.seq (before ++ m :: after)) =
        .ok (front ++ (body ++ back), line' + extentOf 1 after) := by
    intro m body read
    refine statementsOf_append inFront ?_
    rw [statementsOf, read]
    simp only [bind, Except.bind, pure, Except.pure, inBack]
  exact ⟨_, _, _, written first, written second, differing.within front back⟩

variable (plainV : '\n' ∉ v) (plainW : '\n' ∉ w)
  (differ : DifferAt noCapture (PutsEscaped byDefault v w) d n n')

include plainV plainW differ

theorem write_of_differAt (fits : Fits .core format .tree n)
    (plain : '\n' ∉ t.buffer) (line : Nat) : Write t byDefault v w line (line + d) n n' := by
  induction differ generalizing t line with
  | here here =>
    obtain ⟨on?⟩ := here
    exact write_output plain plainV plainW on?
  | frame f _ ih =>
    have allowed := fits.of_frame.1
    rw [lead_eq_zero rfl allowed, Nat.zero_add]
    cases f with
    | block => exact (ih fits.of_frame.2 plain line).block
    | capture name =>
      have oneLine : '\n' ∉ name := by simpa [Kinds.frame] using allowed
      exact (@ih { t with buffer := name } fits.of_frame.2 oneLine line).capture oneLine
    | _ => cases allowed
  | seq before after _ ih =>
    have each := forall_mem_append.mp fits.of_seq
    obtain ⟨inside, fitsAfter⟩ := forall_mem_cons.mp each.2
    rw [← Nat.add_assoc]
    exact (ih inside plain (line + extentOf 1 before)).seq plain each.1 fitsAfter
  | tag name entries _ _ => cases fits with | tag markup => cases markup

theorem ofTree_oneOutput {o : Options} (fits : Fits .core o.format .tree n) :
    ∃ p p', ofTree o n = .ok p ∧ ofTree o n' = .ok p' ∧
      OneOutput o.generator byDefault v w (1 + d) p.lines p'.lines := by
  have oneLine : '\n' ∉ buffer := by decide
  obtain ⟨ss, ss', line', first, second, differing⟩ :=
    @write_of_differAt _ _ _ _ ⟨o.generator, buffer⟩ _ _ _ _ plainV plainW differ fits oneLine 1
  rw [ofTree, ofTree, first, second]
  exact ⟨_, _, rfl, rfl, differing.printed 0⟩

end Program

end OneOutput

end MarkupTemplate
