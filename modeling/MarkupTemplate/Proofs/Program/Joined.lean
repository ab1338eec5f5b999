import MarkupTemplate.Proofs.Node.Written
import MarkupTemplate.Proofs.Program.Statements

/-!
# Statements of joined trees

Joining the static texts of a tree joins statements that put out texts one after the other: `Joins
ss ss'` says that `ss'` comes from `ss` in this way, and that texts may have moved to other lines.
Everything else stays in its place, line and suite (`statements_joined`). Line marks move behind a
joined text, so the lines agree again after it; this needs the text to take up no line of its own,
so no name of a buffer may have a line feed.
-/

namespace MarkupTemplate

open List

/-! ## Pieces of a program -/

/-- A part of the statements of a program: texts put out in a row, or a single statement. -/
inductive Piece where
  | text (level : Nat) (buffer text : Text)
  | other (level : Nat) (form : Form) (line : Nat)
deriving DecidableEq, Repr

/-- Puts a text in front of pieces; it joins a text for the same buffer on the same level. -/
def Piece.addText (level : Nat) (buffer text : Text) : List Piece → List Piece
  | .text level' buffer' text' :: pieces =>
    if level = level' ∧ buffer = buffer' then .text level buffer (text ++ text') :: pieces
    else .text level buffer text :: .text level' buffer' text' :: pieces
  | pieces => .text level buffer text :: pieces

namespace Stmt

mutual

def piecesOnto : (level : Nat) → Stmt → List Piece → List Piece
  | level, .plain (.literal buffer text) _, after => Piece.addText level buffer text after
  | level, .plain form line, after => .other level form line :: after
  | level, .suite body, after => allPiecesOnto (level + 1) body after

def allPiecesOnto : (level : Nat) → List Stmt → List Piece → List Piece
  | _, [], after => after
  | level, s :: ss, after => piecesOnto level s (allPiecesOnto level ss after)

end

end Stmt

/-- The statements of a program, with each run of texts for one buffer on one level joined. -/
def Program.pieces (p : Program) : List Piece :=
  Stmt.allPiecesOnto 0 p.body []

theorem Piece.addText_addText (level : Nat) (buffer front back : Text) (pieces : List Piece) :
    addText level buffer front (addText level buffer back pieces) =
      addText level buffer (front ++ back) pieces := by
  cases pieces with
  | nil => simp [addText]
  | cons piece pieces =>
    cases piece with
    | other => simp [addText]
    | text level' buffer' text' =>
      by_cases same : level = level' ∧ buffer = buffer'
      · simp [addText, same]
      · simp [addText, same]

/-! ## Joining texts -/

namespace Stmt

/-- Statements that put out texts, each with its line. -/
def textsOf (buffer : Text) (parts : List (Text × Nat)) : List Stmt :=
  parts.map fun part => .plain (.literal buffer part.1) part.2

/-- The second statements come from the first by making one text of several in a row. The line of a
text may change; all else stays. -/
inductive Joins : List Stmt → List Stmt → Prop where
  | nil : Joins [] []
  | plain (form : Form) (line : Nat) {ss ss' : List Stmt} :
    Joins ss ss' → Joins (.plain form line :: ss) (.plain form line :: ss')
  | texts (buffer text : Text) (line : Nat) (more : List (Text × Nat)) (line' : Nat)
    {ss ss' : List Stmt} :
    Joins ss ss' → Joins (.plain (.literal buffer text) line :: (textsOf buffer more ++ ss))
      (.plain (.literal buffer (text ++ more.flatMap (·.1))) line' :: ss')
  | suite {body body' ss ss' : List Stmt} :
    Joins body body' → Joins ss ss' → Joins (.suite body :: ss) (.suite body' :: ss')

theorem allPiecesOnto_texts (level : Nat) (buffer text : Text) (line : Nat)
    (more : List (Text × Nat)) (ss : List Stmt) (after : List Piece) :
    allPiecesOnto level (.plain (.literal buffer text) line :: (textsOf buffer more ++ ss)) after =
      Piece.addText level buffer (text ++ more.flatMap (·.1)) (allPiecesOnto level ss after) := by
  induction more generalizing text line with
  | nil => rw [allPiecesOnto, piecesOnto, flatMap_nil, append_nil]; rfl
  | cons part more ih =>
    rw [allPiecesOnto, piecesOnto, textsOf, map_cons, cons_append]
    show Piece.addText level buffer text (allPiecesOnto level
      (.plain (.literal buffer part.1) part.2 :: (textsOf buffer more ++ ss)) after) = _
    rw [ih, Piece.addText_addText, flatMap_cons]

namespace Joins

variable {ss ss' : List Stmt}

theorem append {rest rest' : List Stmt} (first : Joins ss ss') (second : Joins rest rest') :
    Joins (ss ++ rest) (ss' ++ rest') := by
  induction first with
  | nil => exact second
  | plain form line _ ih => exact .plain form line ih
  | texts buffer text line more line' _ ih =>
    rw [cons_append, append_assoc]
    exact .texts buffer text line more line' ih
  | suite body _ _ ih => exact .suite body ih

theorem moved (buffer text : Text) (line line' : Nat) (joins : Joins ss ss') :
    Joins (.plain (.literal buffer text) line :: ss)
    (.plain (.literal buffer text) line' :: ss') := by
  have one := Joins.texts buffer text line [] line' joins
  rwa [flatMap_nil, append_nil] at one

theorem split {buffer front back : Text} {line : Nat}
    (joins : Joins (.plain (.literal buffer (front ++ back)) line :: ss) ss') (line' : Nat) :
    Joins (.plain (.literal buffer front) line :: .plain (.literal buffer back) line' :: ss)
      ss' := by
  cases joins with
  | plain _ _ rest =>
    have two := Joins.texts buffer front line [(back, line')] line rest
    rwa [flatMap_cons, flatMap_nil, append_nil] at two
  | texts _ _ _ more other rest =>
    have all := Joins.texts buffer front line ((back, line') :: more) other rest
    rwa [flatMap_cons, ← append_assoc] at all

theorem isEmpty_eq (joins : Joins ss ss') : ss.isEmpty = ss'.isEmpty := by
  cases joins with
  | _ => rfl

theorem allPiecesOnto_eq (joins : Joins ss ss') (level : Nat) (after : List Piece) :
    allPiecesOnto level ss after = allPiecesOnto level ss' after := by
  induction joins generalizing level after with
  | nil => rfl
  | plain form line _ ih => rw [allPiecesOnto, allPiecesOnto, ih]
  | texts buffer text line more line' _ ih =>
    rw [allPiecesOnto_texts, allPiecesOnto, piecesOnto, ih]
  | suite _ _ ihBody ih => rw [allPiecesOnto, allPiecesOnto, piecesOnto, piecesOnto, ihBody, ih]

theorem suiteOf (joins : Joins ss ss') (line : Nat) :
    Joins (Program.suiteOf ss line) (Program.suiteOf ss' line) := by
  rw [Program.suiteOf, Program.suiteOf, joins.isEmpty_eq]
  cases ss'.isEmpty with
  | true => exact .suite (.plain .pass line .nil) .nil
  | false => exact .suite joins .nil

end Joins

end Stmt

/-! ## Names of captures -/

namespace Node

mutual

/-- The names that output is kept under in a tree. -/
def captureNames : Node → List Text
  | .leaf _ => []
  | .frame (.capture name) body => name :: captureNames body
  | .frame _ inner => captureNames inner
  | .group _ children => captureNamesOf children
  | .tag _ entries none => captureNamesOf entries
  | .tag _ entries (some body) => captureNamesOf entries ++ captureNames body

def captureNamesOf : List Node → List Text
  | [] => []
  | n :: ns => captureNames n ++ captureNamesOf ns

end

theorem captureNamesOf_append (ns ms : List Node) :
    captureNamesOf (ns ++ ms) = captureNamesOf ns ++ captureNamesOf ms := by
  induction ns with
  | nil => rfl
  | cons n ns ih => rw [cons_append, captureNamesOf, ih, captureNamesOf, append_assoc]

theorem captureNamesOf_spliced (n : Node) : captureNamesOf (spliced n) = captureNames n := by
  have single : captureNamesOf [n] = captureNames n := append_nil _
  cases n with
  | group g children =>
    cases g with
    | seq => rfl
    | attrs => exact single
  | leaf | frame | tag => exact single

theorem captureNamesOf_flatMap_spliced (ns : List Node) :
    captureNamesOf (ns.flatMap spliced) = captureNamesOf ns := by
  induction ns with
  | nil => rfl
  | cons n ns ih =>
    rw [flatMap_cons, captureNamesOf_append, captureNamesOf_spliced, ih, captureNamesOf]

theorem mem_captureNamesOf {ns : List Node} {n : Node} (mem : n ∈ ns) {name : Text}
    (named : name ∈ captureNames n) : name ∈ captureNamesOf ns := by
  induction ns with
  | nil => nomatch mem
  | cons first ns ih =>
    rw [captureNamesOf, mem_append]
    rcases mem_cons.mp mem with rfl | mem
    · exact .inl named
    · exact .inr (ih mem)

theorem isCore_spliced {n : Node} (core : IsCore n) : ∀ m ∈ n.spliced, IsCore m := by
  intro m mem
  cases core with
  | seq each => exact each m mem
  | newline | static | dynamic | code => cases mem_singleton.mp mem; constructor
  | block body => cases mem_singleton.mp mem; exact .block body
  | capture name body => cases mem_singleton.mp mem; exact .capture name body

end Node

namespace Program

open Node

/-! ## Flattening -/

theorem statementsOf_append_eq (t : Target) (line : Nat) (ns ms : List Node) :
    statementsOf t line (ns ++ ms) = (statementsOf t line ns >>= fun (first, line) =>
      statementsOf t line ms >>= fun (rest, line) => .ok (first ++ rest, line)) := by
  induction ns generalizing line with
  | nil =>
    show statementsOf t line ms =
      (statementsOf t line ms >>= fun (rest, line) => .ok ([] ++ rest, line))
    cases statementsOf t line ms with
    | error e | ok found => rfl
  | cons n ns ih =>
    rw [cons_append, statementsOf, statementsOf]
    cases statements t line n with
    | error e => rfl
    | ok head =>
      obtain ⟨first, between⟩ := head
      simp only [bind, Except.bind, pure, Except.pure, ih]
      cases statementsOf t between ns with
      | error e => rfl
      | ok middle =>
        obtain ⟨second, after⟩ := middle
        simp only
        cases statementsOf t after ms with
        | error e => rfl
        | ok last => simp

theorem statementsOf_spliced (t : Target) (line : Nat) (n : Node) :
    statementsOf t line (spliced n) = statements t line n := by
  have single : statementsOf t line [n] = statements t line n := by
    rw [statementsOf]
    cases statements t line n with
    | error e => rfl
    | ok found => simp [statementsOf, bind, Except.bind, pure, Except.pure]
  cases n with
  | group g children =>
    cases g with
    | seq => rfl
    | attrs => exact single
  | leaf | frame | tag => exact single

theorem statementsOf_flatMap_spliced (t : Target) (line : Nat) (ns : List Node) :
    statementsOf t line (ns.flatMap spliced) = statementsOf t line ns := by
  induction ns generalizing line with
  | nil => rfl
  | cons n ns ih =>
    rw [flatMap_cons, statementsOf_append_eq, statementsOf_spliced, statementsOf]
    simp only [ih]
    rfl

variable {ns ms : List Node}

theorem statementsOf_congr (t : Target)
    (same : List.Forall₂ (fun n m => ∀ line, statements t line n = statements t line m) ns ms)
    (line : Nat) : statementsOf t line ns = statementsOf t line ms := by
  induction same generalizing line with
  | nil => rfl
  | cons first _ ih =>
    rw [statementsOf, statementsOf, first]
    simp only [ih]

/-- What flattening keeps: the kinds of nodes, the names of captures and all statements. -/
structure Flattens (n m : Node) : Prop where
  core : IsCore m
  names : m.captureNames = n.captureNames
  statements (t : Target) (line : Nat) : statements t line n = statements t line m

theorem Flattens.all (flat : List.Forall₂ Flattens ns ms) :
    (∀ m ∈ ms, IsCore m) ∧ captureNamesOf ms = captureNamesOf ns := by
  induction flat with
  | nil => exact ⟨fun _ mem => (nomatch mem), rfl⟩
  | cons first _ ih =>
    refine ⟨forall_mem_cons.mpr ⟨first.core, ih.1⟩, ?_⟩
    rw [captureNamesOf, captureNamesOf, first.names, ih.2]

theorem flattened_flattens {n : Node} (core : IsCore n) :
    ∃ m, n.flattened = .ok m ∧ Flattens n m := by
  refine Yields.exists_ok ?_
  induction core with
  | newline => exact ⟨.newline, rfl, fun _ _ => rfl⟩
  | static text => exact ⟨.static text, rfl, fun _ _ => rfl⟩
  | dynamic source => exact ⟨.dynamic source, rfl, fun _ _ => rfl⟩
  | code source => exact ⟨.code source, rfl, fun _ _ => rfl⟩
  | block _ ih =>
    rw [flattened]
    refine ih.bind fun body flat => ?_
    exact ⟨.block flat.core, flat.names,
      fun t line => by rw [statements, statements, flat.statements]⟩
  | capture name _ ih =>
    rw [flattened]
    refine ih.bind fun body flat => ?_
    refine ⟨.capture name flat.core, congrArg (name :: ·) flat.names, fun t line => ?_⟩
    rw [statements, statements]
    simp only [flat.statements]
  | seq _ ih =>
    rw [flattened, flattenedAll_eq]
    refine (Yields.mapM ih).bind fun ms flat => ?_
    obtain ⟨cores, names⟩ := Flattens.all flat
    refine ⟨.seq ?_, ?_, fun t line => ?_⟩
    · intro m mem
      obtain ⟨n, found, inside⟩ := mem_flatMap.mp mem
      exact isCore_spliced (cores n found) m inside
    · exact (captureNamesOf_flatMap_spliced ms).trans names
    · rw [statements, statements, statementsOf_flatMap_spliced]
      exact statementsOf_congr t (flat.imp fun n m here => here.statements t) line

/-! ## Joining -/

/-- The statement that puts out a text; there is none for an empty text. -/
def textOf (t : Target) (text : Text) (line : Nat) : List Stmt :=
  if text.isEmpty then [] else [.plain (.literal t.buffer text) line]

section Joining

variable {t : Target}

theorem statements_static (oneLine : '\n' ∉ t.buffer) (text : Text) (line : Nat) :
    statements t line (.static text) = .ok (textOf t text line, line) := by
  rw [statements, Target.emit, Form.extraLines_literal, count_eq_zero_of_not_mem oneLine, textOf]
  cases text.isEmpty with
  | true | false => rfl

theorem statementsOf_newlines (count line : Nat) :
    statementsOf t line (List.replicate count .newline) = .ok ([], line + count) := by
  induction count generalizing line with
  | zero => rfl
  | succ count ih =>
    rw [replicate_succ, statementsOf, statements]
    simp only [bind, Except.bind, ih, pure, Except.pure, append_nil]
    rw [Nat.add_right_comm, Nat.add_assoc]

theorem statementsOf_nodes (oneLine : '\n' ∉ t.buffer) (r : Run) (line : Nat) :
    statementsOf t line r.nodes = .ok (textOf t (r.text?.getD []) line, line + r.marks) := by
  obtain ⟨text?, marks⟩ := r
  have marked := statementsOf_newlines (t := t) marks line
  cases text? with
  | none => exact marked
  | some text =>
    cases text with
    | nil => exact marked
    | cons c text =>
      show statementsOf t line (.static (c :: text) :: List.replicate marks .newline) = _
      rw [statementsOf, statements_static oneLine]
      simp only [bind, Except.bind, marked, pure, Except.pure, append_nil, Option.getD_some]

variable {line line' : Nat} {text : Text} {n body : Node} {ns : List Node} {r : Run}

theorem joins_textOf {front back : Text} {ss ss' : List Stmt}
    (joins : ∀ line, Stmt.Joins (textOf t (front ++ back) line ++ ss) ss') :
    Stmt.Joins (textOf t front line ++ (textOf t back line' ++ ss)) ss' := by
  cases front with
  | nil => exact joins line'
  | cons c front =>
    cases back with
    | nil => simpa [textOf] using joins line
    | cons d back => exact (joins line).split line'

theorem joins_moved {ss ss' : List Stmt} (joins : Stmt.Joins ss ss') :
    Stmt.Joins (textOf t text line ++ ss) (textOf t text line' ++ ss') := by
  cases text with
  | nil => exact joins
  | cons c text => exact joins.moved _ _ _ _

theorem statementsOf_cons {between after : Nat} {first rest : List Stmt}
    (head : statements t line n = .ok (first, between))
    (tail : statementsOf t between ns = .ok (rest, after)) :
    statementsOf t line (n :: ns) = .ok (first ++ rest, after) := by
  rw [statementsOf, head]
  simp only [bind, Except.bind, tail, pure, Except.pure]

/-- The statements of a tree and of the joined tree. -/
def Written (t : Target) (n : Node) : Prop :=
  ∃ m, n.joined = .ok m ∧ ∀ line, ∃ body body' after, statements t line n = .ok (body, after) ∧
    statements t line m = .ok (body', after) ∧ Stmt.Joins body body'

/-- The statements of a sequence after a run of texts. The line marks of the run stand in front of
the sequence, and in the joined tree behind the text of the run. -/
def WrittenAfter (t : Target) (r : Run) (ns : List Node) : Prop :=
  ∃ ms, joinedSeq r ns = .ok ms ∧ ∀ line line', ∃ body body' after,
    statementsOf t (line + r.marks) ns = .ok (body, after) ∧
    statementsOf t line ms = .ok (body', after) ∧
      Stmt.Joins (textOf t (r.text?.getD []) line' ++ body) body'

theorem writtenAfter_nil (oneLine : '\n' ∉ t.buffer) (r : Run) : WrittenAfter t r [] := by
  refine ⟨r.nodes, rfl, fun line line' => ⟨[], _, _, rfl, statementsOf_nodes oneLine r line, ?_⟩⟩
  have moved : Stmt.Joins (textOf t (r.text?.getD []) line' ++ [])
    (textOf t (r.text?.getD []) line ++ []) :=
    joins_moved .nil
  simpa using moved

theorem writtenAfter_static (oneLine : '\n' ∉ t.buffer)
    (written : WrittenAfter t (r.addText text) ns) : WrittenAfter t r (.static text :: ns) := by
  obtain ⟨ms, joined, lines⟩ := written
  refine ⟨ms, joined, fun line line' => ?_⟩
  obtain ⟨body, body', after, first, second, _⟩ := lines line 0
  refine ⟨_, body', after, statementsOf_cons (statements_static oneLine text _) first, second, ?_⟩
  refine joins_textOf fun line' => ?_
  obtain ⟨_, _, _, first', second', joins⟩ := lines line line'
  cases first.symm.trans first'
  cases second.symm.trans second'
  exact joins

theorem writtenAfter_newline (text : r.text?.isSome)
    (written : WrittenAfter t { r with marks := r.marks + 1 } ns) :
    WrittenAfter t r (.newline :: ns) := by
  obtain ⟨ms, joined, lines⟩ := written
  refine ⟨ms, by rw [joinedSeq, if_pos text, joined], fun line line' => ?_⟩
  obtain ⟨body, body', after, first, second, joins⟩ := lines line line'
  refine ⟨body, body', after, ?_, second, joins⟩
  show statementsOf t (line + r.marks) (.newline :: ns) = .ok ([] ++ body, after)
  exact statementsOf_cons rfl first

theorem writtenAfter_node (oneLine : '\n' ∉ t.buffer) (here : Written t n)
    (ends : joinedSeq r (n :: ns) =
      (n.joined >>= fun m => joinedSeq {} ns >>= fun ms => .ok (r.nodes ++ m :: ms)))
    (written : WrittenAfter t {} ns) : WrittenAfter t r (n :: ns) := by
  obtain ⟨m, joinedHere, linesHere⟩ := here
  obtain ⟨ms, joined, lines⟩ := written
  refine ⟨r.nodes ++ m :: ms, by rw [ends, joinedHere, joined]; rfl, fun line line' => ?_⟩
  obtain ⟨body, body', between, first, first', joins⟩ := linesHere (line + r.marks)
  obtain ⟨rest, rest', after, second, second', joinsRest⟩ := lines between line'
  refine ⟨body ++ rest, textOf t (r.text?.getD []) line ++ (body' ++ rest'), after,
    statementsOf_cons first second, ?_, joins_moved (joins.append joinsRest)⟩
  exact statementsOf_append (statementsOf_nodes oneLine r line) (statementsOf_cons first' second')

theorem writtenAfter (oneLine : '\n' ∉ t.buffer) (each : ∀ n ∈ ns, IsCore n ∧ Written t n)
    (r : Run) : WrittenAfter t r ns := by
  induction ns generalizing r with
  | nil => exact writtenAfter_nil oneLine r
  | cons n ns ih =>
    obtain ⟨⟨core, here⟩, others⟩ := forall_mem_cons.mp each
    cases core with
    | static text => exact writtenAfter_static oneLine (ih others _)
    | newline =>
      cases text : r.text?.isSome with
      | true => exact writtenAfter_newline text (ih others _)
      | false => exact writtenAfter_node oneLine here (by rw [joinedSeq, text]; rfl) (ih others _)
    | _ => exact writtenAfter_node oneLine here rfl (ih others _)

theorem written_block (here : Written t body) : Written t (.block body) := by
  obtain ⟨m, joined, lines⟩ := here
  refine ⟨.block m, by rw [Node.joined, joined]; rfl, fun line => ?_⟩
  obtain ⟨ss, ss', after, first, second, joins⟩ := lines line
  refine ⟨suiteOf ss after, suiteOf ss' after, after, ?_, ?_, joins.suiteOf after⟩
  · rw [statements, first]; rfl
  · rw [statements, second]; rfl

theorem written_capture {name : Text} (here : Written { t with buffer := name } body) :
    Written t (.capture name body) := by
  obtain ⟨m, joined, lines⟩ := here
  refine ⟨.capture name m, by rw [Node.joined, joined]; rfl, fun line => ?_⟩
  obtain ⟨ss, ss', between, first, second, joins⟩ := lines (t.emit (.begin name) line).2
  refine ⟨(t.emit (.begin name) line).1 ++ ss ++ (t.emit (.finish name) between).1,
    (t.emit (.begin name) line).1 ++ ss' ++ (t.emit (.finish name) between).1,
    (t.emit (.finish name) between).2, ?_, ?_, ?_⟩
  · rw [statements]
    simp only [first, bind, Except.bind, pure, Except.pure]
  · rw [statements]
    simp only [second, bind, Except.bind, pure, Except.pure]
  · exact .append (.plain _ _ joins) (.plain _ _ .nil)

end Joining

theorem statements_joined {n : Node} (core : IsCore n)
    (names : ∀ name ∈ n.captureNames, '\n' ∉ name)
    {t : Target} (oneLine : '\n' ∉ t.buffer) : Written t n := by
  induction core generalizing t with
  | newline => exact ⟨.newline, rfl, fun line => ⟨[], [], line + 1, rfl, rfl, .nil⟩⟩
  | static text =>
    refine ⟨.static text, rfl, fun line => ?_⟩
    have written := statements_static oneLine text line
    exact ⟨_, _, line, written, written, by simpa using joins_moved (t := t) .nil⟩
  | dynamic source => exact ⟨.dynamic source, rfl, fun line => ⟨_, _, _, rfl, rfl, .plain _ _ .nil⟩⟩
  | code source => exact ⟨.code source, rfl, fun line => ⟨_, _, _, rfl, rfl, .plain _ _ .nil⟩⟩
  | block _ ih => exact written_block (ih names oneLine)
  | capture name _ ih =>
    obtain ⟨here, inside⟩ := forall_mem_cons.mp names
    exact written_capture (ih inside here)
  | @seq children cores ih =>
    have each : ∀ n ∈ children, IsCore n ∧ Written t n := fun n mem =>
      ⟨cores n mem, ih n mem (fun name named => names name (mem_captureNamesOf mem named)) oneLine⟩
    obtain ⟨ms, joined, lines⟩ := writtenAfter oneLine each {}
    refine ⟨.seq ms, by rw [Node.joined, joined]; rfl, fun line => ?_⟩
    exact lines line 0

end Program

end MarkupTemplate
