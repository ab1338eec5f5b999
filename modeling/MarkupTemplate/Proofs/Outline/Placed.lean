import MarkupTemplate.Proofs.Outline.Depth
import MarkupTemplate.Proofs.Outline.Measured

/-!
# Where faults are found

Whatever is read from a place in a line leaves a place in the same line, or a fault there. Only a
code that is still broken at the end of the template is reported below the last line, in a line that
is empty. A list of attributes keeps the place where its last line was left, where it is reported as
unclosed if the template ends.
-/

namespace MarkupTemplate

open List

/-! ## Places -/

/-- How many blanks a line starts with. -/
def Text.margin (line : Text) : Nat :=
  (line.takeWhile isBlank).length

theorem Text.margin_add_length (line : Text) :
    margin line + (trimLeft line).length = line.length := by
  rw [margin, trimLeft, ← length_append, takeWhile_append_dropWhile]

namespace Spot

/-- A place in one of some lines, behind its margin. -/
structure Placed (lines : List Text) (s : Spot) : Prop where
  positive : 1 ≤ s.number
  line : lines[s.number - 1]? = some s.line
  column : Text.margin s.line ≤ s.column

variable {lines : List Text} {s : Spot}

theorem Placed.advance (placed : Placed lines s) (n : Nat) : Placed lines (s.advance n) := by
  refine ⟨placed.positive, ?_, ?_⟩
  · rw [line_advance, number_advance, placed.line]
  · rw [line_advance]
    refine Nat.le_trans placed.column ?_
    simp [Spot.column, Spot.advance]

theorem Placed.scan? {α : Type} {p : Scan α} {found : α} {s' : Spot} (placed : Placed lines s)
    (scanned : s.scan? p = some (found, s')) : Placed lines s' := by
  unfold Spot.scan? at scanned
  split at scanned
  next => nomatch scanned
  next =>
    cases scanned
    exact placed.advance _

theorem placed_start {number : Nat} {line : Text} (found : lines[number]? = some line) :
    Placed lines (start (number + 1) line).skipBlanks := by
  refine ⟨Nat.le_add_left .., ?_, ?_⟩
  · rw [line_skipBlanks, line_start]
    exact found
  · rw [line_skipBlanks, line_start]
    simp [Text.margin, Spot.column, Spot.skipBlanks, Spot.advance, start, ← prefix_iff_eq_take.mp
      ( takeWhile_prefix Text.isBlank)]

theorem column_le (s : Spot) : s.column ≤ s.line.length := by
  simp [Spot.column, Spot.line]

end Spot

def Fault.Placed (lines : List Text) (fault : Fault) : Prop :=
  fault.spot.Placed lines

open Spot (Placed)

variable {lines : List Text} {s : Spot}

theorem Spot.parallel_placed (lines : List Text) :
    Spot.Parallel fun s s' => s = s' ∧ Placed lines s where
  rest_eq := fun here => congrArg Spot.rest here.1
  advance := fun here n => ⟨congrArg (·.advance n) here.1, here.2.advance n⟩

theorem Spot.Beyond.placed {α : Type} {found : α × Spot}
    (beyond : Spot.Beyond (fun s s' => s = s' ∧ Placed lines s) found found) :
    Placed lines found.2 := by
  cases beyond with
  | found _ _ _ left => exact left.2

theorem Attribute.readEntry_placed (placed : Placed lines s) (form : ListForm) :
    Yields (fun r => Placed lines r.2) (Fault.Placed lines) (readEntry form s) :=
  (readEntry_parallel (Spot.parallel_placed lines) ⟨rfl, placed⟩ form).yields.mono
    (fun _ => Spot.Beyond.placed)
    fun _ there => there

theorem Attribute.readShortcuts_placed (entries : List Node) (placed : Placed lines s) :
    Placed lines (readShortcuts entries s).2 :=
  (readShortcuts_parallel (Spot.parallel_placed lines) entries ⟨rfl, placed⟩).placed

/-! ## Lines -/

namespace Outline

/-- A list that is unfinished was left at a place in one of some lines. -/
def Pending.Placed (lines : List Text) : Pending → Prop
  | .attributes _ _ left _ _ => left.Placed lines
  | _ => True

def State.Placed (lines : List Text) (number : Nat) (s : State) : Prop :=
  s.number = number ∧ s.pending.Placed lines

theorem number_finishText (state : State) (block : TextBlock) (use : TextUse) :
    (state.finishText block use).number = state.number := by
  cases use with
  | embedded | comment | tag => rfl

theorem State.parallel_iff_placed {number : Nat} {state : State} :
    State.Parallel (fun s s' => s = s' ∧ s.Placed lines) Eq number number state state ↔
    state.Placed lines number := by
  obtain ⟨counted, layout, pending⟩ := state
  constructor
  · rintro ⟨same, -, -, pendings⟩
    refine ⟨same, ?_⟩
    cases pendings with
    | attributes _ _ _ _ here => exact here.2
    | _ => trivial
  · rintro ⟨same, placed⟩
    refine ⟨same, same, rfl, ?_⟩
    cases pending with
    | attributes => exact .attributes _ _ _ _ ⟨rfl, placed⟩
    | _ => constructor

theorem step_placed (o : Options) {number : Nat} {state : State} {line : Text}
    (placed : state.Placed lines number) (found : lines[number]? = some line) :
    Yields (State.Placed lines (number + 1)) (Fault.Placed lines) (step o state line) :=
  (step_parallel (Spot.parallel_placed lines) Layout.steady_eq rfl
    (State.parallel_iff_placed.mpr placed)
    ⟨rfl, Spot.placed_start found⟩).yields.mono (fun _ => State.parallel_iff_placed.mp) fun _
      there => there

/-! ## Whole templates -/

theorem run_placed (o : Options) {front lines : List Text} {state : State}
    (placed : state.Placed (front ++ lines) front.length) :
    Yields (State.Placed (front ++ lines) (front ++ lines).length) (Fault.Placed (front ++ lines))
      (lines.foldlM (step o) state) := by
  induction lines generalizing front state with
  | nil =>
    rw [append_nil] at placed ⊢
    exact placed
  | cons line lines ih =>
    have found : (front ++ line :: lines)[front.length]? = some line := by
      rw [getElem?_append_right le_rfl, Nat.sub_self]
      rfl
    rw [foldlM_cons]
    refine (step_placed o placed found).bind fun next there => ?_
    rw [append_cons] at there ⊢
    refine ih ?_
    rwa [length_append]

/-- A fault of a template of some lines: at a place in one of them, or below the last one. -/
def IsFault (lines : List Text) (fault : Fault) : Prop :=
  fault.Placed lines ∨ lines ≠ [] ∧ fault = ⟨.unexpectedEnd, .start lines.length []⟩

theorem ofLines_yields (o : Options) (lines : List Text) :
    Yields (fun n => ∃ children, n = .seq children) (IsFault lines) (ofLines o lines) := by
  cases lines with
  | nil => exact ⟨[], rfl⟩
  | cons line lines =>
    have run : Yields (State.Placed (line :: lines) (line :: lines).length)
      (Fault.Placed (line :: lines))
        ((line :: lines).foldlM (step o) {}) := @run_placed o [] (line :: lines) {} ⟨rfl, trivial⟩
    refine (run.mono (fun _ there => there) fun _ there => .inl there).bind fun state there => ?_
    obtain ⟨number, layout, pending⟩ := state
    obtain ⟨counted, left⟩ := there
    cases pending with
    | nothing | silent | text block use => exact ⟨_, rfl⟩
    | attributes form entries spot name extraLines => exact .inl left
    | code code use => exact .inr ⟨nofun, by rw [← counted]⟩

theorem IsFault.number {lines : List Text} {fault : Fault} (isFault : IsFault lines fault) :
    1 ≤ fault.spot.number ∧ fault.spot.number ≤ lines.length := by
  rcases isFault with placed | ⟨filled, rfl⟩
  · obtain ⟨below, _⟩ := List.getElem?_eq_some_iff.mp placed.line
    have positive := placed.positive
    omega
  · exact ⟨length_pos_iff.mpr filled, le_rfl⟩

theorem IsFault.column {lines : List Text} {fault : Fault} (isFault : IsFault lines fault) :
    Text.margin fault.spot.line ≤ fault.spot.column := by
  rcases isFault with placed | ⟨_, rfl⟩
  · exact placed.column
  · exact le_rfl

end Outline

/-! ## Reports -/

/-- A report shows the line without its margin, and below it the caret under the column. -/
theorem Report.text_eq (r : Report) (column : Text.margin r.line ≤ r.column) :
    ∃ front, r.text = front ++ "\n    " ++ Text.trimLeft r.line ++ "\n    " ++
      Text.spaces (r.column - Text.margin r.line) ++ "^\n" := by
  have parts := Text.margin_add_length r.line
  have caret : r.column + (Text.trimLeft r.line).length - r.line.length = r.column -
      Text.margin r.line := by
    omega
  refine ⟨r.message ++ "\n  " ++ r.file ++ ", Line " ++ Text.ofNat r.number
    ++ ", Column " ++ Text.ofNat r.column, ?_⟩
  rw [Report.text, caret]

/-- Every template is read into a sequence, or refused with a report, or cannot be measured because
tab stops are too far apart. The number in the report is that of one of its lines, and the line in
it is that line, with a column between its margin and its end, unless the template ends too early;
then it is empty. So the caret stands under the line as it is shown, or just behind it. A line makes
room for itself in `s.settled` (`step_of_ink`), and never by closing the outermost container. -/
theorem Source.tree_or_report (o : Options) (t : Text) :
    ((∃ children, (Source.text t).tree o = .ok (.seq children)) ∨
      (Source.text t).tree o = .error .tabOverflow ∨
      ∃ report, (Source.text t).tree o = .error (.template report) ∧
        1 ≤ report.number ∧ report.number ≤ (Source.lines t).length ∧
        ((report.message = "Unexpected end of file" ∧ report.line = [] ∧ report.column = 0) ∨
          ((Source.lines t)[report.number - 1]? = some report.line ∧
            (report.line.takeWhile Text.isBlank).length ≤ report.column ∧
            report.column ≤ report.line.length)) ∧
        ∃ front caret, report.text = front ++ "\n    " ++ Text.trimLeft report.line ++
            "\n    " ++ Text.spaces caret ++ "^\n" ∧
          caret ≤ (Text.trimLeft report.line).length) ∧
    ((Source.text t).tree o = .error .tabOverflow ↔
      2147483648 ≤ o.tabSize ∧ ∃ line ∈ Source.lines t, Text.allBlank line = false) ∧
    ∀ before rest s, Source.lines t = before ++ rest → before.foldlM (Outline.step o) {} = .ok s →
      ∀ w, s.settled.enter? w = some (s.settled.enter w) := by
  have yields : Yields (fun n => ∃ children, n = .seq children) (Outline.IsFault (Source.lines t))
      (Outline.ofSource o t) := Outline.ofLines_yields o (Source.lines t)
  refine ⟨?_, Source.tree_eq_tabOverflow_iff.trans Outline.measurable_eq_false_iff, ?_⟩
  · rw [Source.tree_text]
    split
    next =>
      cases read : Outline.ofSource o t with
      | ok n =>
        obtain ⟨children, rfl⟩ := yields.of_ok read
        exact .inl ⟨children, rfl⟩
      | error fault =>
        have isFault := yields.of_error read
        obtain ⟨positive, below⟩ := isFault.number
        obtain ⟨front, shown⟩ := (fault.report o).text_eq isFault.column
        refine .inr (.inr ⟨fault.report o, rfl, positive, below, ?_, front, _, shown, ?_⟩)
        · rcases isFault with placed | ⟨_, rfl⟩
          · exact .inr ⟨placed.line, placed.column, fault.spot.column_le⟩
          · exact .inl ⟨rfl, rfl, rfl⟩
        · have column : (fault.report o).column ≤ (fault.report o).line.length :=
            fault.spot.column_le
          have parts := Text.margin_add_length (fault.report o).line
          omega
    next => exact .inr (.inl rfl)
  · intro before rest s lines run w
    have plain : ∀ line ∈ before, '\n' ∉ line := fun line mem =>
      Source.not_mem_of_mem_lines (lines ▸ mem_append_left rest mem)
    exact Layout.enter?_eq (Outline.sound_of_run plain run).2.settled.2 w

/-- Where tab stops are too far apart, not even a text without tabs is read. -/
theorem Source.tree_far_tabs :
    (Source.text "a").tree { tabSize := 2147483648 } = .error .tabOverflow :=
  Source.tree_eq_tabOverflow_iff.mpr (by decide)

end MarkupTemplate
