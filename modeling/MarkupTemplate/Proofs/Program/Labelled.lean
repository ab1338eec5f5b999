import MarkupTemplate.Proofs.Program.Optimized

/-!
# Labelled programs

The label of a template stands in the first line of its program and nowhere else, so the program and
its line map go on alike under every label (`ofTree_relabelled`). The map has an entry for each line
as long as the label stays on its line: what follows a line feed in it is a line that the map does
not count (`ofTree_broken_label`).
-/

namespace MarkupTemplate

open List

/-! ## Printed lines -/

theorem Text.split_flatMap_feed {lines : List Text} (plain : ∀ line ∈ lines, '\n' ∉ line) :
    split '\n' (lines.flatMap (· ++ ['\n'])) = lines ++ [[]] := by
  induction lines with
  | nil => rfl
  | cons line lines ih =>
    rw [forall_mem_cons] at plain
    rw [flatMap_cons, append_assoc, singleton_append, split_append, split_of_not_mem plain.1,
      ih plain.2]
    rfl

namespace Stmt

variable {strategy : Strategy} {l : PrintedLine}

mutual

theorem feed_not_mem_printed {level : Nat} {s : Stmt} (mem : l ∈ printed strategy level s) :
    '\n' ∉ l.1 := by
  cases s with
  | plain form line =>
    rw [printed] at mem
    obtain ⟨part, among, rfl⟩ := mem_map.mp mem
    exact Text.feed_not_mem_append (by simp [margin, Text.spaces]) (Text.not_mem_of_mem_split among)
  | suite body =>
    rw [printed] at mem
    exact feed_not_mem_printedAll mem

theorem feed_not_mem_printedAll {level : Nat} {ss : List Stmt}
    (mem : l ∈ printedAll strategy level ss) : '\n' ∉ l.1 := by
  cases ss with
  | nil => nomatch mem
  | cons s ss =>
    rw [printedAll] at mem
    rcases mem_append.mp mem with here | there
    · exact feed_not_mem_printed here
    · exact feed_not_mem_printedAll there

end

end Stmt

/-! ## Programs under a label -/

namespace Program

open Node

theorem count_banner (p : Program) : p.banner.count '\n' = (p.file.getD []).count '\n' := by
  have label : ∃ front, p.banner = front ++ p.file.getD [] ∧ '\n' ∉ front := by
    obtain ⟨file, strategy, body⟩ := p
    match file with
    | none | some [] => exact ⟨"# Generated by hamlc", rfl, by decide⟩
    | some (c :: file) =>
      exact ⟨"# Generated by hamlc" ++ " from ", (append_assoc ..).symm, by decide⟩
  obtain ⟨front, whole, plain⟩ := label
  rw [whole, count_append, count_eq_zero_of_not_mem plain, Nat.zero_add]

/-- The lines of a program behind its first one. -/
def laterLines (p : Program) : List Text :=
  p.opening.tail ++ p.lines.map (·.1) ++ [p.closing]

theorem feed_not_mem_laterLines (p : Program) : ∀ line ∈ p.laterLines, '\n' ∉ line := by
  have opening : ∀ strategy, '\n' ∉ buffer ++ " = " ++ Form.emptyBuffer strategy := by
    intro strategy
    cases strategy <;> decide
  have closing : '\n' ∉ p.closing :=
    Text.feed_not_mem_append (by decide) (Form.feed_not_mem_wholeBuffer (by decide))
  have statements : ∀ line ∈ p.lines.map (·.1), '\n' ∉ line := by
    intro line mem
    obtain ⟨l, among, rfl⟩ := mem_map.mp mem
    exact Stmt.feed_not_mem_printedAll among
  simp only [laterLines, Program.opening, tail_cons, forall_mem_append, forall_mem_cons]
  exact ⟨⟨⟨by simp, opening _, nofun⟩, statements⟩, closing, nofun⟩

theorem split_source (p : Program) :
    Text.split '\n' p.source = Text.split '\n' p.banner ++ (p.laterLines ++ [[]]) := by
  have whole : p.source = p.banner ++ '\n' :: p.laterLines.flatMap (· ++ ['\n']) := by
    rw [source, laterLines, opening]
    simp
  rw [whole, Text.split_append, Text.split_flatMap_feed p.feed_not_mem_laterLines]

theorem length_lineMap (p : Program) : p.lineMap.length = p.laterLines.length + 1 := by
  simp [lineMap, laterLines, opening]

theorem exists_statements {n : Node} (core : n.IsCore) (t : Target) (line : Nat) :
    ∃ r, statements t line n = .ok r := by
  induction core generalizing t line with
  | newline | static | dynamic | code => exact ⟨_, rfl⟩
  | block _ ih =>
    obtain ⟨r, written⟩ := ih t line
    rw [statements, written]
    exact ⟨_, rfl⟩
  | capture name _ ih =>
    obtain ⟨r, written⟩ := ih { t with buffer := name } (t.emit (.begin name) line).2
    rw [statements]
    simp only [written]
    exact ⟨_, rfl⟩
  | @seq children each ih =>
    rw [statements]
    clear each
    induction children generalizing line with
    | nil => exact ⟨_, rfl⟩
    | cons n ns others =>
      rw [forall_mem_cons] at ih
      obtain ⟨r, written⟩ := ih.1 t line
      obtain ⟨r', rest⟩ := others ih.2 r.2
      rw [statementsOf, written]
      simp only [bind, Except.bind, rest]
      exact ⟨_, rfl⟩

/-- The programs of a tree under all labels have one line map, and the same lines behind the label.
These are the lines behind the first, as many as entries, exactly if the label has no line feed. -/
theorem ofTree_relabelled (o : Options) {n : Node} (core : n.IsCore) :
    ∃ (map : List Nat) (later : List Text), ∀ file :
    Option Text, ∃ p, ofTree { o with file } n = .ok p ∧
      p.lineMap = map ∧ Text.split '\n' p.source = Text.split '\n' p.banner ++ later ∧
      p.source.count '\n' = map.length + (file.getD []).count '\n' ∧
      ((Text.split '\n' p.source).tail = later ↔ '\n' ∉ file.getD []) := by
  obtain ⟨⟨body, after⟩, written⟩ := exists_statements core ⟨o.generator, buffer⟩ 1
  refine ⟨lineMap ⟨none, o.generator, body⟩, laterLines ⟨none, o.generator, body⟩ ++ [[]],
    fun file => ?_⟩
  refine ⟨⟨file, o.generator, body⟩, by rw [ofTree, written]; rfl, rfl, split_source _, ?_⟩
  have first := Text.length_split '\n' (banner ⟨file, o.generator, body⟩)
  have whole := Text.length_split '\n' (source ⟨file, o.generator, body⟩)
  rw [count_banner] at first
  rw [split_source, length_append, first, length_append, length_singleton] at whole
  constructor
  · have entries := length_lineMap ⟨none, o.generator, body⟩
    have alike : laterLines ⟨file, o.generator, body⟩ = laterLines ⟨none, o.generator, body⟩ := rfl
    rw [alike] at whole
    dsimp only at whole
    omega
  · rw [split_source, ← count_eq_zero]
    cases lines : Text.split '\n' (banner ⟨file, o.generator, body⟩) with
    | nil => exact absurd lines (Text.split_ne_nil _ _)
    | cons line more =>
      rw [lines, length_cons, Nat.add_right_cancel_iff] at first
      rw [← first, length_eq_zero_iff, cons_append, tail_cons]
      exact append_left_eq_self

theorem ofTree_relabelled_page : mixedTree.IsCore ∧ ∃ p p', ofTree {} mixedTree = .ok p ∧
    ofTree { file := some "page" } mixedTree = .ok p' ∧ p.lineMap = p'.lineMap ∧
    (Text.split '\n' p.source).tail = (Text.split '\n' p'.source).tail := by
  obtain ⟨map, later, each⟩ := ofTree_relabelled {} mixedTree_isCore
  obtain ⟨p, written, sameMap, _, _, same⟩ := each none
  obtain ⟨p', written', sameMap', _, _, same'⟩ := each (some "page")
  exact ⟨mixedTree_isCore, p, p', written, written', sameMap.trans sameMap'.symm,
    (same.mpr (by decide)).trans (same'.mpr (by decide)).symm⟩

/-- What follows a line feed in a label is a line of the program that the map does not count. -/
theorem ofTree_broken_label :
    (ofTree { file := some "a\nx = 1" } (.seq [])).map (fun p => (p.source, p.lineMap)) = .ok
    ("# Generated by hamlc from a\nx = 1\n\n_hamlc_buf = []\n_hamlc_result = ''.join(_hamlc_buf)\n",
      [0, 0, 0, 0]) := by
  decide

end Program

end MarkupTemplate
