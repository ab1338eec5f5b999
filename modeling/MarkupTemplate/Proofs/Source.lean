import Mathlib.Data.List.Basic
import MarkupTemplate.Outline

/-!
# Lines of a template

The lines of two templates with a line feed in between are those of the one and then those of the
other, but for two things. The first may end in a carriage return, which then belongs to the line
feed; and the second may start with a byte order mark, which is a mark only at the very beginning.
-/

namespace MarkupTemplate

open List

namespace Text

variable {sep c : Char} {t part last : Text} {parts : List Text}

theorem split_cons_of_ne (different : c ≠ sep) (t : Text) :
    ∃ part parts, split sep t = part :: parts ∧ split sep (c :: t) = (c :: part) :: parts := by
  cases rest : split sep t with
  | nil => exact absurd rest (split_ne_nil sep t)
  | cons part parts =>
    refine ⟨part, parts, rfl, ?_⟩
    simp [split, different, rest]

theorem split_append (sep : Char) (s t : Text) :
    split sep (s ++ sep :: t) = split sep s ++ split sep t := by
  induction s with
  | nil => simp [split]
  | cons c s ih =>
    by_cases same : c = sep
    · subst same
      simp [split, ih]
    · obtain ⟨part, parts, whole, longer⟩ := split_cons_of_ne same s
      rw [cons_append, longer]
      simp [split, same, ih, whole]

/-- Where two texts meet, the last part of the one and the first part of the other are one part. -/
theorem split_append_eq (sep : Char) (s t : Text) :
    split sep (s ++ t) =
      (split sep s).dropLast ++ ((split sep s).getLastD [] ++ (split sep t).headD []) ::
        (split sep t).tail := by
  induction s with
  | nil =>
    cases rest : split sep t with
    | nil => exact absurd rest (split_ne_nil sep t)
    | cons part parts => simp [split, rest]
  | cons c s ih =>
    by_cases same : c = sep
    · subst same
      cases rest : split c s with
      | nil => exact absurd rest (split_ne_nil c s)
      | cons part parts => simp [split, ih, rest]
    · obtain ⟨part, parts, whole, longer⟩ := split_cons_of_ne same s
      rw [whole] at ih
      rw [longer, cons_append, split, if_neg same, ih]
      cases parts with
      | nil | cons next parts => simp

theorem length_split (sep : Char) (t : Text) : (split sep t).length = t.count sep + 1 := by
  induction t with
  | nil => rfl
  | cons c t ih =>
    by_cases same : c = sep
    · subst same
      simp [split, ih]
    · obtain ⟨part, parts, whole, longer⟩ := split_cons_of_ne same t
      rw [longer, count_cons_of_ne (by simpa using same)]
      rw [whole] at ih
      simpa using ih

theorem not_mem_of_mem_split (mem : part ∈ split sep t) : sep ∉ part := by
  induction t generalizing part with
  | nil =>
    simp only [split, mem_singleton] at mem
    simp [mem]
  | cons c t ih =>
    by_cases same : c = sep
    · simp only [split, same, ↓reduceIte, mem_cons] at mem
      rcases mem with rfl | mem
      · simp
      · exact ih mem
    · obtain ⟨first, parts, whole, longer⟩ := split_cons_of_ne same t
      rw [longer, mem_cons] at mem
      rw [whole] at ih
      rcases mem with rfl | mem
      · simp only [mem_cons, not_or]
        exact ⟨Ne.symm same, ih (.head _)⟩
      · exact ih (.tail _ mem)

theorem joinWith_cons {sep : Text} (more : parts ≠ []) :
    joinWith sep (part :: parts) = part ++ sep ++ joinWith sep parts := by
  cases parts with
  | nil => exact absurd rfl more
  | cons next parts => rfl

theorem joinWith_append {sep : Text} {parts' : List Text} (filled : parts ≠ [])
    (filled' : parts' ≠ []) :
    joinWith sep (parts ++ parts') = joinWith sep parts ++ sep ++ joinWith sep parts' := by
  induction parts with
  | nil => exact absurd rfl filled
  | cons part parts ih =>
    cases parts with
    | nil => exact joinWith_cons filled'
    | cons next parts =>
      have more : next :: parts ≠ [] := nofun
      rw [cons_append, joinWith_cons (by simp), ih more, joinWith_cons more]
      simp only [append_assoc]

theorem joinWith_split (sep : Char) (t : Text) : joinWith [sep] (split sep t) = t := by
  induction t with
  | nil => rfl
  | cons c t ih =>
    by_cases same : c = sep
    · simp only [split, same, ↓reduceIte]
      rw [joinWith_cons (split_ne_nil sep t), ih]
      rfl
    · obtain ⟨part, parts, whole, longer⟩ := split_cons_of_ne same t
      rw [longer]
      rw [whole] at ih
      cases parts with
      | nil => exact congrArg (c :: ·) ih
      | cons next parts =>
        rw [joinWith_cons (by simp)] at ih ⊢
        rw [← ih]
        rfl

theorem split_return (t : Text) : ∃ front last, split '\n' t = front ++ [last] ∧
    split '\n' (t ++ ['\r']) = front ++ [last ++ ['\r']] := by
  induction t with
  | nil => exact ⟨[], [], rfl, rfl⟩
  | cons c t ih =>
    obtain ⟨front, last, without, together⟩ := ih
    by_cases feed : c = '\n'
    · refine ⟨[] :: front, last, ?_, ?_⟩
      · simp [split, feed, without]
      · simp [split, feed, together]
    · cases front with
      | nil =>
        refine ⟨[], c :: last, ?_, ?_⟩
        · simp [split, feed, without]
        · simp [split, feed, together]
      | cons first front =>
        refine ⟨(c :: first) :: front, last, ?_, ?_⟩
        · simp [split, feed, without]
        · simp [split, feed, together]

theorem split_of_not_mem (absent : sep ∉ t) : split sep t = [t] := by
  have one : (split sep t).length = 1 := by
    rw [length_split, count_eq_zero_of_not_mem absent]
  obtain ⟨part, only⟩ := length_eq_one_iff.mp one
  have whole := joinWith_split sep t
  rw [only] at whole ⊢
  exact congrArg (fun t => [t]) whole

theorem split_joinWith (filled : parts ≠ []) (free : ∀ part ∈ parts, sep ∉ part) :
    split sep (joinWith [sep] parts) = parts := by
  induction parts with
  | nil => exact absurd rfl filled
  | cons part parts ih =>
    have here : split sep part = [part] := split_of_not_mem (free part (.head _))
    cases parts with
    | nil => exact here
    | cons next parts =>
      rw [joinWith_cons (by simp), append_assoc, singleton_append, split_append, here,
        ih (by simp) fun part mem => free part (.tail _ mem)]
      rfl

theorem suffix_joinWith {sep : Text} (isLast : parts.getLast? = some last) :
    last <:+ joinWith sep parts := by
  induction parts with
  | nil => nomatch isLast
  | cons part parts ih =>
    cases parts with
    | nil =>
      simp only [getLast?_singleton, Option.some.injEq] at isLast
      rw [isLast]
      exact suffix_refl _
    | cons next parts =>
      rw [getLast?_cons_cons] at isLast
      rw [joinWith_cons (by simp)]
      exact (ih isLast).trans (suffix_append ..)

theorem endsWith_of_endsWith_split (isLast : (split sep t).getLast? = some last)
    (ends : endsWith c last) : endsWith c t := by
  obtain ⟨front, whole⟩ : last <:+ t := by
    rw [← joinWith_split sep t]
    exact suffix_joinWith isLast
  simp only [endsWith, beq_iff_eq] at ends ⊢
  rw [← whole, getLast?_append, ends]
  rfl

end Text

namespace Source

open Text (endsWith)

/-! ## Lines before the empty ones at the end are dropped -/

/-- The lines of a template with the empty ones at its end. -/
def rawLines (source : Text) : List Text :=
  dropReturns (Text.split '\n' (dropOrderMark source))

theorem lines_eq (source : Text) : lines source = dropEmptyEnd (rawLines source) := rfl

def lineCount (source : Text) : Nat :=
  (Text.split '\n' source).length

theorem dropReturns_append {lines lines' : List Text} (more : lines' ≠ []) :
    dropReturns (lines ++ lines') = lines.map dropReturn ++ dropReturns lines' := by
  induction lines with
  | nil => rfl
  | cons line lines ih =>
    rw [cons_append, map_cons, cons_append, ← ih]
    cases rest : lines ++ lines' with
    | nil => exact absurd (append_eq_nil_iff.mp rest).2 more
    | cons next others => rfl

theorem dropReturns_eq_map {lines : List Text}
    (bare : ∀ last, lines.getLast? = some last → endsWith '\r' last = false) :
    dropReturns lines = lines.map dropReturn := by
  induction lines with
  | nil => rfl
  | cons line lines ih =>
    cases lines with
    | nil => simp [dropReturns, dropReturn, bare line rfl]
    | cons next lines =>
      rw [dropReturns, map_cons, ih (by simpa [getLast?_cons_cons] using bare)]
      simp

theorem length_dropReturns (lines : List Text) : (dropReturns lines).length = lines.length := by
  induction lines with
  | nil => rfl
  | cons line lines ih =>
    cases lines with
    | nil => rfl
    | cons next lines => simpa [dropReturns] using ih

theorem dropOrderMark_append_cons {c : Char} (plain : c.toNat ≠ 0xFEFF) (s t : Text) :
    dropOrderMark (s ++ c :: t) = dropOrderMark s ++ c :: t := by
  cases s with
  | nil => simp [dropOrderMark, plain]
  | cons d s =>
    simp only [cons_append, dropOrderMark]
    split <;> rfl

theorem length_rawLines (source : Text) : (rawLines source).length = lineCount source := by
  rw [rawLines, length_dropReturns, lineCount, Text.length_split, Text.length_split]
  cases source with
  | nil => rfl
  | cons c t =>
    simp only [dropOrderMark]
    split
    next mark =>
      rw [count_cons_of_ne]
      rintro rfl
      exact absurd mark (by decide)
    next => rfl

variable {s source line : Text} {k m : Nat}

theorem rawLines_append {t : Text} (bare : endsWith '\r' s = false)
    (unmarked : dropOrderMark t = t) : rawLines (s ++ '\n' :: t) = rawLines s ++ rawLines t := by
  have bareLast : ∀ last, (Text.split '\n' (dropOrderMark s)).getLast? = some last →
      endsWith '\r' last = false := by
    intro last isLast
    by_contra ends
    have ends' := Text.endsWith_of_endsWith_split isLast (by simpa using ends)
    have suffix : dropOrderMark s <:+ s := by
      cases s with
      | nil => exact suffix_refl _
      | cons c s =>
        simp only [dropOrderMark]
        split
        · exact suffix_cons c s
        · exact suffix_refl _
    obtain ⟨front, whole⟩ := suffix
    simp only [endsWith, beq_iff_eq, beq_eq_false_iff_ne, ne_eq] at bare ends'
    rw [← whole, getLast?_append, ends'] at bare
    exact bare rfl
  rw [rawLines, dropOrderMark_append_cons (by decide), Text.split_append,
    dropReturns_append (Text.split_ne_nil _ _), rawLines, dropReturns_eq_map bareLast, rawLines,
    unmarked]

theorem rawLines_append_return (s : Text) {t : Text} (unmarked : dropOrderMark t = t) :
    rawLines (s ++ ['\r'] ++ '\n' :: t) = rawLines s ++ rawLines t := by
  obtain ⟨front, last, without, together⟩ := Text.split_return (dropOrderMark s)
  have dropped : dropReturn (last ++ ['\r']) = last := by simp [dropReturn, endsWith]
  rw [rawLines, dropOrderMark_append_cons (by decide), dropOrderMark_append_cons (by decide),
    Text.split_append, dropReturns_append (Text.split_ne_nil _ _), together, map_append,
    map_singleton, dropped, rawLines, without, dropReturns_append (by simp), rawLines, unmarked]
  rfl

/-- A line feed takes a carriage return from the end of the text in front of it. -/
theorem rawLines_append_dropReturn (s : Text) {t : Text} (unmarked : dropOrderMark t = t) :
    rawLines (s ++ '\n' :: t) = rawLines (dropReturn s) ++ rawLines t := by
  unfold dropReturn
  split
  next ends =>
    obtain ⟨front, rfl⟩ : ∃ front, s = front ++ ['\r'] :=
      getLast?_eq_some_iff.mp (by simpa [endsWith] using ends)
    rw [dropLast_concat]
    exact rawLines_append_return front unmarked
  next bare => exact rawLines_append (by simpa using bare) unmarked

theorem dropReturn_subset (line : Text) : dropReturn line ⊆ line := by
  unfold dropReturn
  split
  · exact (dropLast_sublist line).subset
  · exact Subset.refl line

theorem not_mem_of_mem_rawLines (mem : line ∈ rawLines source) : '\n' ∉ line := by
  have single : ∀ lines : List Text, line ∈ dropReturns lines → ∃ whole ∈ lines, line ⊆ whole := by
    intro lines
    induction lines with
    | nil => exact fun mem => nomatch mem
    | cons first lines ih =>
      intro mem
      cases lines with
      | nil => exact ⟨line, mem, Subset.refl line⟩
      | cons next lines =>
        rw [dropReturns, mem_cons] at mem
        · rcases mem with rfl | mem
          · exact ⟨first, .head _, dropReturn_subset first⟩
          · obtain ⟨whole, found, subset⟩ := ih mem
            exact ⟨whole, .tail _ found, subset⟩
        · simp
  obtain ⟨whole, found, subset⟩ := single _ mem
  exact fun feed => Text.not_mem_of_mem_split found (subset feed)

/-! ## Empty lines at the end -/

theorem dropEmptyEnd_append (lines lines' : List Text) :
    dropEmptyEnd (lines ++ lines') =
      if dropEmptyEnd lines' = [] then dropEmptyEnd lines else lines ++ dropEmptyEnd lines' := by
  induction lines with
  | nil =>
    split
    next empty => rw [nil_append, empty, dropEmptyEnd]
    next => rfl
  | cons line lines ih =>
    rw [cons_append, dropEmptyEnd, ih]
    by_cases empty : dropEmptyEnd lines' = []
    · rw [if_pos empty, if_pos empty, dropEmptyEnd]
    · rw [if_neg empty, if_neg empty]
      split
      next rest =>
        exact absurd (append_eq_nil_iff.mp rest).2 empty
      next => rfl

theorem dropEmptyEnd_append_singleton (lines : List Text) {last : Text} (filled : last ≠ []) :
    dropEmptyEnd (lines ++ [last]) = lines ++ [last] := by
  have kept : dropEmptyEnd [last] = [last] := by simp [dropEmptyEnd, filled]
  rw [dropEmptyEnd_append, kept, if_neg (by simp)]

theorem dropEmptyEnd_append_replicate (lines : List Text) :
    ∃ k, dropEmptyEnd lines ++ replicate k [] = lines := by
  induction lines with
  | nil => exact ⟨0, rfl⟩
  | cons line lines ih =>
    obtain ⟨k, whole⟩ := ih
    rw [dropEmptyEnd]
    split
    next nothing =>
      rw [nothing, nil_append] at whole
      split
      next empty =>
        refine ⟨k + 1, ?_⟩
        rw [List.isEmpty_iff] at empty
        rw [← whole, empty]
        rfl
      next => exact ⟨k, by rw [← whole]; rfl⟩
    next => exact ⟨k, by rw [cons_append, whole]⟩

theorem not_mem_of_mem_lines (mem : line ∈ lines source) : '\n' ∉ line := by
  obtain ⟨k, whole⟩ := dropEmptyEnd_append_replicate (rawLines source)
  have raw : line ∈ rawLines source := by
    rw [← whole]
    exact mem_append_left _ mem
  exact not_mem_of_mem_rawLines raw

/-! ## Lines that are made empty -/

/-- A template with `m` lines from line `k` on made empty. -/
def blanked (k m : Nat) (source : Text) : Text :=
  let parts := Text.split '\n' source
  Text.joinWith ['\n'] (parts.take k ++ (replicate m [] ++ parts.drop (k + m)))

theorem split_dropOrderMark (source : Text) :
    Text.split '\n' (dropOrderMark source) = (Text.split '\n' source).modifyHead dropOrderMark := by
  cases source with
  | nil => rfl
  | cons c t =>
    by_cases mark : c.toNat = 0xFEFF
    · have other : c ≠ '\n' := by
        rintro rfl
        exact absurd mark (by decide)
      obtain ⟨part, parts, whole, longer⟩ := Text.split_cons_of_ne other t
      simp [dropOrderMark, mark, longer, whole]
    · by_cases feed : c = '\n'
      · subst feed
        simp [dropOrderMark, Text.split]
      · obtain ⟨part, parts, _, longer⟩ := Text.split_cons_of_ne feed t
        simp [dropOrderMark, mark, longer]

theorem dropReturns_replicate_append (m : Nat) (lines : List Text) :
    dropReturns (replicate m [] ++ lines) = replicate m [] ++ dropReturns lines := by
  induction m with
  | zero => rfl
  | succ m ih =>
    rw [replicate_succ, cons_append, cons_append, ← ih]
    cases replicate m [] ++ lines with
    | nil | cons next rest => rfl

theorem dropReturns_drop (m : Nat) (lines : List Text) :
    dropReturns (lines.drop m) = (dropReturns lines).drop m := by
  induction lines generalizing m with
  | nil => simp [dropReturns]
  | cons line lines ih =>
    cases m with
    | zero => rfl
    | succ m =>
      rw [drop_succ_cons, ih]
      cases lines with
      | nil | cons next lines => rfl

theorem dropReturns_blanked (positive : 0 < m) {lines : List Text} (inside : k < lines.length) :
    dropReturns (lines.take k ++ (replicate m [] ++ lines.drop (k + m))) =
      (dropReturns lines).take k ++ (replicate m [] ++ (dropReturns lines).drop (k + m)) := by
  have front : (dropReturns lines).take k = (lines.take k).map dropReturn := by
    have rest : lines.drop k ≠ [] := by simpa using inside
    have whole := @dropReturns_append (lines.take k) _ rest
    rw [take_append_drop] at whole
    rw [whole, take_left' (by simp [Nat.le_of_lt inside])]
  have more : replicate m [] ++ lines.drop (k + m) ≠ [] := by
    cases m with
    | zero => exact absurd positive (Nat.lt_irrefl 0)
    | succ m => exact cons_ne_nil _ _
  rw [dropReturns_append more, dropReturns_replicate_append, dropReturns_drop, front]

theorem modifyHead_blanked (positive : 0 < m) (lines : List Text) :
    (lines.take k ++ (replicate m [] ++ lines.drop (k + m))).modifyHead dropOrderMark =
      (lines.modifyHead dropOrderMark).take k ++
        (replicate m [] ++ (lines.modifyHead dropOrderMark).drop (k + m)) := by
  obtain ⟨m, rfl⟩ := Nat.exists_eq_succ_of_ne_zero (Nat.ne_of_gt positive)
  cases lines with
  | nil => cases k with
    | zero | succ k => rfl
  | cons line lines => cases k with
    | zero => simp [replicate_succ, dropOrderMark]
    | succ k => simp [Nat.add_right_comm k 1]

theorem rawLines_blanked (positive : 0 < m) (inside : k < lineCount source) :
    rawLines (blanked k m source) =
      (rawLines source).take k ++ (replicate m [] ++ (rawLines source).drop (k + m)) := by
  have parts : Text.split '\n' (blanked k m source) = (Text.split '\n' source).take k ++
      (replicate m [] ++ (Text.split '\n' source).drop (k + m)) := by
    refine Text.split_joinWith ?_ ?_
    · cases m with
      | zero => exact absurd positive (Nat.lt_irrefl 0)
      | succ m => simp [replicate_succ]
    · intro part mem
      simp only [mem_append, mem_replicate] at mem
      rcases mem with mem | ⟨_, rfl⟩ | mem
      · exact Text.not_mem_of_mem_split (mem_of_mem_take mem)
      · exact not_mem_nil
      · exact Text.not_mem_of_mem_split (mem_of_mem_drop mem)
  rw [rawLines, rawLines, split_dropOrderMark, split_dropOrderMark, parts,
    modifyHead_blanked positive,
    dropReturns_blanked positive (by rw [length_modifyHead]; exact inside)]

/-! ## The line around a place -/

/-- The lines in front of the one in which a text ends. -/
def linesBefore (front : Text) : List Text :=
  (Text.split '\n' (dropOrderMark front)).dropLast.map dropReturn

/-- The beginning of the line in which a text ends. -/
def lineStart (front : Text) : Text :=
  (Text.split '\n' (dropOrderMark front)).getLastD []

/-- The end of the line that a text goes on with. -/
def lineEnd (back : Text) : Text :=
  (dropReturns (Text.split '\n' back)).headD []

/-- The lines behind the one that a text goes on with. -/
def linesAfter (back : Text) : List Text :=
  dropEmptyEnd (dropReturns (Text.split '\n' back)).tail

theorem length_linesBefore (front : Text) : (linesBefore front).length + 1 = lineCount front := by
  have positive : 0 < (Text.split '\n' (dropOrderMark front)).length :=
    length_pos_of_ne_nil (Text.split_ne_nil _ _)
  rw [← length_rawLines, rawLines, length_dropReturns, linesBefore, length_map, length_dropLast]
  omega

theorem feed_not_mem_linesBefore {front : Text} (mem : line ∈ linesBefore front) : '\n' ∉ line := by
  obtain ⟨raw, found, rfl⟩ := mem_map.mp mem
  have plain := Text.not_mem_of_mem_split (dropLast_subset _ found)
  unfold dropReturn
  split
  · exact fun feed => plain (dropLast_subset _ feed)
  · exact plain

/-- Whether a character stands inside lines only: it is no line end and no byte order mark. -/
def isInner (c : Char) : Bool :=
  c != '\n' && c != '\r' && c.toNat != 0xFEFF

theorem dropReturn_append (bare : endsWith '\r' s = false) (t : Text) :
    dropReturn (s ++ t) = s ++ dropReturn t := by
  cases t with
  | nil =>
    rw [append_nil, dropReturn, if_neg (by simp [bare]), dropReturn]
    simp
  | cons c t =>
    have ends : endsWith '\r' (s ++ c :: t) = endsWith '\r' (c :: t) := by simp [endsWith]
    unfold dropReturn
    rw [ends]
    split
    · exact dropLast_append_of_ne_nil (by simp)
    · rfl

theorem dropReturns_cons_append (bare : endsWith '\r' s = false) (line : Text) (lines : List Text) :
    dropReturns ((s ++ line) :: lines) =
      (s ++ (dropReturns (line :: lines)).headD []) :: (dropReturns (line :: lines)).tail := by
  cases lines with
  | nil => rfl
  | cons next lines => simp [dropReturns, dropReturn_append bare]

theorem dropEmptyEnd_append_cons (before : List Text) (filled : line ≠ []) (after : List Text) :
    dropEmptyEnd (before ++ line :: after) = before ++ line :: dropEmptyEnd after := by
  have kept : dropEmptyEnd (line :: after) = line :: dropEmptyEnd after := by
    rw [dropEmptyEnd]
    split
    next nothing => rw [nothing, if_neg (by simpa using filled)]
    next => rfl
  rw [dropEmptyEnd_append, kept, if_neg (by simp)]

theorem lines_around {mark : Text} (filled : mark ≠ []) (inner : mark.all isInner)
    (front back : Text) :
    lines (front ++ mark ++ back) = linesBefore front ++
      (lineStart front ++ mark ++ lineEnd back) :: linesAfter back := by
  have plain : ∀ c ∈ mark, (c ≠ '\n' ∧ c ≠ '\r') ∧ c.toNat ≠ 0xFEFF := by
    simpa [isInner] using inner
  have unmarked : dropOrderMark (front ++ mark ++ back) = dropOrderMark front ++
      (mark ++ back) := by
    cases mark with
    | nil => exact absurd rfl filled
    | cons c mark =>
      rw [append_assoc, cons_append]
      exact dropOrderMark_append_cons (plain c (.head _)).2 front _
  have within : Text.split '\n' (mark ++ back) =
      (mark ++ (Text.split '\n' back).headD []) :: (Text.split '\n' back).tail := by
    rw [Text.split_append_eq, Text.split_of_not_mem fun feed => (plain _ feed).1.1 rfl]
    rfl
  have bare : endsWith '\r' (lineStart front ++ mark) = false := by
    rw [endsWith, getLast?_append_of_ne_nil _ filled]
    rw [beq_eq_false_iff_ne]
    exact fun last => (plain _ (mem_of_getLast? last)).1.2 rfl
  rw [lines_eq, rawLines, unmarked, Text.split_append_eq, within]
  unfold linesBefore lineEnd linesAfter
  cases rest : Text.split '\n' back with
  | nil => exact absurd rest (Text.split_ne_nil _ _)
  | cons line lines =>
    simp only [headD_cons, tail_cons]
    rw [dropReturns_append (by simp), ← append_assoc, ← lineStart, dropReturns_cons_append bare,
      dropEmptyEnd_append_cons _ (by simp [filled])]

end Source

end MarkupTemplate
