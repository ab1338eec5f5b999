import MarkupTemplate.Proofs.Node.Extent

/-!
# Interpolated text, read and written

Code is read up to the first place where what was read has balanced braces and a closing brace
follows (`expression?_eq_some_iff`). Reading gets stuck where a code is not closed, and nowhere
else. `Reads` follows the reader from the start of a text to some place, and `StuckAt` is the place
where it cannot go on, which is the one that `unclosed?` tells (`stuckAt_of_unclosed?`,
`unclosed?_exact`). Segments can be written so that reading gives them back: in a literal a
backslash is doubled and the sign of code gets one in front, and a code is put between its sign and
a closing brace (`interpolated_written`).
-/

namespace MarkupTemplate.Interpolation

open List

/-! ## Balanced code -/

/-- The braces of a code inside `depth` open ones: these and all that it opens are closed in it, and
no start of it closes a brace that is not open. -/
structure Balanced (depth : Nat) (code : Text) : Prop where
  closed : code.count '\x7d' = code.count '\x7b' + depth
  fronts : ∀ front, front <+: code → front.count '\x7d' ≤ front.count '\x7b' + depth

variable {depth depth' i : Nat} {c : Char} {code t rest text source : Text}
  {found segments : List Segment}

theorem balanced_nil_iff : Balanced depth [] ↔ depth = 0 := by
  constructor
  · intro balanced
    simpa using balanced.closed.symm
  · rintro rfl
    exact ⟨rfl, fun front start => by simp [prefix_nil.mp start]⟩

/-- A first character changes the number of open braces by what it opens and closes. -/
theorem balanced_cons_iff (step : [c].count '\x7b' + depth = [c].count '\x7d' + depth') :
    Balanced depth (c :: code) ↔ Balanced depth' code := by
  have counts : ∀ (d : Char) (t : Text), (c :: t).count d = [c].count d + t.count d := by
    intro d t
    rw [← count_append, singleton_append]
  have opened := counts '\x7b'
  have closed := counts '\x7d'
  constructor
  · intro balanced
    refine ⟨?_, fun front start => ?_⟩
    · have := balanced.closed
      have := opened code
      have := closed code
      omega
    · have := balanced.fronts (c :: front) (cons_prefix_cons.mpr ⟨rfl, start⟩)
      have := opened front
      have := closed front
      omega
  · intro balanced
    refine ⟨?_, fun front start => ?_⟩
    · have := balanced.closed
      have := opened code
      have := closed code
      omega
    · cases front with
      | nil => exact Nat.zero_le _
      | cons d front =>
        obtain ⟨rfl, inner⟩ := cons_prefix_cons.mp start
        have := balanced.fronts front inner
        have := opened front
        have := closed front
        omega

theorem not_balanced_close : ¬Balanced 0 ('\x7d' :: code) := by
  intro balanced
  have := balanced.fronts ['\x7d'] ⟨code, rfl⟩
  simp at this

theorem map_cons_eq_some_iff {found : Option (Text × Text)}
    (step : [c].count '\x7b' + depth = [c].count '\x7d' + depth') (goesOn : c = '\x7d' → depth ≠ 0)
    (ih : ∀ {code}, found = some (code, rest) ↔ t = code ++ '\x7d' :: rest ∧ Balanced depth' code) :
    (found.map fun (code, rest) => (c :: code, rest)) = some (code, rest) ↔
      c :: t = code ++ '\x7d' :: rest ∧ Balanced depth code := by
  constructor
  · intro same
    obtain ⟨⟨code', rest'⟩, read, same⟩ := Option.map_eq_some_iff.mp same
    cases same
    obtain ⟨rfl, balanced⟩ := ih.mp read
    exact ⟨rfl, (balanced_cons_iff step).mpr balanced⟩
  · rintro ⟨same, balanced⟩
    cases code with
    | nil => exact absurd (balanced_nil_iff.mp balanced) (goesOn (List.cons.inj same).1)
    | cons d code =>
      obtain ⟨rfl, rfl⟩ := List.cons.inj same
      rw [ih.mpr ⟨rfl, (balanced_cons_iff step).mp balanced⟩]
      rfl

/-- Code ends at the first closing brace in front of which it is balanced. -/
theorem expression?_eq_some_iff :
    expression? depth t = some (code, rest) ↔ t = code ++ '\x7d' :: rest ∧ Balanced depth code := by
  fun_induction expression? depth t generalizing code with
  | case1 depth => simp
  | case2 depth t ih =>
    exact map_cons_eq_some_iff (by simp; omega) (fun same => absurd same (by decide)) ih
  | case3 t noOpen =>
    constructor
    · intro same
      cases same
      exact ⟨rfl, balanced_nil_iff.mpr rfl⟩
    · rintro ⟨same, balanced⟩
      cases code with
      | nil => rw [(List.cons.inj same).2]
      | cons d code =>
        obtain ⟨rfl, _⟩ := List.cons.inj same
        exact absurd balanced not_balanced_close
  | case4 t depth noOpen ih =>
    exact map_cons_eq_some_iff (by simp; omega) (fun _ => Nat.succ_ne_zero depth) ih
  | case5 depth c t noOpen noClose ih =>
    exact map_cons_eq_some_iff (by simp [noOpen, noClose]) (fun same => absurd same noClose) ih

instance (depth : Nat) (code : Text) : Decidable (Balanced depth code) :=
  decidable_of_iff (expression? depth (code ++ ['\x7d']) = some (code, []))
    (expression?_eq_some_iff.trans (and_iff_right rfl))

/-! ## Reading as far as possible -/

/-- A character that stands for itself in front of a text. -/
structure StandsAlone (c : Char) (t : Text) : Prop where
  noEscape : ∀ u, c = '\\' → t ≠ '#' :: '\x7b' :: u
  noDouble : ∀ u, c = '\\' → t ≠ '\\' :: u
  noCode : ∀ u, c = '#' → t ≠ '\x7b' :: u

theorem segments?_alone (alone : StandsAlone c t) :
    segments? (c :: t) = (segments? t).map (consChar c) :=
  segments?_char alone.noEscape alone.noDouble alone.noCode

theorem StandsAlone.of_append {front : Text} (alone : StandsAlone c (front ++ rest)) :
    StandsAlone c front := by
  refine ⟨?_, ?_, ?_⟩
  · rintro u escape rfl
    exact alone.noEscape (u ++ rest) escape rfl
  · rintro u escape rfl
    exact alone.noDouble (u ++ rest) escape rfl
  · rintro u sign rfl
    exact alone.noCode (u ++ rest) sign rfl

theorem segments?_closed (closed : expression? 0 t = some (code, rest)) :
    segments? ('#' :: '\x7b' :: t) = (segments? rest).map (.code code :: ·) := by
  rw [segments?_code, closed]

/-- Reading a text from its start up to some place: the segments found, and what is left. -/
inductive Reads : Text → List Segment → Text → Prop
  | start (t : Text) : Reads t [] t
  | escape {t rest : Text} {found : List Segment} : Reads t found rest →
      Reads ('\\' :: '#' :: '\x7b' :: t) (consChar '#' (consChar '\x7b' found)) rest
  | double {t rest : Text} {found : List Segment} : Reads t found rest →
      Reads ('\\' :: '\\' :: t) (consChar '\\' found) rest
  | code {t source u rest : Text} {found : List Segment} :
  expression? 0 t = some (source, u) → Reads u found rest →
      Reads ('#' :: '\x7b' :: t) (.code source :: found) rest
  | alone {c : Char} {t rest : Text} {found : List Segment} : StandsAlone c t → Reads t found rest →
      Reads (c :: t) (consChar c found) rest

/-- What has been read could have been read without what is left. -/
theorem Reads.segments?_front (reads : Reads t found rest) :
    ∃ front, t = front ++ rest ∧ segments? front = some found := by
  induction reads with
  | start t => exact ⟨[], rfl, segments?_nil⟩
  | escape _ ih =>
    obtain ⟨front, rfl, read⟩ := ih
    exact ⟨'\\' :: '#' :: '\x7b' :: front, rfl, by rw [segments?_escape, read]; rfl⟩
  | double _ ih =>
    obtain ⟨front, rfl, read⟩ := ih
    exact ⟨'\\' :: '\\' :: front, rfl, by rw [segments?_double, read]; rfl⟩
  | @code t source u rest found closed _ ih =>
    obtain ⟨front, rfl, read⟩ := ih
    obtain ⟨rfl, balanced⟩ := expression?_eq_some_iff.mp closed
    refine ⟨'#' :: '\x7b' :: (source ++ '\x7d' :: front), by simp, ?_⟩
    rw [segments?_closed (expression?_eq_some_iff.mpr ⟨rfl, balanced⟩), read]
    rfl
  | @alone c t rest found alone _ ih =>
    obtain ⟨front, rfl, read⟩ := ih
    exact ⟨c :: front, rfl, by rw [segments?_alone alone.of_append, read]; rfl⟩

theorem Reads.segments?_eq_none (reads : Reads t found rest) (unreadable : segments? rest = none) :
    segments? t = none := by
  induction reads with
  | start t => exact unreadable
  | escape _ ih => rw [segments?_escape, ih unreadable]; rfl
  | double _ ih => rw [segments?_double, ih unreadable]; rfl
  | code closed _ ih => rw [segments?_closed closed, ih unreadable]; rfl
  | alone alone _ ih => rw [segments?_alone alone, ih unreadable]; rfl

theorem unclosed?_alone (alone : StandsAlone c t) :
    unclosed? (c :: t) = (unclosed? t).map (· + 1) := by
  rw [unclosed?]
  · exact alone.noEscape
  · exact alone.noDouble
  · exact alone.noCode

/-- The place that is told for what is left is also told for the whole text. -/
theorem Reads.unclosed?_eq (reads : Reads t found rest) (told : unclosed? rest = some i) :
    ∃ k, unclosed? t = some k ∧ k + rest.length = i + t.length := by
  induction reads with
  | start t => exact ⟨i, told, rfl⟩
  | escape _ ih =>
    obtain ⟨k, later, place⟩ := ih told
    refine ⟨k + 3, by rw [unclosed?, later]; rfl, ?_⟩
    simp only [length_cons]
    omega
  | double _ ih =>
    obtain ⟨k, later, place⟩ := ih told
    refine ⟨k + 2, by rw [unclosed?, later]; rfl, ?_⟩
    simp only [length_cons]
    omega
  | @code t source u rest found closed _ ih =>
    obtain ⟨k, later, place⟩ := ih told
    have shorter := length_of_expression? closed
    refine ⟨k + (2 + t.length - u.length), by rw [unclosed?_code, closed]; simp only [later]; rfl,
      ?_⟩
    simp only [length_cons]
    omega
  | alone alone _ ih =>
    obtain ⟨k, later, place⟩ := ih told
    refine ⟨k + 1, by rw [unclosed?_alone alone, later]; rfl, ?_⟩
    simp only [length_cons]
    omega

/-- Reading a text comes to a place, behind some segments, where an open code starts. -/
def StuckAt (t : Text) (found : List Segment) (i : Nat) : Prop :=
  ∃ u, Reads t found (t.drop i) ∧ t.drop i = '#' :: '\x7b' :: u ∧ expression? 0 u = none

theorem StuckAt.segments?_eq_none (stuck : StuckAt t found i) : segments? t = none := by
  obtain ⟨u, reads, here, unclosed⟩ := stuck
  refine reads.segments?_eq_none ?_
  rw [here, segments?_code, unclosed]

theorem StuckAt.unclosed?_eq (stuck : StuckAt t found i) : unclosed? t = some i := by
  obtain ⟨u, reads, here, unclosed⟩ := stuck
  have told : unclosed? (t.drop i) = some 0 := by rw [here, unclosed?_code, unclosed]
  obtain ⟨k, whole, place⟩ := reads.unclosed?_eq told
  have signs : (t.drop i).length = u.length + 2 := congrArg List.length here
  rw [length_drop] at place signs
  have same : k = i := by omega
  rw [whole, same]

/-- The place that is told for a text is where reading it gets stuck. -/
theorem stuckAt_of_unclosed? (told : unclosed? t = some i) : ∃ found, StuckAt t found i := by
  fun_induction unclosed? t generalizing i with
  | case1 => cases told
  | case2 t ih =>
    obtain ⟨j, later, rfl⟩ := Option.map_eq_some_iff.mp told
    obtain ⟨found, u, reads, here⟩ := ih later
    exact ⟨_, u, .escape reads, here⟩
  | case3 t ih =>
    obtain ⟨j, later, rfl⟩ := Option.map_eq_some_iff.mp told
    obtain ⟨found, u, reads, here⟩ := ih later
    exact ⟨_, u, .double reads, here⟩
  | case4 t unclosed =>
    cases told
    exact ⟨[], t, .start _, rfl, unclosed⟩
  | case5 t code rest closed ih =>
    obtain ⟨j, later, rfl⟩ := Option.map_eq_some_iff.mp told
    obtain ⟨found, u, reads, here⟩ := ih later
    have behind : ('#' :: '\x7b' :: t).drop (j + (2 + t.length - rest.length)) = rest.drop j := by
      obtain ⟨rfl, _⟩ := expression?_eq_some_iff.mp closed
      have place : j + (2 + (code ++ '\x7d' :: rest).length - rest.length) = code.length + 1 + j +
          2 := by
        simp only [length_append, length_cons]
        omega
      have inside : (code ++ '\x7d' :: rest).drop (code.length + 1) = rest := by simp [drop_append]
      rw [place, drop_succ_cons, drop_succ_cons, ← drop_drop, inside]
    exact ⟨_, u, by rw [behind]; exact .code closed reads, by rw [behind]; exact here⟩
  | case6 c t noEscape noDouble noCode ih =>
    obtain ⟨j, later, rfl⟩ := Option.map_eq_some_iff.mp told
    obtain ⟨found, u, reads, here⟩ := ih later
    exact ⟨_, u, .alone ⟨noEscape, noDouble, noCode⟩ reads, here⟩

theorem interpolated_eq (t : Text) : Node.interpolated (.interpolate t) =
    ((segments? t).map fun found => .seq (found.map Segment.node)).elim
      (.error .unclosedInterpolation) .ok := by
  rw [Node.interpolated, Node.ofInterpolated]
  cases segments? t with
  | none | some found => rfl

/-- Every code of a text is closed exactly if the text can be expanded. Otherwise the place that is
told is where a code starts, the text in front of it can be expanded, and expanding the whole text
fails while that code is read: there the reader is stuck, with the same segments found, and nowhere
else. -/
theorem unclosed?_exact (t : Text) :
    (unclosed? t = none ↔ ∃ n, Node.interpolated (.interpolate t) = .ok n) ∧
    ∀ i, unclosed? t = some i →
      ['#', '\x7b'] <+: t.drop i ∧
      Node.interpolated (.interpolate t) = .error .unclosedInterpolation ∧
      ∃ found, Node.interpolated (.interpolate (t.take i)) = .ok (.seq (found.map Segment.node)) ∧
        StuckAt t found i ∧ ∀ found' j, StuckAt t found' j → j = i := by
  constructor
  · rw [unclosed?_eq_none_iff, isClosed, interpolated_eq]
    cases segments? t with
    | none => simp
    | some found => simp
  · intro i told
    obtain ⟨found, stuck⟩ := stuckAt_of_unclosed? told
    have unreadable := stuck.segments?_eq_none
    obtain ⟨u, reads, here, _⟩ := id stuck
    obtain ⟨front, whole, read⟩ := reads.segments?_front
    have before : front = t.take i :=
      append_cancel_right (whole.symm.trans (take_append_drop i t).symm)
    refine ⟨⟨u, here.symm⟩, ?_, found, ?_, stuck, fun found' j other => ?_⟩
    · rw [interpolated_eq, unreadable]
      rfl
    · rw [interpolated_eq, ← before, read]
      rfl
    · exact Option.some.inj (other.unclosed?_eq.symm.trans told)

/-- A literal sign behind a backslash, a closed code, and an open one at the tenth character. -/
def openCode : Text :=
  "\\#\x7ba#\x7bb\x7d##\x7b\x7bc\x7d"

theorem unclosed?_exact_openCode :
    unclosed? openCode = some 9 ∧ ['#', '\x7b'] <+: openCode.drop 9 ∧
      Node.interpolated (.interpolate openCode) = .error .unclosedInterpolation ∧
      ∃ found, Node.interpolated (.interpolate (openCode.take 9)) =
        .ok (.seq (found.map Segment.node)) ∧
        StuckAt openCode found 9 ∧ ∀ found' j, StuckAt openCode found' j → j = 9 := by
  have told : unclosed? openCode = some 9 := by decide +kernel
  exact ⟨told, (unclosed?_exact openCode).2 9 told⟩

/-! ## Writing -/

/-- A literal as it is written: a backslash is doubled, and the sign of code gets one. -/
def writtenLiteral : Text → Text
  | [] => []
  | '\\' :: t => '\\' :: '\\' :: writtenLiteral t
  | '#' :: '\x7b' :: t => '\\' :: '#' :: '\x7b' :: writtenLiteral t
  | c :: t => c :: writtenLiteral t

def Segment.written : Segment → Text
  | .literal text => writtenLiteral text
  | .code text => '#' :: '\x7b' :: (text ++ ['\x7d'])

def written (segments : List Segment) : Text :=
  segments.flatMap Segment.written

/-- Puts a literal in front of segments; neighbouring literals become one. -/
def consLiteral (text : Text) : List Segment → List Segment
  | .literal next :: segments => .literal (text ++ next) :: segments
  | segments => .literal text :: segments

/-- Segments with neighbouring literals joined. -/
def joined : List Segment → List Segment
  | [] => []
  | .literal text :: segments => consLiteral text (joined segments)
  | .code text :: segments => .code text :: joined segments

/-- The nodes for a segment: none for an empty literal, and for code between braces of its own an
output without escaping of what is inside the braces. -/
def Segment.nodes : Segment → List Node
  | .literal text => if text = [] then [] else [.static text]
  | .code text =>
    if text.head? = some '\x7b' ∧ text.getLast? = some '\x7d' ∧ 2 ≤ text.length then
      [.output false (text.drop 1).dropLast (.seq [])]
    else [.output true text (.seq [])]

def startsLiteral : List Segment → Bool
  | .literal _ :: _ => true
  | _ => false

def Apart : List Segment → Prop
  | [] => True
  | .literal _ :: segments => startsLiteral segments = false ∧ Apart segments
  | .code _ :: segments => Apart segments

theorem apart_consLiteral (text : Text) (apart : Apart segments) :
    Apart (consLiteral text segments) := by
  fun_cases consLiteral text segments with
  | case1 next segments => exact apart
  | case2 _ other =>
    refine ⟨?_, apart⟩
    cases segments with
    | nil => rfl
    | cons segment segments =>
      cases segment with
      | literal next => exact (other next segments rfl).elim
      | code next => rfl

theorem apart_joined (segments : List Segment) : Apart (joined segments) := by
  induction segments with
  | nil => trivial
  | cons segment segments ih =>
    cases segment with
    | literal text => exact apart_consLiteral text ih
    | code text => exact ih

theorem code_mem_of_consLiteral (mem : .code source ∈ consLiteral text segments) :
    .code source ∈ segments := by
  fun_cases consLiteral text segments with
  | case1 next segments =>
    rcases mem_cons.mp mem with same | inner
    · nomatch same
    · exact .tail _ inner
  | case2 _ other =>
    rw [consLiteral] at mem
    · rcases mem_cons.mp mem with same | inner
      · nomatch same
      · exact inner
    · exact other

theorem code_mem_of_joined (mem : .code source ∈ joined segments) : .code source ∈ segments := by
  induction segments with
  | nil => exact mem
  | cons segment segments ih =>
    cases segment with
    | literal text => exact .tail _ (ih (code_mem_of_consLiteral mem))
    | code text =>
      rcases mem_cons.mp mem with same | inner
      · exact same ▸ .head _
      · exact .tail _ (ih inner)

/-! ## Written segments are read back -/

theorem head_writtenLiteral {u : Text} (same : writtenLiteral text ++ rest = '\x7b' :: u) :
    (∃ t, text = '\x7b' :: t) ∨ ∃ u, rest = '\x7b' :: u := by
  fun_cases writtenLiteral text with
  | case1 => exact .inr ⟨u, same⟩
  | case2 t | case3 t => nomatch same
  | case4 c t noEscape noCode =>
    rw [writtenLiteral] at same
    · exact .inl ⟨t, by rw [(List.cons.inj same).1]⟩
    · exact noEscape
    · exact noCode

theorem segments?_writtenLiteral (text : Text) (apart : ∀ u, rest ≠ '\x7b' :: u) :
    segments? (writtenLiteral text ++ rest) = (segments? rest).map fun found =>
      text.foldr consChar found := by
  fun_induction writtenLiteral text with
  | case1 => exact (Option.map_id' ..).symm
  | case2 t ih =>
    rw [cons_append, cons_append, segments?_double, ih, Option.map_map]
    rfl
  | case3 t ih =>
    rw [cons_append, cons_append, cons_append, segments?_escape, ih, Option.map_map]
    rfl
  | case4 c t noEscape noCode ih =>
    have alone : StandsAlone c (writtenLiteral t ++ rest) := by
      refine ⟨fun _ escape => absurd escape noEscape, fun _ escape => absurd escape noEscape, ?_⟩
      rintro u rfl same
      rcases head_writtenLiteral same with ⟨t, rfl⟩ | ⟨u, same⟩
      · exact noCode t rfl rfl
      · exact apart u same
    rw [cons_append, segments?_alone alone, ih, Option.map_map]
    rfl

theorem eq_nil_or_code (apart : startsLiteral segments = false) :
    segments = [] ∨ ∃ source rest, segments = .code source :: rest := by
  cases segments with
  | nil => exact .inl rfl
  | cons segment rest =>
    cases segment with
    | literal text => nomatch apart
    | code source => exact .inr ⟨source, rest, rfl⟩

theorem foldr_consChar (text : Text) (apart : startsLiteral found = false) :
    text.foldr consChar found = [.literal text].filter (· ≠ .literal []) ++ found := by
  induction text with
  | nil => rfl
  | cons c text ih =>
    rw [foldr_cons, ih]
    cases text with
    | cons d text => rfl
    | nil =>
      rcases eq_nil_or_code apart with rfl | ⟨source, rest, rfl⟩
      · rfl
      · rfl

/-- Segments are read back as they were written, but for empty literals. -/
theorem segments?_written (apart : Apart segments)
    (balanced : ∀ source, .code source ∈ segments → Balanced 0 source) :
    segments? (written segments) = some (segments.filter (· ≠ .literal [])) := by
  induction segments with
  | nil => rw [written, flatMap_nil, segments?_nil]; rfl
  | cons segment segments ih =>
    have inner : ∀ source, .code source ∈ segments → Balanced 0 source := fun source mem =>
      balanced source (.tail _ mem)
    rw [written, flatMap_cons, ← written]
    cases segment with
    | literal text =>
      obtain ⟨noLiteral, apart⟩ := apart
      -- What follows a literal is the sign of code, which no character of the literal changes.
      have signed : ∀ u, written segments ≠ '\x7b' :: u := by
        rcases eq_nil_or_code noLiteral with rfl | ⟨source, rest, rfl⟩
        · rintro u ⟨⟩
        · rintro u ⟨⟩
      have kept : startsLiteral (segments.filter (· ≠ .literal [])) = false := by
        rcases eq_nil_or_code noLiteral with rfl | ⟨source, rest, rfl⟩
        · rfl
        · rfl
      rw [Segment.written, segments?_writtenLiteral text signed, ih apart inner, Option.map_some,
        foldr_consChar text kept, ← filter_append]
      rfl
    | code source =>
      have closed : expression? 0 (source ++ ['\x7d'] ++ written segments) =
        some (source, written segments) :=
        expression?_eq_some_iff.mpr ⟨by simp, balanced source (.head _)⟩
      rw [Segment.written, cons_append, cons_append, segments?_closed closed, ih apart inner]
      rfl

/-- Code has braces of its own if it starts and ends with one each. -/
theorem unescaped?_eq (source : Text) : unescaped? source =
    if source.head? = some '\x7b' ∧ source.getLast? = some '\x7d' ∧ 2 ≤ source.length then
      some (source.drop 1).dropLast
    else none := by
  fun_cases unescaped? source with
  | case1 t ends =>
    cases t with
    | nil => exact absurd ends (by decide)
    | cons d t =>
      have last : ('\x7b' :: d :: t).getLast? = some '\x7d' := by simpa [Text.endsWith] using ends
      exact (if_pos ⟨rfl, last, by simp⟩).symm
  | case2 t ends =>
    rw [if_neg]
    rintro ⟨_, last, long⟩
    cases t with
    | nil => exact absurd long (by decide)
    | cons d t => exact ends (by simpa [Text.endsWith] using last)
  | case3 source other =>
    rw [if_neg]
    rintro ⟨first, _⟩
    obtain ⟨t, rfl⟩ := head?_eq_some_iff.mp first
    exact other t rfl

theorem Segment.nodes_code (source : Text) :
    (Segment.code source).nodes = [(Segment.code source).node] := by
  rw [Segment.nodes, Segment.node, unescaped?_eq]
  split <;> rfl

theorem map_node_filter (segments : List Segment) :
    (segments.filter (· ≠ .literal [])).map Segment.node = segments.flatMap Segment.nodes := by
  induction segments with
  | nil => rfl
  | cons segment segments ih =>
    rw [flatMap_cons, ← ih]
    cases segment with
    | code source => rw [Segment.nodes_code]; rfl
    | literal text =>
      cases text with
      | nil | cons c text => rfl

/-- Segments whose codes have balanced braces and whose neighbouring literals are joined stand for
the same nodes after they have been written into one text and expanded. -/
theorem interpolated_written (segments : List Segment)
    (balanced : ∀ source, .code source ∈ segments → Balanced 0 source) :
    Node.interpolated (.interpolate (written (joined segments))) =
      .ok (.seq ((joined segments).flatMap Segment.nodes)) := by
  have read := segments?_written (apart_joined segments) fun source mem =>
    balanced source (code_mem_of_joined mem)
  rw [interpolated_eq, read, ← map_node_filter]
  rfl

/-- Two literals with the sign of code across them, code with braces of its own, and a literal that
ends in a number sign in front of code. -/
def mixedSegments : List Segment :=
  [.literal "\\#", .literal "\x7ba", .code "\x7bb\x7d", .literal "c#",
    .code "d[\x7b\x7d]"]

theorem interpolated_written_mixedSegments :
    (∀ source, .code source ∈ mixedSegments → Balanced 0 source) ∧
      written (joined mixedSegments) = "\\\\\\#\x7ba#\x7b\x7bb\x7d\x7dc##\x7bd[\x7b\x7d]\x7d" ∧
      Node.interpolated (.interpolate (written (joined mixedSegments))) =
        .ok (.seq [.static "\\#\x7ba", .output false "b" (.seq []), .static "c#",
          .output true "d[\x7b\x7d]" (.seq [])]) := by
  have balanced : ∀ source, .code source ∈ mixedSegments → Balanced 0 source := by
    intro source mem
    simp only [mixedSegments, mem_cons, Segment.code.injEq, reduceCtorEq, false_or, not_mem_nil,
      or_false] at mem
    rcases mem with rfl | rfl
    · decide
    · decide
  exact ⟨balanced, by decide, (interpolated_written mixedSegments balanced).trans (by decide)⟩

end MarkupTemplate.Interpolation
