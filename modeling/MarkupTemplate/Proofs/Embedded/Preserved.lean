import MarkupTemplate.Compiler
import MarkupTemplate.Proofs.Attribute.Written
import MarkupTemplate.Proofs.Embedded.Accepted
import MarkupTemplate.Proofs.Node.Explicit
import MarkupTemplate.Proofs.Program.Rendering
import MarkupTemplate.Proofs.Text.Interpolated

/-!
# Preserved text

A block with escaped text and one with preserved line breaks put out the same values between the
same characters, except that a preserved line break is an entity. But preserving takes lines apart
before it looks for codes, so it fails if a code runs over several lines (`preserve_of_escaped`).
-/

namespace MarkupTemplate

open List
open Text (firstLine)

namespace Interpolation

variable {t : Text} {segments : List Segment}

/-- What a segment puts out where escaping is on: characters and values. -/
def Segment.shown : Segment → List (Char ⊕ Text)
  | .literal text => (Text.escape text).map .inl
  | .code text => [.inr ((unescaped? text).getD (Node.escapedCode true none text))]

def feedEntity : List (Char ⊕ Text) :=
  "&#x000A;".toList.map .inl

/-- A line break as an entity; everything else stays. -/
def preserved : Char ⊕ Text → List (Char ⊕ Text)
  | .inl c => if c = '\n' then feedEntity else [.inl c]
  | .inr value => [.inr value]

theorem preserved_escape {text : Text} (inLine : '\n' ∉ text) :
    ((Text.escape text).map Sum.inl).flatMap preserved = (Text.escape text).map .inl := by
  have plain : ∀ c, c ≠ '\n' → ((Text.entity c).map Sum.inl).flatMap preserved =
      (Text.entity c).map .inl := by
    intro c other
    unfold Text.entity
    split <;> simp [preserved, other]
  induction text with
  | nil => rfl
  | cons c text ih =>
    rw [mem_cons, not_or] at inLine
    simp only [Text.escape, flatMap_cons, map_append, flatMap_append, plain c (Ne.symm inLine.1)]
    rw [← Text.escape, ih inLine.2]

theorem shown_foldr_consChar (text : Text) (segments : List Segment) :
    (text.foldr consChar segments).flatMap Segment.shown =
      (Text.escape text).map .inl ++ segments.flatMap Segment.shown := by
  have one : ∀ c segments, (consChar c segments).flatMap Segment.shown =
      (Text.entity c).map .inl ++ segments.flatMap Segment.shown := by
    intro c segments
    fun_cases consChar c segments with
    | case1 text segments | case2 segments => simp [Segment.shown, Text.escape]
  induction text with
  | nil => rfl
  | cons c text ih => simp [one, ih, Text.escape]

def OnOneLine (segments : List Segment) : Prop :=
  ∀ code, .code code ∈ segments → '\n' ∉ code

theorem onOneLine_foldr_consChar (text : Text) (segments : List Segment) :
    OnOneLine (text.foldr consChar segments) ↔ OnOneLine segments := by
  have one : ∀ c segments code, .code code ∈ consChar c segments ↔
      Segment.code code ∈ segments := by
    intro c segments code
    fun_cases consChar c segments <;> simp
  induction text with
  | nil => rfl
  | cons c text ih => simpa only [OnOneLine, foldr_cons, one] using ih

/-- The lines of a text show what the whole text shows, if no code runs over several lines. -/
inductive LinesShow (t : Text) (segments : List Segment) : Prop where
  | readable {first : List Segment} {others : List (List Segment)} : OnOneLine segments →
    segments? (firstLine t) = some first →
    Forall₂ (fun line segments => segments? line = some segments) (Text.otherLines t) others →
    first.flatMap Segment.shown ++
      others.flatMap (fun line => feedEntity ++ line.flatMap Segment.shown) =
      (segments.flatMap Segment.shown).flatMap preserved →
    LinesShow t segments
  | broken {line : Text} : ¬OnOneLine segments → line ∈ firstLine t :: Text.otherLines t →
    segments? line = none → LinesShow t segments

theorem LinesShow.behind {front : Text} {shown : List (Char ⊕ Text)}
    {add : List Segment → List Segment} (shows : LinesShow t segments) (inLine : '\n' ∉ front)
    (line : segments? (front ++ firstLine t) = (segments? (firstLine t)).map add)
    (added : ∀ segments, (add segments).flatMap Segment.shown = shown ++
      segments.flatMap Segment.shown)
    (kept : shown.flatMap preserved = shown)
    (codes : OnOneLine (add segments) ↔ OnOneLine segments) :
    LinesShow (front ++ t) (add segments) := by
  cases shows with
  | readable whole read readOthers same =>
    refine .readable (codes.mpr whole) (by rw [Text.firstLine_append inLine, line, read]; rfl)
      (by rwa [Text.otherLines_append inLine]) ?_
    rw [added, added, append_assoc, same, flatMap_append, kept]
  | broken several mem stuck =>
    rcases mem_cons.mp mem with rfl | mem
    · exact .broken (mt codes.mp several) (.head _)
        (by rw [Text.firstLine_append inLine, line, stuck]; rfl)
    · refine .broken (mt codes.mp several) (.tail _ ?_) stuck
      rwa [Text.otherLines_append inLine]

theorem LinesShow.behindChars (shows : LinesShow t segments) (front text : Text)
    (inLine : '\n' ∉ front) (sub : text ⊆ front)
    (line : segments? (front ++ firstLine t) = (segments? (firstLine t)).map
      (text.foldr consChar)) :
    LinesShow (front ++ t) (text.foldr consChar segments) :=
  shows.behind inLine line (shown_foldr_consChar text)
    (preserved_escape fun mem => inLine (sub mem))
    (onOneLine_foldr_consChar text _)

/-- A code that is cut off by a line break is not closed in its first line. -/
theorem segments?_cut {code : Text} (balanced : Balanced 0 code) (broken : '\n' ∈ code)
    (rest : Text) : segments? (firstLine ('#' :: '\x7b' :: (code ++ '\x7d' :: rest))) = none := by
  have line : firstLine ('#' :: '\x7b' :: (code ++ '\x7d' :: rest)) =
      '#' :: '\x7b' :: firstLine (code ++ '\x7d' :: rest) := rfl
  rw [line, segments?_code]
  cases found : expression? 0 (firstLine (code ++ '\x7d' :: rest)) with
  | none => rfl
  | some pair =>
    obtain ⟨code', rest'⟩ := pair
    obtain ⟨same, balanced'⟩ := expression?_eq_some_iff.mp found
    have whole : code ++ '\x7d' :: rest =
        code' ++ '\x7d' :: (rest' ++ (code ++ '\x7d' :: rest).dropWhile (· != '\n')) := by
      rw [← cons_append, ← append_assoc, ← same]
      exact takeWhile_append_dropWhile.symm
    have read := expression?_eq_some_iff.mpr ⟨whole, balanced'⟩
    rw [expression?_eq_some_iff.mpr ⟨rfl, balanced⟩] at read
    obtain ⟨sameCode, _⟩ := Prod.mk.inj (Option.some.inj read)
    have inFirst : '\n' ∈ firstLine (code ++ '\x7d' :: rest) := by
      rw [same, ← sameCode]
      exact mem_append_left _ broken
    exact absurd (mem_takeWhile_imp inFirst) (by decide)

/-- Taking apart the lines of a text. -/
theorem linesShow (read : segments? t = some segments) : LinesShow t segments := by
  induction t using unclosed?.induct generalizing segments with
  | case1 =>
    cases segments?_nil.symm.trans read
    exact .readable (fun _ mem => absurd mem not_mem_nil)
      (by rw [firstLine, takeWhile_nil, segments?_nil]) .nil rfl
  | case2 t ih =>
    rw [segments?_escape] at read
    obtain ⟨inner, found, rfl⟩ := Option.map_eq_some_iff.mp read
    exact (ih found).behindChars ['\\', '#', '\x7b'] ['#', '\x7b'] (by decide) (by decide)
      (by rw [cons_append, cons_append, cons_append, nil_append, segments?_escape]; rfl)
  | case3 t ih =>
    rw [segments?_double] at read
    obtain ⟨inner, found, rfl⟩ := Option.map_eq_some_iff.mp read
    exact (ih found).behindChars ['\\', '\\'] ['\\'] (by decide) (by decide)
      (by rw [cons_append, cons_append, nil_append, segments?_double]; rfl)
  | case4 t unclosed =>
    rw [segments?_code, unclosed] at read
    cases read
  | case5 t code rest closed ih =>
    rw [segments?_code, closed] at read
    obtain ⟨inner, found, rfl⟩ := Option.map_eq_some_iff.mp read
    obtain ⟨rfl, balanced⟩ := expression?_eq_some_iff.mp closed
    by_cases inLine : '\n' ∈ code
    · exact .broken (fun whole => whole code (.head _) inLine) (.head _)
        (segments?_cut balanced inLine rest)
    · have whole : '#' :: '\x7b' :: (code ++ '\x7d' :: rest) =
          ('#' :: '\x7b' :: code ++ ['\x7d']) ++ rest := by simp
      rw [whole]
      refine (ih found).behind (by simpa using inLine) ?_ (fun _ => flatMap_cons) rfl ?_
      · simpa using segments?_closed (expression?_eq_some_iff.mpr ⟨rfl, balanced⟩)
      · simp [OnOneLine, inLine]
  | case6 c t noEscape noDouble noCode ih =>
    rw [segments?_char noEscape noDouble noCode] at read
    obtain ⟨inner, found, rfl⟩ := Option.map_eq_some_iff.mp read
    by_cases feed : c = '\n'
    · subst feed
      have codes := onOneLine_foldr_consChar ['\n'] inner
      have lines := Text.otherLines_break t
      have empty : segments? (firstLine ('\n' :: t)) = some [] := by
        rw [firstLine, takeWhile_cons_of_neg (by decide), segments?_nil]
      cases ih found with
      | readable whole readFirst readOthers same =>
        have shown := shown_foldr_consChar ['\n'] inner
        rw [foldr_cons, foldr_nil] at shown
        refine .readable (codes.mpr whole) empty (by rw [lines]; exact .cons readFirst readOthers)
          ?_
        rw [flatMap_nil, nil_append, flatMap_cons, append_assoc, same, shown, flatMap_append]
        rfl
      | broken several mem stuck => exact .broken (mt codes.mp several) (lines ▸ .tail _ mem) stuck
    · refine (ih found).behindChars [c] [c] (by simpa using Ne.symm feed) (by simp) ?_
      have alone : StandsAlone c (firstLine t ++ t.dropWhile (· != '\n')) := by
        rw [firstLine, takeWhile_append_dropWhile]
        exact ⟨noEscape, noDouble, noCode⟩
      exact segments?_alone alone.of_append

end Interpolation

/-! ## Trees -/

/-- What an act puts out: characters and values. -/
def Act.shown : Act → List (Char ⊕ Text)
  | .put text => text.map .inl
  | .eval code => [.inr code]
  | _ => []

namespace Node

open Interpolation (Segment)

def shown (n : Node) : List (Char ⊕ Text) :=
  n.acts.flatMap Act.shown

theorem shown_seq (ns : List Node) : (Node.seq ns).shown = ns.flatMap shown := by
  induction ns with
  | nil => rfl
  | cons n ns ih =>
    rw [shown, acts] at ih ⊢
    rw [actsOf, flatMap_append, ih]
    rfl

theorem shown_static (text : Text) : (Node.static text).shown = text.map .inl := by
  cases text <;> simp [shown, acts, Act.shown]

variable {o : Options} {on? : Option Bool} {n : Node} {ns : List Node} {a : List (Char ⊕ Text)}

/-- What nodes put out behind the passes for statements and escaping. -/
def Emits (o : Options) (on? : Option Bool) (ns : List Node) (a : List (Char ⊕ Text)) : Prop :=
  ∃ ns' ns'', (∀ used, controlledAll o.disableCapture used ns = .ok (ns', used)) ∧
    escapedAll o.escapeHtml on? ns' = .ok ns'' ∧ ns''.flatMap shown = a

theorem Emits.cons (emits : Emits o on? ns a) (n' n'' : Node)
    (controlled : ∀ used, n.controlled o.disableCapture used = .ok (n', used))
    (escaped : n'.escaped o.escapeHtml on? = .ok n'') : Emits o on? (n :: ns) (n''.shown ++ a) := by
  obtain ⟨ns', ns'', controls, escapes, rfl⟩ := emits
  refine ⟨n' :: ns', n'' :: ns'', fun used => ?_, ?_, rfl⟩
  · simp only [controlledAll, controlled, bind, Except.bind, controls]
    rfl
  · simp only [escapedAll, escaped, escapes]
    rfl

theorem emits_segments (segments : List Segment) :
    Emits o (some true) (segments.map Segment.node) (segments.flatMap Segment.shown) := by
  induction segments with
  | nil => exact ⟨[], [], fun _ => rfl, rfl, rfl⟩
  | cons segment segments ih =>
    cases segment with
    | literal text =>
      rw [flatMap_cons, Segment.shown, ← shown_static]
      exact ih.cons (.static text) (.static (Text.escape text)) (fun _ => rfl) rfl
    | code text =>
      rw [map_cons, flatMap_cons, Segment.node, Segment.shown]
      cases Interpolation.unescaped? text with
      | none =>
        exact ih.cons (.seq [.dynamic text, .seq []]) (.seq [.dynamic _, .seq []])
          (fun _ => rfl) rfl
      | some inside =>
        exact ih.cons (.seq [.escape false (.dynamic inside), .seq []])
          (.seq [.dynamic inside, .seq []])
          (fun _ => rfl) rfl

/-- What nodes put out behind the pass for codes as well. -/
def Shows (o : Options) (ns : List Node) (a : List (Char ⊕ Text)) : Prop :=
  ∃ ns', interpolatedAll ns = .ok ns' ∧ Emits o none ns' a

theorem Shows.cons (shows : Shows o ns a) (n₁ n₂ n₃ : Node) (interpolated : n.interpolated = .ok n₁)
    (controlled : ∀ used, n₁.controlled o.disableCapture used = .ok (n₂, used))
    (escaped : n₂.escaped o.escapeHtml none = .ok n₃) : Shows o (n :: ns) (n₃.shown ++ a) := by
  obtain ⟨ns', expands, emits⟩ := shows
  refine ⟨n₁ :: ns', ?_, emits.cons n₂ n₃ controlled escaped⟩
  simp only [interpolatedAll, interpolated, expands]
  rfl

theorem Shows.static (text : Text) (shows : Shows o ns a) :
    Shows o (.static text :: ns) (text.map .inl ++ a) := by
  rw [← shown_static]
  exact shows.cons (.static text) (.static text) (.static text) rfl (fun _ => rfl) rfl

theorem Shows.line {line : Text} {segments : List Segment}
    (read : Interpolation.segments? line = some segments) (shows : Shows o ns a) :
    Shows o (.escape true (.interpolate line) :: ns) (segments.flatMap Segment.shown ++ a) := by
  obtain ⟨ns', ns'', controls, escapes, same⟩ := emits_segments (o := o) segments
  rw [← same, ← shown_seq]
  refine shows.cons (.escape true (.seq (segments.map Segment.node))) (.escape true (.seq ns'))
    (.seq ns'') ?_
    (fun used => ?_) ?_
  · rw [interpolated, interpolated, ofInterpolated, read]
    rfl
  · simp only [controlled, bind, Except.bind, controls]
    rfl
  · rw [escaped, escaped, escapes]
    rfl

/-- Line marks put out nothing. -/
theorem shows_marks (count : Nat) : Shows o [.seq (replicate count .newline)] [] := by
  have empty : (Node.seq (replicate count .newline)).isEmpty := by simp [isEmpty, allEmpty_eq]
  have silent : (Node.seq (replicate count .newline)).shown = [] := by
    rw [shown_seq]
    simp [shown, acts]
  have nothing : Shows o [] [] := ⟨[], rfl, [], [], fun _ => rfl, rfl, rfl⟩
  have whole := nothing.cons _ _ _ (interpolated_descends.isEmpty empty)
    (fun used => congrFun ((lowered_walks o.disableCapture).isEmpty empty) used)
    ((escaped_sequences o.escapeHtml Option.none).isEmpty empty)
  rwa [silent, nil_append] at whole

end Node

namespace Embedded

open Interpolation (segments? Segment feedEntity OnOneLine preserved)
open Node (Shows)

variable {o : Options} {body n : Node} {ns : List Node} {a : List (Char ⊕ Text)}

theorem shows_preservedNodes {first : Text} {others : List Text} {segments : List Segment}
    {otherSegments : List (List Segment)} (read : segments? first = some segments)
    (readOthers : Forall₂ (fun line segments => segments? line = some segments) others
      otherSegments)
    (shows : Shows o ns a) :
    Shows o (preservedNodes (first :: others) ++ ns) (segments.flatMap Segment.shown ++
      otherSegments.flatMap (fun line => feedEntity ++ line.flatMap Segment.shown) ++ a) := by
  induction readOthers generalizing first segments with
  | nil =>
    rw [flatMap_nil, append_nil]
    exact shows.line read
  | @cons next nextSegments others otherSegments readNext _ ih =>
    have whole := ((ih readNext).static "&#x000A;").line read
    rw [flatMap_cons]
    simp only [append_assoc] at whole ⊢
    exact whole

theorem interpolated_preservedNodes {lines : List Text} {line : Text} (mem : line ∈ lines)
    (unread : segments? line = none) (ns : List Node) :
    Node.interpolatedAll (preservedNodes lines ++ ns) = .error .unclosedInterpolation := by
  have here : ∀ {line : Text}, segments? line = none → ∀ ns,
      Node.interpolatedAll (.escape true (.interpolate line) :: ns) =
        .error .unclosedInterpolation := by
    intro line unread ns
    simp [Node.interpolatedAll, Node.interpolated, Node.ofInterpolated, unread, bind, Except.bind]
  fun_induction preservedNodes lines with
  | case1 => cases mem
  | case2 only => exact here (mem_singleton.mp mem ▸ unread) ns
  | case3 first others _ ih =>
    cases read : segments? first with
    | none => exact here read _
    | some segments =>
      rcases mem_cons.mp mem with rfl | mem
      · cases unread.symm.trans read
      · simp [Node.interpolatedAll, Node.interpolated, Node.ofInterpolated, read, bind, Except.bind,
          ih mem]
        rfl

/-- What an engine and the passes behind it make of a block. -/
def compiled (o : Options) (e : Engine) (body : Node) : Except Failure Node := do
  let n ← e.render o.format body
  let n ← Pass.interpolate.runPure o n
  let n ← Pass.control.runPure o n
  Pass.escape.runPure o n

theorem compiled_of_shows {e : Engine} (rendered : e.render o.format body = .ok (.seq ns))
    (shows : Shows o ns a) : ∃ n, compiled o e body = .ok n ∧ n.shown = a := by
  obtain ⟨ns₁, expands, ns₂, ns₃, controls, escapes, rfl⟩ := shows
  refine ⟨.seq ns₃, ?_, Node.shown_seq ns₃⟩
  simp only [compiled, rendered, Pass.runPure, Node.interpolated, Node.controlled, Node.escaped,
    expands, controls,
    escapes, bind, Except.bind, pure, Except.pure, Except.map]

/-- The engine that escapes its text. -/
def escaping (markdown : Renderer) : Engine :=
  { kind := .plain, settings := { escape := true }, markdown }

/-- The engine that preserves the line breaks of its text. -/
def preserving (markdown : Renderer) : Engine :=
  { kind := .preserve, markdown }

example (markdown : Renderer) :
    (Registry.builtin markdown).find? "escaped" = some (escaping markdown) := rfl

example (markdown : Renderer) :
    (Registry.builtin markdown).find? "preserve" = some (preserving markdown) := rfl

/-- Both engines put out lines: one takes the whole text for a line. -/
theorem compiled_lines (known : body.known = .ok body) {lines : List Text} {e : Engine}
    (renders : e.render o.format body = withMarks (preservedNodes lines) body) :
    (∀ first segments others otherSegments, lines = first :: others →
      segments? first = some segments →
      Forall₂ (fun line segments => segments? line = some segments) others otherSegments →
      ∃ n, compiled o e body = .ok n ∧ n.shown = segments.flatMap Segment.shown ++
        otherSegments.flatMap fun line => feedEntity ++ line.flatMap Segment.shown) ∧
    ∀ line ∈ lines, segments? line = none → compiled o e body = .error .unclosedInterpolation := by
  have rendered : e.render o.format body =
      .ok (.seq (preservedNodes lines ++ [.seq (replicate body.marks .newline)])) := by
    rw [renders, withMarks, Node.collectMarks, known]
    rfl
  constructor
  · rintro first segments others otherSegments rfl read readOthers
    have whole :=
      compiled_of_shows rendered
      (shows_preservedNodes read readOthers (Node.shows_marks body.marks))
    rwa [append_nil] at whole
  · intro line mem unread
    simp only [compiled, rendered, Pass.runPure, Node.interpolated,
      interpolated_preservedNodes mem unread, bind,
      Except.bind]

/-- A block that is compiled with its text escaped is compiled with its line breaks preserved if no
code runs over several lines. Then the same is put out, with entities for the line breaks. -/
theorem preserve_of_escaped {markdown : Renderer}
    (done : compiled o (escaping markdown) body = .ok n) :
    ∃ segments, segments? body.rawText = some segments ∧
      (OnOneLine segments → ∃ n', compiled o (preserving markdown) body = .ok n' ∧
        n'.shown = n.shown.flatMap preserved) ∧
      (¬OnOneLine segments →
        compiled o (preserving markdown) body = .error .unclosedInterpolation) := by
  have known : body.known = .ok body := by
    unfold Node.known
    split
    next unknown =>
      have fails : body.known = .error .unknownNode := if_pos unknown
      simp [compiled, escaping, Engine.render, renderContent, Node.collectText, fails, bind,
        Except.bind] at done
    next => rfl
  have text : body.collectText = .ok body.rawText := by
    rw [Node.collectText, known]
    rfl
  have whole : (escaping markdown).render o.format body = withMarks (preservedNodes [body.rawText])
      body := by
    simp only [escaping, Engine.render, renderContent, text]
    rfl
  have lines : (preserving markdown).render o.format body =
      withMarks (preservedNodes (Text.split '\n' body.rawText)) body := by
    simp only [preserving, Engine.render, renderContent, text]
    rfl
  rw [Text.split_eq] at lines
  obtain ⟨shows, fails⟩ := compiled_lines known whole
  obtain ⟨showsLines, failsLines⟩ := compiled_lines known lines
  cases read : segments? body.rawText with
  | none => cases done.symm.trans (fails _ (.head _) read)
  | some segments =>
    obtain ⟨_, same, shown⟩ := shows _ _ _ _ rfl read .nil
    cases done.symm.trans same
    rw [flatMap_nil, append_nil] at shown
    refine ⟨segments, rfl, ?_⟩
    cases Interpolation.linesShow read with
    | readable oneLine readFirst readOthers agree =>
      obtain ⟨n', done', shown'⟩ := showsLines _ _ _ _ rfl readFirst readOthers
      rw [agree, ← shown] at shown'
      exact ⟨fun _ => ⟨n', done', shown'⟩, fun several => absurd oneLine several⟩
    | broken several mem unread =>
      exact ⟨fun oneLine => absurd oneLine several, fun _ => failsLines _ mem unread⟩

/-- Two lines with something to escape in the first and a value in the second. -/
def valuedLines : Node :=
  .seq [.newline, .interpolate "a <", .newline, .interpolate "\n#\x7bx\x7d b"]

theorem preserve_of_escaped_valuedLines :
    ∃ n n', compiled {} (escaping verbatim) valuedLines = .ok n ∧
    compiled {} (preserving verbatim) valuedLines = .ok n' ∧
    n'.shown = n.shown.flatMap preserved := by
  obtain ⟨n, done⟩ :=
    exists_of_isOk (by decide +kernel : (compiled {} (escaping verbatim) valuedLines).isOk)
  obtain ⟨segments, read, readable, _⟩ := preserve_of_escaped done
  have found : segments? valuedLines.rawText =
      some [.literal "a <\n", .code "x", .literal " b"] := by decide +kernel
  cases found.symm.trans read
  have oneLine : OnOneLine [.literal "a <\n", .code "x", .literal " b"] := by
    simp [OnOneLine]
  obtain ⟨n', done', shown⟩ := readable oneLine
  exact ⟨n, n', done, done', shown⟩

/-- A value with code over two lines is put out in escaped text, but not in preserved text. -/
theorem preserve_broken_code :
    ∃ n, compiled {} (escaping verbatim) (.interpolate "#\x7bf(1,\n2)\x7d") = .ok n ∧
    compiled {} (preserving verbatim)
    (.interpolate "#\x7bf(1,\n2)\x7d") = .error .unclosedInterpolation := by
  obtain ⟨n, done⟩ := exists_of_isOk
    (by decide +kernel : (compiled {} (escaping verbatim) (.interpolate "#\x7bf(1,\n2)\x7d")).isOk)
  exact ⟨n, done, by decide +kernel⟩

end Embedded

end MarkupTemplate
