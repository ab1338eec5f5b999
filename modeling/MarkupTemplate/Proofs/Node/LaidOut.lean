import MarkupTemplate.Compiler
import MarkupTemplate.Proofs.Node.Walk

/-!
# Markup laid out over several lines

With line breaks on, the markup of a tree is the same as with line breaks off, but for static texts
in front of what starts a line and of closing tags: each is empty, or a line feed and the
indentation of its nesting. `LaidOut` says for both trees at once where such a text may stand. What
has been written decides nothing but these texts: the two runs agree on the trims that wait for the
next tag (`Progress.SameTrims`).
-/

namespace MarkupTemplate

namespace Markup

/-- The nodes of a line break: none, or a text that is empty or breaks and indents the line. -/
inductive IsBreak (indent level : Nat) : List Node → Prop where
  | absent : IsBreak indent level []
  | empty : IsBreak indent level [.static []]
  | line : IsBreak indent level [.static ('\n' :: Text.spaces (indent * level))]

theorem breakNodes_true (indent : Nat) (p : Place) (s : Progress) : breakNodes true indent p s =
    if !s.started || s.trimNext then ([.static []], s.written)
    else ([.static ('\n' :: Text.spaces (indent * p.level))], s) := by
  simp only [breakNodes, lineBreak, if_true]
  split <;> rfl

theorem breakNodes_false (indent : Nat) (p : Place) (s : Progress) :
    breakNodes false indent p s = ([], s) := rfl

end Markup

def Leaf.isPlain : Leaf → Bool
  | .doctype _ | .trim _ => false
  | _ => true

def Frame.isPlain : Frame → Bool
  | .attr _ | .shortcut _ | .comment | .condComment _ | .trim _ => false
  | _ => true

namespace Node

open Markup

mutual

/-- Two trees are the markup of a node as text, the second with line breaks in front of tags,
comments, document types and closing tags, for the level at which these stand. -/
inductive LaidOut (o : Options) : (level : Nat) → (n plain laid : Node) → Prop where
  | leaf {level : Nat} {l : Leaf} : l.isPlain → LaidOut o level (.leaf l) (.leaf l) (.leaf l)
  | noTag {level : Nat} (side : Trim) : LaidOut o level (.leaf (.trim side)) (.seq []) (.seq [])
  | doctype {level : Nat} {kind declaration : Text} {start : List Node} :
    Doctype.declaration? o.format kind = some declaration → IsBreak o.indent level start →
    LaidOut o level (.doctype kind) (.seq [.static declaration])
    (.seq (start ++ [.static declaration]))
  | frame {level : Nat} {f : Frame} {inner plain laid : Node} :
    f.isPlain → LaidOut o level inner plain laid →
    LaidOut o level (.frame f inner) (.frame f plain) (.frame f laid)
  | attr {level : Nat} (name : Text) {value plain laid : Node} : LaidOut o level value plain laid →
    LaidOut o level (.attr name value)
      (.seq [.static (attrStart o.attrQuote name), plain, .static [o.attrQuote.char]])
      (.seq [.static (attrStart o.attrQuote name), laid, .static [o.attrQuote.char]])
  | shortcut {level : Nat} (name : Text) {value plain laid : Node} :
    LaidOut o level value plain laid →
    LaidOut o level (.shortcut name value)
      (.seq [.static (attrStart o.attrQuote name), plain, .static [o.attrQuote.char]])
      (.seq [.static (attrStart o.attrQuote name), laid, .static [o.attrQuote.char]])
  | trim {level : Nat} (side : Trim) {inner plain laid : Node} : LaidOut o level inner plain laid →
    LaidOut o level (.trim side inner) plain laid
  | comment {level : Nat} {inner plain laid : Node} {start : List Node} :
    IsBreak o.indent level start → LaidOut o level inner plain laid →
    LaidOut o level (.comment inner)
      (.seq [.static "<!--", plain, .static "-->"])
      (.seq (start ++ [.static "<!--", laid, .static "-->"]))
  | condComment {level : Nat} (condition : Text) {inner plain laid : Node} {start : List Node} :
    IsBreak o.indent level start → LaidOut o (level + 1) inner plain laid →
    LaidOut o level (.condComment condition inner)
      (.seq [.static ("<!--[" ++ condition ++ "]>"), plain, .static "<![endif]-->"])
      (.seq (start ++ [.static ("<!--[" ++ condition ++ "]>"), laid, .static "<![endif]-->"]))
  | seq {level : Nat} {ns plains laids : List Node} : AllLaidOut o level ns plains laids →
    LaidOut o level (.seq ns) (.seq plains) (.seq laids)
  | attrs {level : Nat} {entries plains laids : List Node} :
    AllLaidOut o level entries plains laids →
    LaidOut o level (.attrs entries) (.seq plains) (.seq laids)
  | closed {level : Nat} (name : Text) {entries plains laids start : List Node} :
    IsBreak o.indent level start → AllLaidOut o level entries plains laids →
    LaidOut o level (.tag name entries none)
      (.seq [.static ("<" ++ name), .seq plains, .static (emptyEnd o.format)])
      (.seq (start ++ [.static ("<" ++ name), .seq laids, .static (emptyEnd o.format)]))
  | void {level : Nat} {name : Text} {entries plains laids start : List Node}
    {body plain laid : Node} :
    isContentless name (some body) → IsBreak o.indent level start →
    AllLaidOut o level entries plains laids →
    LaidOut o level body plain laid →
    LaidOut o level (.tag name entries (some body))
      (.seq [.static ("<" ++ name), .seq plains, .static (emptyEnd o.format), plain])
      (.seq (start ++ [.static ("<" ++ name), .seq laids, .static (emptyEnd o.format), laid]))
  | element {level : Nat} {name : Text} {entries plains laids start close : List Node}
    {body plain laid : Node} :
    isContentless name (some body) = false → IsBreak o.indent level start →
    AllLaidOut o level entries plains laids →
    LaidOut o (level + 1) body plain laid → IsBreak o.indent level close →
    LaidOut o level (.tag name entries (some body))
      (.seq [.static ("<" ++ name), .seq plains, .static ">", plain,
        .static ("</" ++ name ++ ">")])
      (.seq (start ++ [.static ("<" ++ name), .seq laids, .static ">", laid] ++ close ++
        [.static ("</" ++ name ++ ">")]))

/-- Several nodes, each with the two trees of its markup. -/
inductive AllLaidOut (o : Options) : (level : Nat) → (ns plains laids : List Node) → Prop where
  | nil {level : Nat} : AllLaidOut o level [] [] []
  | cons {level : Nat} {n plain laid : Node} {ns plains laids : List Node} :
    LaidOut o level n plain laid → AllLaidOut o level ns plains laids →
    AllLaidOut o level (n :: ns) (plain :: plains) (laid :: laids)

end

end Node

/-! ## Two runs -/

namespace Markup

/-- The same trims wait for the next tag. -/
structure Progress.SameTrims (s s' : Progress) : Prop where
  inner : s.trimInner = s'.trimInner
  outer : s.trimOuter = s'.trimOuter

namespace Progress.SameTrims

variable {s s' : Progress}

theorem trans_of (same : SameTrims s s') {t t' : Progress} (here : SameTrims s t)
    (there : SameTrims s' t') : SameTrims t t' :=
  ⟨here.inner.symm.trans (same.inner.trans there.inner),
    here.outer.symm.trans (same.outer.trans there.outer)⟩

theorem wrote (s : Progress) (text : Text) : SameTrims s (s.wrote text) := by
  unfold Progress.wrote
  split <;> exact ⟨rfl, rfl⟩

theorem trimming (same : SameTrims s s') (side : Trim) :
    SameTrims (s.trimming side) (s'.trimming side) := by
  cases side with
  | inner => exact ⟨rfl, same.outer⟩
  | outer | other word => exact ⟨same.inner, rfl⟩

end Progress.SameTrims

theorem isBreak_of_breakNodes {wanted pretty : Bool} {indent level : Nat} {s t : Progress}
    {start : List Node} (broken : breakNodes wanted indent ⟨pretty, level⟩ s = (start, t)) :
    IsBreak indent level start ∧ s.SameTrims t := by
  cases wanted with
  | false =>
    cases broken
    exact ⟨.absent, rfl, rfl⟩
  | true =>
    rw [breakNodes_true] at broken
    split at broken
    · cases broken
      exact ⟨.empty, rfl, rfl⟩
    · cases broken
      exact ⟨.line, rfl, rfl⟩

/-- What two runs on a node give: the markup without and with line breaks, and the same trims. -/
def TwoRuns (o : Options) (level : Nat) (n : Node) (r r' : Node × Progress) : Prop :=
  n.LaidOut o level r.1 r'.1 ∧ r.2.SameTrims r'.2

end Markup

namespace Node

open Markup

theorem markupAll_laidOut {o : Options} {level : Nat} {pretty : Bool} {ns : List Node}
    (each : ∀ n ∈ ns, ∀ s s', Progress.SameTrims s s' →
      Concur (TwoRuns o level n) (n.markup { o with pretty := false } ⟨false, level⟩ s)
        (n.markup { o with pretty := true } ⟨pretty, level⟩ s'))
    {s s' : Progress} (same : s.SameTrims s') :
    Concur (fun r r' => AllLaidOut o level ns r.1 r'.1 ∧ r.2.SameTrims r'.2)
      (markupAll { o with pretty := false } ⟨false, level⟩ s ns)
      (markupAll { o with pretty := true } ⟨pretty, level⟩ s' ns) := by
  induction ns generalizing s s' with
  | nil => exact .ok ⟨.nil, same⟩
  | cons n ns ih =>
    rw [List.forall_mem_cons] at each
    rw [markupAll, markupAll]
    refine (each.1 s s' same).bind ?_
    rintro ⟨plain, s⟩ ⟨laid, s'⟩ ⟨first, same⟩
    refine (ih each.2 same).bind ?_
    rintro ⟨plains, s⟩ ⟨laids, s'⟩ ⟨rest, same⟩
    exact .ok ⟨.cons first rest, same⟩

/-- The markup of a tree without and with line breaks, where they may be off in both runs. -/
theorem markup_laidOut (o : Options) (n : Node) (level : Nat) (pretty : Bool) {s s' : Progress}
    (same : s.SameTrims s') :
    Concur (TwoRuns o level n) (n.markup { o with pretty := false } ⟨false, level⟩ s)
      (n.markup { o with pretty := true } ⟨pretty, level⟩ s') := by
  induction n using Node.induction generalizing level pretty s s' with
  | leaf l =>
    cases l with
    | unknown => exact .error _
    | static text => exact .ok ⟨.leaf rfl, same.trans_of (.wrote s text) (.wrote s' text)⟩
    | dynamic source => exact .ok ⟨.leaf rfl, same.inner, same.outer⟩
    | newline | code | interpolate | value => exact .ok ⟨.leaf rfl, same⟩
    | trim side => exact .ok ⟨.noTag side, same.trimming side⟩
    | doctype kind =>
      rw [markup, markup]
      cases declared : Doctype.declaration? o.format kind with
      | none => exact .error _
      | some declaration =>
        dsimp only
        generalize opened : breakNodes _ o.indent ⟨pretty, level⟩ s' = started
        obtain ⟨start, t⟩ := started
        obtain ⟨broken, trims⟩ := isBreak_of_breakNodes opened
        simp only [breakNodes_false]
        exact .ok ⟨.doctype declared broken, same.inner.trans trims.inner,
          same.outer.trans trims.outer⟩
  | frame f inner ih =>
    cases f with
    | attr name | shortcut name =>
      rw [markup, markup]
      refine (ih level pretty same).bind ?_
      rintro ⟨plain, s⟩ ⟨laid, s'⟩ ⟨inside, same⟩
      exact .ok ⟨by constructor; exact inside, same⟩
    | comment | condComment condition =>
      rw [markup, markup]
      generalize opened : breakNodes _ o.indent ⟨pretty, level⟩ _ = started
      obtain ⟨start, t⟩ := started
      obtain ⟨broken, trims⟩ := isBreak_of_breakNodes opened
      have begun : Progress.SameTrims { s with started := true } { t with started := true } :=
        ⟨same.inner.trans trims.inner, same.outer.trans trims.outer⟩
      refine (ih _ pretty begun).bind ?_
      rintro ⟨plain, s⟩ ⟨laid, s'⟩ ⟨inside, same⟩
      exact .ok ⟨by constructor; exacts [broken, inside], same.inner, same.outer⟩
    | trim side =>
      rw [markup, markup]
      refine (ih level pretty (same.trimming side)).mono ?_
      rintro ⟨plain, s⟩ ⟨laid, s'⟩ ⟨inside, same⟩
      exact ⟨.trim side inside, same⟩
    | _ =>
      refine (ih level pretty same).bind ?_
      rintro ⟨plain, s⟩ ⟨laid, s'⟩ ⟨inside, same⟩
      exact .ok ⟨.frame rfl inside, same⟩
  | group g children ih =>
    have inside := markupAll_laidOut (fun n mem _ _ => ih n mem level pretty) same
    cases g with
    | seq => exact inside.bind fun _ _ ⟨all, same⟩ => .ok ⟨.seq all, same⟩
    | attrs => exact inside.bind fun _ _ ⟨all, same⟩ => .ok ⟨.attrs all, same⟩
  | closed name entries ih =>
    rw [markup, markup]
    generalize opened : breakNodes _ o.indent ⟨pretty, level⟩ _ = started
    obtain ⟨start, t⟩ := started
    obtain ⟨broken, trims⟩ := isBreak_of_breakNodes opened
    simp only [Bool.false_and, breakNodes_false]
    have begun : Progress.SameTrims
        (Progress.written { s with trimInner := false, trimOuter := false }) t.written :=
      ⟨trims.inner, trims.outer⟩
    refine (markupAll_laidOut (fun n mem _ _ => ih n mem level pretty) begun).bind ?_
    rintro ⟨plains, s⟩ ⟨laids, s'⟩ ⟨inside, same⟩
    exact .ok ⟨.closed name broken inside, same.inner, same.outer⟩
  | tag name entries body ihEntries ihBody =>
    rw [markup, markup]
    generalize opened : breakNodes _ o.indent ⟨pretty, level⟩ _ = started
    obtain ⟨start, t⟩ := started
    obtain ⟨broken, trims⟩ := isBreak_of_breakNodes opened
    simp only [Bool.false_and, breakNodes_false]
    have begun : Progress.SameTrims
        (Progress.written { s with trimInner := false, trimOuter := false }) t.written :=
      ⟨trims.inner, trims.outer⟩
    refine (markupAll_laidOut (fun n mem _ _ => ihEntries n mem level pretty) begun).bind ?_
    rintro ⟨plains, s₁⟩ ⟨laids, s₁'⟩ ⟨inside, same₁⟩
    dsimp only
    split
    next contentless =>
      refine (ihBody level pretty same₁).bind ?_
      rintro ⟨plain, s₂⟩ ⟨laid, s₂'⟩ ⟨content, same₂⟩
      exact .ok ⟨.void contentless broken inside content, same₂.inner, same₂.outer⟩
    next filled =>
      have entered : Progress.SameTrims { s₁ with hasBlock := false }
        { s₁' with hasBlock := false } :=
        ⟨same₁.inner, same₁.outer⟩
      refine (ihBody (level + 1) (pretty && !s'.trimInner) entered).bind ?_
      rintro ⟨plain, s₂⟩ ⟨laid, s₂'⟩ ⟨content, same₂⟩
      dsimp only
      generalize closing : breakNodes _ o.indent ⟨pretty, level⟩ s₂' = closed
      obtain ⟨close, t₂⟩ := closed
      obtain ⟨brokenClose, trimsClose⟩ := isBreak_of_breakNodes closing
      exact .ok ⟨.element (eq_false_of_ne_true filled) broken inside content brokenClose,
        same₂.inner.trans trimsClose.inner, same₂.outer.trans trimsClose.outer⟩

end Node

/-- Writing the markup of a tree with line breaks fails exactly when writing it without fails, with
the same failure. Otherwise it adds static texts in front of opening tags, comments, document types
and closing tags: each is empty, or a line feed and the indentation for the elements with content
and the conditional comments around it. -/
theorem Pass.pretty_adds_breaks (o : Options) (n : Node) :
    Concur (Node.LaidOut o 0 n) (Pass.markup.runPure { o with pretty := false } n)
      (Pass.markup.runPure { o with pretty := true } n) := by
  have same : Markup.Progress.SameTrims {} {} := ⟨rfl, rfl⟩
  exact (Node.markup_laidOut o n 0 true same).map fun _ _ both => both.1

end MarkupTemplate
