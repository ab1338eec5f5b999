import MarkupTemplate.Proofs.Node.Explicit
import MarkupTemplate.Proofs.Node.LaidOut
import MarkupTemplate.Proofs.Node.Tidy

/-!
# Where lines start

Markup that is laid out over several lines is read here as a list of `Piece`s: text and values, the
starts of tags, comments and document types with the line breaks in front of them, and the ends of
tags and comments. Each line break follows from the pieces in front of it (`Start.lineBreak?`).
There is none at an inline tag, at a tag whose outer breaks are trimmed, and inside a tag whose
inner breaks are trimmed. It is empty if nothing stands in front, or if a tag with trimmed outer
breaks ends there, comments around it aside.
-/

namespace MarkupTemplate

namespace Markup

/-! ## Pieces -/

/-- Something that may start a line: a tag, a comment or a document type. -/
structure Start where
  level : Nat
  inline : Bool := false
  trimmed : Bool := false
  inside : Bool := false
deriving DecidableEq, Repr

/-- A piece of markup. -/
inductive Piece where
  | ink
  | start (start : Start) (lineBreak? : Option Text)
  | tagEnd (trimmed : Bool)
  | commentEnd
deriving DecidableEq, Repr

/-- Whether a tag with trimmed outer breaks has just ended, apart from the ends of comments. -/
def endsTrimmed (front : List Piece) : Bool :=
  front.reverse.find? (· ≠ .commentEnd) = some (.tagEnd true)

/-- The line break that belongs in front of something, behind other pieces. -/
def Start.lineBreak? (indent : Nat) (front : List Piece) (s : Start) : Option Text :=
  if s.inline || s.trimmed || s.inside then none
  else if front.isEmpty || endsTrimmed front then some []
  else some ('\n' :: Text.spaces (indent * s.level))

/-- The surroundings of a node. -/
structure Around where
  level : Nat := 0
  inside : Bool := false
  trimInner : Bool := false
  trimOuter : Bool := false
deriving DecidableEq, Repr

namespace Around

def trimming (a : Around) : Trim → Around
  | .inner => { a with trimInner := true }
  | .outer | .other _ => { a with trimOuter := true }

def deeper (a : Around) : Around :=
  { a with level := a.level + 1 }

def content (a : Around) : Around :=
  { level := a.level + 1, inside := a.inside || a.trimInner }

def start (a : Around) : Start :=
  { level := a.level, inside := a.inside }

def tagStart (a : Around) (name : Text) : Start :=
  { level := a.level, inline := Element.isInline name, trimmed := a.trimOuter, inside := a.inside }

end Around

end Markup

namespace Node

open Markup

/-! ## The pieces of a tree -/

def children : Node → List Node
  | .group _ children => children
  | _ => []

def inner : Node → Node
  | .frame _ inner => inner
  | n => n

/-- The text of a line break. -/
def breakText? : List Node → Option Text
  | .leaf (.static text) :: _ => some text
  | _ => none

/-- The line break in front of an opening text. -/
def breakBefore (opening : Text) (written : Node) : Option Text :=
  breakText? (written.children.takeWhile (· ≠ .static opening))

/-- The node at some distance behind an opening text. -/
def pastOpening (opening : Text) (distance : Nat) (written : Node) : Node :=
  ((written.children.dropWhile (· ≠ .static opening)).drop distance).headD .newline

mutual

/-- The pieces of a tree and of what is written for it. -/
def pieces (a : Around) : (n written : Node) → List Markup.Piece
  | .leaf (.static text), _ => if text.isEmpty then [] else [.ink]
  | .leaf (.dynamic _), _ => [.ink]
  | .leaf (.doctype _), w => [.start a.start (breakText? w.children.dropLast)]
  | .leaf _, _ => []
  | .frame .comment inner, w =>
    .start a.start (w.breakBefore "<!--") :: pieces a inner (w.pastOpening "<!--" 1) ++
      [.commentEnd]
  | .frame (.condComment condition) inner, w =>
    let opening := "<!--[" ++ condition ++ "]>"
    .start a.start (w.breakBefore opening) :: pieces a.deeper inner (w.pastOpening opening 1) ++
      [.commentEnd]
  | .frame (.trim side) inner, w => pieces (a.trimming side) inner w
  | .frame _ inner, w => pieces a inner w.inner
  | .group _ children, w => piecesOf a children w.children
  | .tag name _ none, w =>
    [.start (a.tagStart name) (w.breakBefore ("<" ++ name)), .tagEnd a.trimOuter]
  | .tag name _ (some body), w =>
    .start (a.tagStart name) (w.breakBefore ("<" ++ name)) ::
      pieces a.content body (w.pastOpening ("<" ++ name) 3) ++ [.tagEnd a.trimOuter]

def piecesOf (a : Around) : (ns written : List Node) → List Markup.Piece
  | [], _ => []
  | n :: ns, ws => pieces a n (ws.headD .newline) ++ piecesOf a ns ws.tail

end

end Node

namespace Markup

/-! ## Line breaks -/

section Pieces

variable {indent : Nat} {front : List Piece}

theorem endsTrimmed_commentEnd : endsTrimmed (front ++ [.commentEnd]) = endsTrimmed front := by
  simp [endsTrimmed]

theorem endsTrimmed_tagEnd (trimmed : Bool) :
    endsTrimmed (front ++ [.tagEnd trimmed]) = trimmed := by
  simp [endsTrimmed]

theorem endsTrimmed_ink : endsTrimmed (front ++ [.ink]) = false := by
  simp [endsTrimmed]

theorem endsTrimmed_start (s : Start) (lineBreak? : Option Text) :
    endsTrimmed (front ++ [.start s lineBreak?]) = false := by
  simp [endsTrimmed]

/-- A line break belongs where it stands. -/
def Piece.Belongs (indent : Nat) (front : List Piece) : Piece → Prop
  | .start s lineBreak? => lineBreak? = s.lineBreak? indent front
  | .ink | .tagEnd _ | .commentEnd => True

/-- All line breaks of some pieces belong where they stand, behind other pieces. -/
def AllBelong (indent : Nat) : (front pieces : List Piece) → Prop
  | _, [] => True
  | front, p :: ps => p.Belongs indent front ∧ AllBelong indent (front ++ [p]) ps

theorem allBelong_append {ps qs : List Piece} :
    AllBelong indent front (ps ++ qs) ↔ AllBelong indent front ps ∧
    AllBelong indent (front ++ ps) qs := by
  induction ps generalizing front with
  | nil => simp [AllBelong]
  | cons p ps ih => simp [AllBelong, ih, and_assoc]

theorem AllBelong.lineBreak {s : Start} {lineBreak? : Option Text} {back : List Piece}
    (all : AllBelong indent [] (front ++ .start s lineBreak? :: back)) :
    lineBreak? = s.lineBreak? indent front := by
  rw [allBelong_append] at all
  exact all.2.1

end Pieces

/-! ## Opening texts -/

variable {front : List Piece} {indent : Nat} {s : Start}

theorem Start.head_of_lineBreak {text : Text}
    (found : s.lineBreak? indent front = some text) : text.head? ≠ some '<' := by
  unfold Start.lineBreak? at found
  split at found
  · cases found
  · split at found
    · cases found
      simp
    · cases found
      simp

theorem breakText?_start :
    Node.breakText? ((s.lineBreak? indent front).toList.map .static) =
      s.lineBreak? indent front := by
  cases s.lineBreak? indent front with
  | none | some text => rfl

variable {opening : Text}

theorem breakBefore_start (opens : opening.head? = some '<') (rest : List Node) :
    Node.breakBefore opening
      (.seq ((s.lineBreak? indent front).toList.map .static ++ .static opening :: rest)) =
      s.lineBreak? indent front := by
  cases found : s.lineBreak? indent front with
  | none => simp [Node.breakBefore, Node.children, Node.breakText?]
  | some text =>
    have other : text ≠ opening := by
      rintro rfl
      exact Start.head_of_lineBreak found opens
    simp [Node.breakBefore, Node.children, Node.breakText?, other]

theorem pastOpening_start (opens : opening.head? = some '<')
    (rest : List Node) (distance : Nat) : Node.pastOpening opening distance
        (.seq ((s.lineBreak? indent front).toList.map .static ++ .static opening :: rest)) =
      ((Node.static opening :: rest).drop distance).headD .newline := by
  cases found : s.lineBreak? indent front with
  | none => simp [Node.pastOpening, Node.children]
  | some text =>
    have other : text ≠ opening := by
      rintro rfl
      exact Start.head_of_lineBreak found opens
    simp [Node.pastOpening, Node.children, other]

/-! ## Progress -/

/-- With the trims around the next tag taken off. -/
def Around.untrimmed (a : Around) : Around :=
  { a with trimInner := false, trimOuter := false }

def Around.place (a : Around) : Place :=
  ⟨!a.inside, a.level⟩

/-- What has been written so far is some pieces, as far as line breaks depend on it. -/
structure Follows (a : Around) (front : List Piece) (s : Progress) : Prop where
  started : s.started = !front.isEmpty
  trimNext : a.inside = false → s.trimNext = endsTrimmed front
  trimInner : s.trimInner = a.trimInner
  trimOuter : s.trimOuter = a.trimOuter

namespace Follows

variable {a : Around} {front : List Piece} {s : Progress}

/-- Line breaks depend on what has been written, until something else is written. -/
theorem breakNodes (follows : Follows a front s) (t : Start) (level : t.level = a.level)
    (inside : t.inside = a.inside)
    (indent : Nat) {wanted : Bool} (wants : wanted = !(t.inline || t.trimmed || t.inside))
    {start : List Node}
    {s' : Progress} (broken : Markup.breakNodes wanted indent a.place s = (start, s')) :
    start = (t.lineBreak? indent front).toList.map .static ∧ (wanted → s'.trimNext = false) ∧
    s.SameTrims s' := by
  refine ⟨?_, ?_, (isBreak_of_breakNodes broken).2⟩
  · cases off : t.inline || t.trimmed || t.inside with
    | true =>
      rw [off, Bool.not_true] at wants
      cases wants
      cases broken
      simp [Start.lineBreak?, off]
    | false =>
      rw [off, Bool.not_false] at wants
      cases wants
      have on : a.inside = false := by
        rw [← inside]
        exact (Bool.or_eq_false_iff.mp off).2
      rw [breakNodes_true, follows.started, follows.trimNext on, Bool.not_not] at broken
      rw [Start.lineBreak?, off, level]
      split at broken
      next first =>
        cases broken
        simp [first]
      next later =>
        cases broken
        simp [later, Around.place]
  · rintro rfl
    rw [breakNodes_true] at broken
    split at broken
    next =>
      cases broken
      rfl
    next later =>
      cases broken
      simp only [Bool.or_eq_true, not_or, Bool.not_eq_true] at later
      exact later.2

theorem ink (follows : Follows a front s) : Follows a (front ++ [.ink]) s.written :=
  ⟨by simp [Progress.written], fun _ => endsTrimmed_ink.symm, follows.trimInner, follows.trimOuter⟩

theorem trimming (follows : Follows a front s) (side : Trim) :
    Follows (a.trimming side) front (s.trimming side) := by
  cases side with
  | inner => exact ⟨follows.started, follows.trimNext, rfl, follows.trimOuter⟩
  | outer | other word => exact ⟨follows.started, follows.trimNext, follows.trimInner, rfl⟩

end Follows

theorem started_of_breakNodes {wanted : Bool} {p : Place} {s t : Progress} {start : List Node}
    (broken : breakNodes wanted indent p s = (start, t)) (started : s.started) : t.started := by
  cases wanted with
  | false =>
    cases broken
    exact started
  | true =>
    rw [breakNodes_true] at broken
    split at broken
    · cases broken
      rfl
    · cases broken
      exact started

end Markup

namespace Node

open Markup

/-! ## Writing -/

variable {o : Options} {ns start : List Node} {n : Node} {s s₁ : Progress}
  {front : List Markup.Piece} {a : Around}

theorem markupAll_still {p : Markup.Place}
    (each : ∀ n ∈ ns, Yields (fun r => r.2 = s) (fun _ => True) (n.markup o p s)) :
    Yields (fun r => r.2 = s) (fun _ => True) (markupAll o p s ns) := by
  induction ns with
  | nil => exact rfl
  | cons n ns ih =>
    rw [List.forall_mem_cons] at each
    refine each.1.bind ?_
    rintro ⟨n', s'⟩ rfl
    exact (ih each.2).bind fun _ still => still

/-- Attributes leave no trace, as something has been written before them. -/
theorem markup_inert (o : Options) (p : Markup.Place) (settled : s.written = s) (inert : Inert n) :
    Yields (fun r => r.2 = s) (fun _ => True) (n.markup o p s) := by
  induction inert with
  | @leaf l allowed =>
    cases l with
    | unknown | doctype | trim => nomatch allowed
    | static text =>
      show s.wrote text = s
      unfold Progress.wrote
      split
      · rfl
      · exact settled
    | dynamic => exact settled
    | _ => exact rfl
  | @frame f inner allowed _ ih =>
    cases f with
    | comment | condComment | trim | embedded => nomatch allowed
    | _ => exact ih.bind fun _ still => still
  | seq _ ih => exact (markupAll_still ih).bind fun _ still => still

theorem markup_of_isEmpty (o : Options) (p : Markup.Place) (s : Progress) (empty : n.isEmpty) :
    n.markup o p s = .ok (n, s) :=
  congrFun ((writing_sequences o p).isEmpty empty) s

theorem pieces_of_isEmpty (a : Around) (empty : n.isEmpty) (w : Node) : n.pieces a w = [] := by
  induction n using Node.induction generalizing w with
  | leaf l =>
    cases l with
    | newline => rfl
    | _ => cases empty
  | group g children ih =>
    cases g with
    | attrs => cases empty
    | seq =>
      rw [pieces]
      generalize w.children = ws
      induction children generalizing ws with
      | nil => rfl
      | cons n ns ihList =>
        simp only [isEmpty, allEmpty, Bool.and_eq_true] at empty
        rw [List.forall_mem_cons] at ih
        rw [piecesOf, ih.1 empty.1, ihList ih.2 empty.2]
        rfl
  | _ => cases empty

/-- Some pieces with their line breaks where they belong, and what has been written behind them. -/
def LaysAs (indent : Nat) (a : Around) (front pieces : List Markup.Piece) (s : Progress) : Prop :=
  AllBelong indent front pieces ∧ Follows a.untrimmed (front ++ pieces) s

/-- What is written for a node, with its line breaks where they belong. -/
def Lays (o : Options) (a : Around) (front : List Markup.Piece) (n : Node) (r : Node × Progress) :
    Prop :=
  LaysAs o.indent a front (n.pieces a r.1) r.2

theorem markupAll_lays (bare : a.untrimmed = a)
    (each : ∀ n ∈ ns, ∀ front s, Follows a front s →
      Yields (Lays o a front n) (fun _ => True) (n.markup o a.place s))
    (follows : Follows a front s) :
    Yields (fun r => AllBelong o.indent front (piecesOf a ns r.1) ∧
      Follows a (front ++ piecesOf a ns r.1) r.2) (fun _ => True) (markupAll o a.place s ns) := by
  induction ns generalizing front s with
  | nil => exact ⟨trivial, by simpa [piecesOf] using follows⟩
  | cons n ns ih =>
    rw [List.forall_mem_cons] at each
    refine (each.1 front s follows).bind ?_
    rintro ⟨w, s'⟩ ⟨first, follows⟩
    rw [bare] at follows
    refine (ih each.2 follows).bind ?_
    rintro ⟨ws, s''⟩ ⟨rest, follows⟩
    rw [List.append_assoc] at follows
    exact ⟨allBelong_append.mpr ⟨first, rest⟩, follows⟩

theorem laysAs_enclosed {indent : Nat} {front inside : List Markup.Piece} {t : Start}
    {last : Markup.Piece}
    (belong : AllBelong indent (front ++ [.start t (t.lineBreak? indent front)]) inside)
    (ends : ∀ front, last.Belongs indent front) (started : s.started)
    (trimNext : a.inside = false →
      s.trimNext = endsTrimmed (front ++ [.start t (t.lineBreak? indent front)] ++ inside ++
        [last]))
    (inner : s.trimInner = false) (outer : s.trimOuter = false) :
    LaysAs indent a front (.start t (t.lineBreak? indent front) :: inside ++ [last]) s := by
  have regroup : front ++ (.start t (t.lineBreak? indent front) :: inside ++ [last]) =
      front ++ [.start t (t.lineBreak? indent front)] ++ inside ++ [last] := by simp
  refine ⟨⟨rfl, allBelong_append.mpr ⟨belong, ends _, trivial⟩⟩, ?_⟩
  rw [regroup]
  exact ⟨by simp [started], trimNext, inner, outer⟩

/-- A comment: the line breaks behind its end depend on what was written in front of its end. -/
theorem markup_comment {a a' : Around} {f : Frame} {inner : Node} {opening : Text}
    (opens : opening.head? = some '<') (closing : Text) (inside : a'.inside = a.inside)
    (lone : a.untrimmed = a) (lone' : a'.untrimmed = a')
    (shape : ∀ w, pieces a (.frame f inner) w = .start a.start (w.breakBefore opening) ::
      inner.pieces a' (w.pastOpening opening 1) ++ [.commentEnd])
    (ih : ∀ front s, Follows a' front s →
      Yields (Lays o a' front inner) (fun _ => True) (inner.markup o a'.place s))
    (follows : Follows a front s)
    (opened : breakNodes a.place.pretty o.indent a.place s = (start, s₁)) :
    Yields (Lays o a front (.frame f inner)) (fun _ => True)
      (inner.markup o a'.place { s₁ with started := true } >>= fun r =>
        pure (.seq (start ++ [.static opening, r.1, .static closing]),
          r.2.closedBlock a.place.pretty)) := by
  obtain ⟨rfl, still, trims⟩ :=
    follows.breakNodes a.start rfl rfl o.indent (by simp [Around.place, Around.start]) opened
  rw [← lone] at follows
  have begun : Follows a' (front ++ [.start a.start (a.start.lineBreak? o.indent front)])
      { s₁ with started := true } := by
    rw [← lone']
    exact ⟨by simp,
      fun on => (still (by simp [Around.place, ← inside, show a'.inside = false from on])).trans
      (endsTrimmed_start _ _).symm, trims.inner.symm.trans follows.trimInner,
        trims.outer.symm.trans follows.trimOuter⟩
  refine (ih _ _ begun).bind ?_
  rintro ⟨w, s₂⟩ ⟨belong, next⟩
  show LaysAs _ _ _ (pieces a (.frame f inner) _) _
  rw [shape, breakBefore_start opens, pastOpening_start opens]
  refine laysAs_enclosed belong (fun _ => trivial) ?_ ?_ next.trimInner next.trimOuter
  · exact next.started.trans (by simp)
  · intro on
    rw [endsTrimmed_commentEnd]
    exact next.trimNext (inside.trans on)

theorem markup_tagStart (follows : Follows a front s)
    (name : Text) {entries : List Node} (each : ∀ e ∈ entries, Inert e)
    (opened : breakNodes (a.place.pretty && !Element.isInline name && !s.trimOuter) o.indent a.place
      { s with trimInner := false, trimOuter := false } = (start, s₁)) :
    start = ((a.tagStart name).lineBreak? o.indent front).toList.map .static ∧
      Yields (fun r => r.2.started ∧ r.2.trimNext = false ∧ r.2.trimInner = false ∧
        r.2.trimOuter = false)
        (fun _ => True) (markupAll o a.place s₁.written entries) := by
  have plain : Follows a.untrimmed front { s with trimInner := false, trimOuter := false } :=
    ⟨follows.started, follows.trimNext, rfl, rfl⟩
  obtain ⟨same, _, trims⟩ := plain.breakNodes (a.tagStart name) rfl rfl o.indent
    (by simp [Around.place, Around.tagStart, follows.trimOuter, Bool.and_comm, Bool.and_left_comm])
      opened
  have still := markupAll_still fun e mem => markup_inert o a.place (s := s₁.written) rfl
    (each e mem)
  refine ⟨same, still.mono ?_ fun _ _ => trivial⟩
  rintro ⟨entries', s₂⟩ rfl
  exact ⟨rfl, rfl, trims.inner.symm, trims.outer.symm⟩

/-- Of the leaves, only a document type starts a line. -/
theorem markup_leaf (o : Options) {l : Leaf} (free : l.isFree) (lone : a.untrimmed = a)
    (follows : Follows a front s) :
    Yields (Lays o a front (.leaf l)) (fun _ => True) ((Node.leaf l).markup o a.place s) := by
  have plain : Follows a.untrimmed front s := lone.symm ▸ follows
  cases l with
  | unknown | trim => cases free
  | static text =>
    show LaysAs o.indent a front (if text.isEmpty then [] else [.ink]) (if text.isEmpty then s
      else s.written)
    split
    · exact ⟨trivial, by simpa using plain⟩
    · exact ⟨⟨trivial, trivial⟩, plain.ink⟩
  | dynamic source => exact ⟨⟨trivial, trivial⟩, plain.ink⟩
  | doctype kind =>
    rw [markup]
    cases declared : Doctype.declaration? o.format kind with
    | none => trivial
    | some declaration =>
      dsimp only
      generalize opened : breakNodes a.place.pretty o.indent a.place s = started
      obtain ⟨start, s₁⟩ := started
      obtain ⟨rfl, still, trims⟩ :=
        follows.breakNodes a.start rfl rfl o.indent (by simp [Around.place, Around.start]) opened
      show LaysAs _ _ _ (pieces a (.doctype kind) _) _
      rw [pieces, children, List.dropLast_concat, breakText?_start]
      refine ⟨⟨rfl, trivial⟩, by simp, fun on => ?_, trims.inner.symm.trans plain.trimInner,
        trims.outer.symm.trans plain.trimOuter⟩
      have on : a.inside = false := on
      exact (still (by simp [Around.place, on])).trans (endsTrimmed_start _ _).symm
  | _ => exact ⟨trivial, by simpa [pieces] using plain⟩

theorem markup_lays (o : Options) (tidy : Tidy false Inert n) (bare : n.isTag ∨ a.untrimmed = a)
    (follows : Follows a front s) :
    Yields (Lays o a front n) (fun _ => True) (n.markup o a.place s) := by
  induction tidy generalizing a front s with
  | leaf free => exact markup_leaf o free (bare.resolve_left Bool.false_ne_true) follows
  | @frame f inner free _ ih =>
    have lone := bare.resolve_left (fun tag => by simp [isTag_of_isFree free] at tag)
    cases f with
    | comment =>
      rw [markup]
      generalize opened : breakNodes a.place.pretty o.indent a.place s = started
      obtain ⟨start, s₁⟩ := started
      exact markup_comment (by decide) _ rfl lone lone (fun _ => rfl) (fun _ _ => ih (.inr lone))
        follows opened
    | condComment condition =>
      have lone' : a.deeper.untrimmed = a.deeper := congrArg Around.deeper lone
      rw [markup]
      generalize opened : breakNodes a.place.pretty o.indent a.place s = started
      obtain ⟨start, s₁⟩ := started
      exact @markup_comment o start _ s₁ _ a a.deeper _ _ _ rfl _ rfl lone lone' (fun _ => rfl)
        (fun _ _ => ih (.inr lone')) follows opened
    | escape | control | output | block | capture =>
      refine (ih (.inr lone) follows).bind ?_
      rintro ⟨w, s'⟩ lays
      exact lays
    | _ => cases free
  | trim side tag _ ih =>
    rw [markup]
    have inside := ih (a := a.trimming side) (.inl tag) (follows.trimming side)
    cases side with
    | inner | outer | other => exact inside
  | embedded blocks => cases blocks
  | seq _ ih =>
    have lone := bare.resolve_left Bool.false_ne_true
    refine (markupAll_lays lone (fun n mem front s => ih n mem (.inr lone)) follows).bind ?_
    rintro ⟨ws, s'⟩ ⟨belong, follows⟩
    exact ⟨belong, by rw [lone]; exact follows⟩
  | @closed name entries each =>
    rw [markup]
    generalize opened : breakNodes _ o.indent a.place _ = started
    obtain ⟨start, s₁⟩ := started
    obtain ⟨rfl, begun⟩ := markup_tagStart follows name each opened
    refine begun.bind ?_
    rintro ⟨ws, s₂⟩ ⟨started, _, inner, outer⟩
    show LaysAs _ _ _ (pieces a (.tag name entries none) _) _
    rw [pieces, breakBefore_start rfl]
    show LaysAs _ _ _ (.start (a.tagStart name) _ :: [] ++ [.tagEnd a.trimOuter]) _
    refine laysAs_enclosed trivial (fun _ => trivial) started (fun _ => ?_) inner outer
    rw [endsTrimmed_tagEnd]
    exact follows.trimOuter
  | @tag name entries body each _ ih =>
    rw [markup]
    generalize opened : breakNodes _ o.indent a.place _ = started
    obtain ⟨start, s₁⟩ := started
    obtain ⟨rfl, begun⟩ := markup_tagStart follows name each opened
    refine begun.bind ?_
    rintro ⟨ws, s₂⟩ ⟨started, settled, inner, outer⟩
    dsimp only
    split
    next contentless =>
      have empty : body.isEmpty := (Bool.and_eq_true_iff.mp contentless).2
      rw [markup_of_isEmpty o a.place s₂ empty]
      show LaysAs _ _ _ (pieces a (.tag name entries (some body)) _) _
      rw [pieces, breakBefore_start rfl, pieces_of_isEmpty _ empty]
      refine laysAs_enclosed trivial (fun _ => trivial) started (fun _ => ?_) inner outer
      rw [endsTrimmed_tagEnd]
      exact follows.trimOuter
    next filled =>
      have place : { a.place.deeper with pretty := a.place.pretty && !s.trimInner } =
          a.content.place := by
        simp [Around.place, Around.content, Place.deeper, follows.trimInner]
      have entered : Follows a.content
          (front ++ [.start (a.tagStart name) ((a.tagStart name).lineBreak? o.indent front)])
          { s₂ with hasBlock := false } :=
        ⟨started.trans (by simp), fun _ => settled.trans (endsTrimmed_start _ _).symm, inner, outer⟩
      rw [place]
      refine (ih (.inr rfl) entered).bind ?_
      rintro ⟨w, s₃⟩ ⟨belong, next⟩
      dsimp only
      generalize closing : breakNodes _ o.indent a.place s₃ = closed
      obtain ⟨close, s₄⟩ := closed
      have trims := (isBreak_of_breakNodes closing).2
      have last : s₄.started := started_of_breakNodes closing (next.started.trans (by simp))
      show LaysAs _ _ _ (pieces a (.tag name entries (some body)) _) _
      simp only [List.append_assoc, List.cons_append]
      rw [pieces, breakBefore_start rfl, pastOpening_start rfl]
      refine laysAs_enclosed belong (fun _ => trivial) last (fun _ => ?_)
        (trims.inner.symm.trans next.trimInner)
        (trims.outer.symm.trans next.trimOuter)
      rw [endsTrimmed_tagEnd]
      exact follows.trimOuter

theorem allBelong_markup (pretty : o.pretty) {laid : Node} (tidy : Tidy false Inert n)
    (written : Pass.markup.runPure o n = .ok laid) : AllBelong o.indent [] (n.pieces {} laid) := by
  have follows : Follows {} [] {} := ⟨rfl, fun _ => rfl, rfl, rfl⟩
  have lays : Yields (fun laid => AllBelong o.indent [] (n.pieces {} laid)) (fun _ => True)
      (Pass.markup.runPure o n) := by
    rw [Pass.runPure, pretty]
    exact (markup_lays o tidy (.inr rfl) follows).map fun _ lays => lays.1
  exact lays.of_ok written

end Node

end MarkupTemplate
