import MarkupTemplate.Proofs.Node.LineStarts

/-!
# Line breaks in front of closing tags

Without trims, the closing tag of an element that is not inline stands on a line of its own exactly
if the content holds something that starts a line (`markup_closes`). The content of an inline
element does not count for the elements around it (`holdsLine`).
-/

namespace MarkupTemplate.Node

open List
open Element (isInline)

open Markup

/-! ## Where closing tags stand -/

mutual

/-- Whether a comment or an element that is not inline is inside, but not in inline elements. -/
def holdsLine : Node → Bool
  | .leaf _ => false
  | .frame .comment _ | .frame (.condComment _) _ => true
  | .frame _ inner => holdsLine inner
  | .group _ children => anyHoldsLine children
  | .tag name entries _ => anyHoldsLine entries || !isInline name

def anyHoldsLine : List Node → Bool
  | [] => false
  | n :: ns => holdsLine n || anyHoldsLine ns

end

def within : Node → List Node
  | .frame _ inner => [inner]
  | .group _ children => children
  | _ => []

mutual

/-- A tree is the markup of a node, and closing tags have the line breaks they ask for. -/
inductive Closes (indent : Nat) : (level : Nat) → (n w : Node) → Prop where
  | leaf {level : Nat} (l : Leaf) (w : Node) : Closes indent level (.leaf l) w
  | condComment {level : Nat} (condition : Text) {inner w w' : Node} :
    Closes indent (level + 1) inner w' →
    w' ∈ w.within → Closes indent level (.condComment condition inner) w
  | frame {level : Nat} {f : Frame} {inner w w' : Node} :
    (∀ condition, f ≠ .condComment condition) →
    Closes indent level inner w' → w' ∈ w.within → Closes indent level (.frame f inner) w
  | group {level : Nat} (g : Group) {ns ws : List Node} : AllClose indent level ns ws →
    Closes indent level (.group g ns) (.seq ws)
  | empty {level : Nat} {name : Text} {entries ws : List Node} {body? : Option Node} {w : Node} :
    isContentless name body? → AllClose indent level entries ws → .seq ws ∈ w.within →
    Closes indent level (.tag name entries body?) w
  | element {level : Nat} {name : Text} {entries ws start close : List Node} {body w : Node} :
    isContentless name (some body) = false → AllClose indent level entries ws →
    Closes indent (level + 1) body w →
    close = (if !isInline name && body.holdsLine then
      [.static ('\n' :: Text.spaces (indent * level))] else []) →
    Closes indent level (.tag name entries (some body)) (.seq (start ++
      [.static ("<" ++ name), .seq ws, .static ">", w] ++ close ++
      [Node.static ("</" ++ name ++ ">")]))

inductive AllClose (indent : Nat) : (level : Nat) → (ns ws : List Node) → Prop where
  | nil {level : Nat} : AllClose indent level [] []
  | cons {level : Nat} {n w : Node} {ns ws : List Node} :
    Closes indent level n w → AllClose indent level ns ws →
    AllClose indent level (n :: ns) (w :: ws)

end

/-! ## Writing without trims -/

/-- What has been written, if no trims are there. -/
def calm (started hasBlock : Bool) : Progress :=
  ⟨started, hasBlock, false, false, false⟩

theorem breakNodes_calm (wanted : Bool) (indent : Nat) (p : Markup.Place)
    (started hasBlock : Bool) :
    ∃ start later, breakNodes wanted indent p (calm started hasBlock) =
      (start, calm later hasBlock) ∧ (started → later) := by
  cases wanted with
  | false => exact ⟨[], started, rfl, id⟩
  | true =>
    rw [breakNodes_true]
    cases started with
    | false => exact ⟨_, true, rfl, fun _ => rfl⟩
    | true => exact ⟨_, true, rfl, id⟩

/-- Once something is written, a line break is one. -/
theorem breakNodes_started (wanted : Bool) (indent : Nat) (p : Markup.Place) (hasBlock : Bool) :
    breakNodes wanted indent p (calm true hasBlock) =
      (if wanted then [.static ('\n' :: Text.spaces (indent * p.level))] else [],
        calm true hasBlock) := by
  cases wanted with
  | false | true => rfl

/-- A step that writes a node and leaves the state that the node asks for. -/
def Writes (indent level : Nat) (started hasBlock : Bool) (n : Node) (r : Node × Progress) : Prop :=
  Closes indent level n r.1 ∧ ∃ later, r.2 = calm later (hasBlock || n.holdsLine) ∧
    (started → later)

def isTrim : Node → Bool
  | .leaf (.trim _) | .frame (.trim _) _ => true
  | _ => false

variable {o : Options} {n : Node} {ns : List Node}

theorem markupAll_writes {level : Nat} (started hasBlock : Bool)
    (each : ∀ n ∈ ns, ∀ started hasBlock,
      Yields (Writes o.indent level started hasBlock n) (fun _ => True)
      (n.markup o ⟨true, level⟩ (calm started hasBlock))) :
    Yields (fun r => AllClose o.indent level ns r.1 ∧
        ∃ later, r.2 = calm later (hasBlock || anyHoldsLine ns) ∧ (started → later)) (fun _ => True)
      (markupAll o ⟨true, level⟩ (calm started hasBlock) ns) := by
  induction ns generalizing started hasBlock with
  | nil => exact ⟨.nil, started, by rw [anyHoldsLine, Bool.or_false], id⟩
  | cons n ns ih =>
    rw [forall_mem_cons] at each
    refine (each.1 started hasBlock).bind ?_
    rintro ⟨w, _⟩ ⟨here, middle, rfl, kept⟩
    refine (ih _ _ each.2).bind ?_
    rintro ⟨ws, _⟩ ⟨others, last, rfl, kept'⟩
    exact ⟨.cons here others, last, by rw [anyHoldsLine, Bool.or_assoc],
      fun first => kept' (kept first)⟩

theorem markup_writes (untrimmed : ∀ m ∈ n.parts, m.isTrim = false) (level : Nat)
    (started hasBlock : Bool) : Yields (Writes o.indent level started hasBlock n) (fun _ => True)
      (n.markup o ⟨true, level⟩ (calm started hasBlock)) := by
  induction n using Node.induction generalizing level started hasBlock with
  | leaf l =>
    have same : ∀ later : Bool, (started → later) →
        ∃ later', calm later hasBlock = calm later' (hasBlock || (Node.leaf l).holdsLine) ∧
          (started → later') :=
      fun later kept => ⟨later, by rw [holdsLine, Bool.or_false], kept⟩
    cases l with
    | unknown => trivial
    | trim => exact absurd (untrimmed _ (mem_parts_self _)) (by simp [isTrim])
    | doctype kind =>
      rw [markup]
      split
      · trivial
      · obtain ⟨start, later, written, kept⟩ :=
          breakNodes_calm true o.indent ⟨true, level⟩ started hasBlock
        simp only [written]
        exact ⟨.leaf _ _, same true fun _ => rfl⟩
    | static text =>
      refine ⟨.leaf _ _, ?_⟩
      show ∃ later, (calm started hasBlock).wrote text = _ ∧ _
      unfold Progress.wrote
      split
      · exact same started id
      · exact same true fun _ => rfl
    | dynamic source => exact ⟨.leaf _ _, same true fun _ => rfl⟩
    | _ => exact ⟨.leaf _ _, same started id⟩
  | frame f inner ih =>
    have inside := ih fun m mem => untrimmed m (.tail _ mem)
    cases f with
    | trim => exact absurd (untrimmed _ (mem_parts_self _)) (by simp [isTrim])
    | comment =>
      rw [markup]
      obtain ⟨start, later, written, _⟩ :=
        breakNodes_calm true o.indent ⟨true, level⟩ started hasBlock
      simp only [written]
      refine (inside level true hasBlock).bind ?_
      rintro ⟨w, _⟩ ⟨closes, last, rfl, kept⟩
      exact ⟨.frame (by simp) closes (by simp [within]),
        last, by simp [Progress.closedBlock, calm, holdsLine],
        fun _ => kept rfl⟩
    | condComment condition =>
      rw [markup]
      obtain ⟨start, later, written, _⟩ :=
        breakNodes_calm true o.indent ⟨true, level⟩ started hasBlock
      simp only [written]
      refine (inside (level + 1) true hasBlock).bind ?_
      rintro ⟨w, _⟩ ⟨closes, last, rfl, kept⟩
      exact ⟨.condComment condition closes (by simp [within]),
        last, by simp [Progress.closedBlock, calm, holdsLine],
        fun _ => kept rfl⟩
    | _ =>
      refine (inside level started hasBlock).bind ?_
      rintro ⟨w, _⟩ ⟨closes, after⟩
      exact ⟨.frame (by simp) closes (by simp [within]), after⟩
  | group g children ih =>
    have inside := markupAll_writes (o := o) started hasBlock
      fun n mem => ih n mem (fun m found => untrimmed m (.tail _ (mem_partsOf.mpr ⟨n, mem, found⟩)))
        level
    cases g with
    | seq | attrs =>
      refine inside.bind ?_
      rintro ⟨ws, _⟩ ⟨closes, after⟩
      exact ⟨.group _ closes, after⟩
  | closed name entries ih =>
    have inside := markupAll_writes (o := o) true hasBlock
      fun n mem => ih n mem (fun m found => untrimmed m (.tail _ (mem_partsOf.mpr ⟨n, mem, found⟩)))
        level
    obtain ⟨start, later, written, _⟩ :=
      breakNodes_calm (!isInline name) o.indent ⟨true, level⟩ started hasBlock
    simp only [calm] at written
    simp only [markup, calm, Bool.true_and, Bool.not_false, Bool.and_true, written]
    refine inside.bind ?_
    rintro ⟨ws, _⟩ ⟨closes, last, rfl, kept⟩
    refine ⟨.empty rfl closes (by simp [within]), last, ?_, fun _ => kept rfl⟩
    simp [Progress.closedBlock, calm, holdsLine, Bool.or_assoc]
  | tag name entries body ihEntries ihBody =>
    have inside := markupAll_writes (o := o) true hasBlock
      fun n mem => ihEntries n mem
        (fun m found => untrimmed m (.tail _ (mem_append_left _ (mem_partsOf.mpr ⟨n, mem, found⟩))))
          level
    obtain ⟨start, later, written, _⟩ :=
      breakNodes_calm (!isInline name) o.indent ⟨true, level⟩ started hasBlock
    simp only [calm] at written
    simp only [markup, calm, Bool.true_and, Bool.not_false, Bool.and_true, written]
    refine inside.bind ?_
    rintro ⟨ws, _⟩ ⟨closes, last, rfl, kept⟩
    dsimp only
    split
    next empty =>
      rw [markup_of_isEmpty _ _ _ (Bool.and_eq_true_iff.mp empty).2]
      refine ⟨.empty empty closes (by simp [within]), last, ?_, fun _ => kept rfl⟩
      simp [Progress.closedBlock, calm, holdsLine, Bool.or_assoc]
    next content =>
      refine (ihBody (fun m found => untrimmed m (.tail _ (mem_append_right _ found)))
        (level + 1) last false).bind ?_
      rintro ⟨w, _⟩ ⟨closesBody, final, rfl, kept'⟩
      obtain rfl : final = true := kept' (kept rfl)
      have close :=
        breakNodes_started (!isInline name && body.holdsLine) o.indent ⟨true, level⟩ body.holdsLine
      simp only [calm, Bool.false_or] at close ⊢
      simp only [close]
      refine ⟨.element (Bool.eq_false_iff.mpr content) closes closesBody rfl, true, ?_,
        fun _ => rfl⟩
      simp [calm, holdsLine, Bool.or_assoc]

/-- With line breaks on and without trims, the closing tag of an element that is not inline has a
line break in front exactly if the content holds a line outside of inline elements. -/
theorem markup_closes {w : Node} (pretty : o.pretty) (untrimmed : ∀ m ∈ n.parts, m.isTrim = false)
    (ran : Pass.markup.runPure o n = .ok w) : Closes o.indent 0 n w := by
  have writes : Yields (Closes o.indent 0 n) (fun _ => True) (Pass.markup.runPure o n) := by
    rw [Pass.runPure, pretty]
    exact (markup_writes untrimmed 0 false false).map fun _ written => written.1
  exact writes.of_ok ran

/-- An element with a comment in a control line, and a void one beside it. -/
def nestedLines : Node :=
  .tag "div" [.attr "id" (.static "a")]
    (some (.seq [.tag "br" [] none, .control "if x" (.comment (.static "c"))]))

theorem markup_closes_nestedLines :
    ∃ w, Pass.markup.runPure { pretty := true } nestedLines = .ok w ∧
    Closes 2 0 nestedLines w := by
  obtain ⟨w, ran⟩ :=
    exists_of_isOk (by decide : (Pass.markup.runPure { pretty := true } nestedLines).isOk)
  exact ⟨w, ran, markup_closes rfl (by decide) ran⟩

/-- A paragraph in an inline element does not put the closing tag around it on its own line. -/
theorem markup_inline_content : Pass.markup.runPure { pretty := true } (.tag "div" [] (some
      (.tag "span" [] (some (.tag "p" [] (some (.static "x"))))))) =
    .ok (.seq [.static [], .static "<div", .seq [], .static ">",
      .seq [.static "<span", .seq [], .static ">",
        .seq [.static "\n    ", .static "<p", .seq [], .static ">", .static "x",
          .static "</p>"],
        .static "</span>"],
      .static "</div>"]) := by
  decide

end MarkupTemplate.Node
