import MarkupTemplate.Attribute.Entry
import MarkupTemplate.Node.Escaped
import MarkupTemplate.Proofs.Node.Parts
import MarkupTemplate.Proofs.Value.Joined

/-!
# Switches around a value

The text of a value without code is told in advance by `staticText?`, and its static texts make it
up once escaping is applied. Applying escaping looks at the innermost switch around each text; the
text told in advance is escaped once for every switch that is on. So the two agree where no other
switch is on or nothing is to escape, and nowhere else (`shownText_eq_iff_of_staticText?`): escaping
only makes a text longer.
-/

namespace MarkupTemplate.Node

open List

/-- The text of a node that is put out as it is. -/
def ownText? : Node → Option Text
  | .leaf (.static text) => some text
  | _ => none

/-- The static texts of a tree, joined from left to right. -/
def shownText (n : Node) : Text :=
  (n.parts.filterMap ownText?).flatten

mutual

/-- The static texts of a tree, each with the switches around it from the innermost out. Those in
`around` stand around the whole tree; no switch reaches into a capture. -/
def statics : (around : List Bool) → Node → List (List Bool × Text)
  | around, .leaf (.static text) => [(around, text)]
  | _, .leaf _ => []
  | around, .frame (.escape on) inner => statics (on :: around) inner
  | _, .frame (.capture _) inner => statics [] inner
  | around, .frame _ inner => statics around inner
  | around, .group _ children => staticsOf around children
  | around, .tag _ entries none => staticsOf around entries
  | around, .tag _ entries (some body) => staticsOf around entries ++ statics around body

def staticsOf : (around : List Bool) → List Node → List (List Bool × Text)
  | _, [] => []
  | around, n :: ns => statics around n ++ staticsOf around ns

end

theorem shownText_seq (children : List Node) :
    shownText (.seq children) = children.flatMap shownText := by
  rw [shownText, parts, filterMap_cons_none rfl, filterMap_partsOf, flatMap_def, flatten_flatten,
    map_map]
  rfl

/-- A static text as it is told in advance: escaped once for every switch that is on. -/
def toldText (static : List Bool × Text) : Text :=
  Text.escape^[static.1.count true] static.2

/-- A static text with escaping applied: the innermost switch counts. -/
def appliedText (static : List Bool × Text) : Text :=
  escapedText static.1.head? static.2

/-! ## The text of a value told in advance -/

open Attribute (staticText? staticTexts?)

mutual

theorem flatMap_toldText : ∀ {v : Node} {t : Text} (around : List Bool), staticText? v = some t →
    (v.statics around).flatMap toldText = Text.escape^[around.count true] t
  | .leaf l, t, around, known => by
    cases l with
    | static text =>
      cases known
      exact flatMap_singleton ..
    | newline =>
      cases known
      exact (Function.iterate_fixed (x := []) rfl _).symm
    | _ => nomatch known
  | .frame f inner, t, around, known => by
    cases f with
    | escape on =>
      obtain ⟨text, inside, rfl⟩ := Option.map_eq_some_iff.mp known
      have told := flatMap_toldText (on :: around) inside
      rw [statics, told]
      cases on with
      | true => rw [count_cons_self]; rfl
      | false => rw [count_cons_of_ne (by decide)]; rfl
    | _ => nomatch known
  | .group g children, t, around, known => by
    cases g with
    | seq => exact flatMap_toldText_all around known
    | attrs => nomatch known
  | .tag .., _, _, known => nomatch known

theorem flatMap_toldText_all :
    ∀ {vs : List Node} {t : Text} (around : List Bool), staticTexts? vs = some t →
    (staticsOf around vs).flatMap toldText = Text.escape^[around.count true] t
  | [], t, around, known => by
    cases known
    exact (Function.iterate_fixed (x := []) rfl _).symm
  | v :: vs, t, around, known => by
    rw [staticTexts?] at known
    split at known
    next first rest knownFirst knownRest =>
      cases known
      rw [staticsOf, flatMap_append, flatMap_toldText around knownFirst,
        flatMap_toldText_all around knownRest,
        Text.iterate_escape_append]
    next => nomatch known

end

/-! ## The static texts of a value -/

mutual

theorem escaped_of_staticText? (byDefault : Bool) : ∀ {v : Node} {t : Text} (around : List Bool),
    staticText? v = some t → ∃ w, v.escaped byDefault around.head? = .ok w ∧
      w.shownText = (v.statics around).flatMap appliedText
  | .leaf l, t, around, known => by
    cases l with
    | static text | newline => exact ⟨_, rfl, rfl⟩
    | _ => nomatch known
  | .frame f inner, t, around, known => by
    cases f with
    | escape on =>
      obtain ⟨text, inside, rfl⟩ := Option.map_eq_some_iff.mp known
      exact escaped_of_staticText? byDefault (on :: around) inside
    | _ => nomatch known
  | .group g children, t, around, known => by
    cases g with
    | seq =>
      obtain ⟨ws, applied, shown⟩ := escapedAll_of_staticTexts? byDefault around known
      exact ⟨.seq ws, by rw [escaped, applied]; rfl, (shownText_seq ws).trans shown⟩
    | attrs => nomatch known
  | .tag .., _, _, known => nomatch known

theorem escapedAll_of_staticTexts? (byDefault : Bool) :
    ∀ {vs : List Node} {t : Text} (around : List Bool),
    staticTexts? vs = some t → ∃ ws, escapedAll byDefault around.head? vs = .ok ws ∧
      ws.flatMap shownText = (staticsOf around vs).flatMap appliedText
  | [], t, around, known => ⟨[], rfl, rfl⟩
  | v :: vs, t, around, known => by
    rw [staticTexts?] at known
    split at known
    next first rest knownFirst knownRest =>
      obtain ⟨w, applied, shown⟩ := escaped_of_staticText? byDefault around knownFirst
      obtain ⟨ws, appliedRest, shownRest⟩ := escapedAll_of_staticTexts? byDefault around knownRest
      refine ⟨w :: ws, by rw [escapedAll, applied, appliedRest]; rfl, ?_⟩
      rw [staticsOf, flatMap_append, flatMap_cons, shown, shownRest]
    next => nomatch known

end

/-! ## Where the two agree -/

section

variable (static : List Bool × Text)

theorem toldText_eq :
    toldText static = Text.escape^[static.1.tail.count true] (appliedText static) := by
  obtain ⟨around, text⟩ := static
  cases around with
  | nil => rfl
  | cons on around =>
    cases on with
    | true => exact congrFun (congrArg _ (count_cons_self ..)) text
    | false => exact congrFun (congrArg _ (count_cons_of_ne (by decide))) text

theorem escape_appliedText_eq_iff :
    Text.escape (appliedText static) = appliedText static ↔ Text.escape static.2 = static.2 := by
  unfold appliedText escapedText
  split
  · exact Text.escape_escape_eq_iff
  · rfl

theorem appliedText_eq_iff :
    appliedText static = toldText static ↔ Text.escape static.2 = static.2 ∨
    true ∉ static.1.tail := by
  rw [toldText_eq, eq_comm, Text.iterate_escape_eq_iff, count_eq_zero, escape_appliedText_eq_iff,
    or_comm]

theorem appliedText_length_le : (appliedText static).length ≤ (toldText static).length := by
  rw [toldText_eq]
  exact Text.length_le_iterate_escape ..

end

theorem flatMap_eq_iff {α β : Type} {f g : α → List β} (as : List α)
    (short : ∀ a, (f a).length ≤ (g a).length) :
    as.flatMap f = as.flatMap g ↔ ∀ a ∈ as, f a = g a := by
  have total : ∀ bs : List α, (bs.flatMap f).length ≤ (bs.flatMap g).length := by
    intro bs
    induction bs with
    | nil => exact Nat.le_refl 0
    | cons b bs ih =>
      rw [flatMap_cons, flatMap_cons, length_append, length_append]
      exact Nat.add_le_add (short b) ih
  induction as with
  | nil => exact iff_of_true rfl nofun
  | cons a as ih =>
    rw [flatMap_cons, flatMap_cons, forall_mem_cons]
    constructor
    · intro same
      have lengths := congrArg List.length same
      rw [length_append, length_append] at lengths
      have short := short a
      have shortRest := total as
      obtain ⟨first, rest⟩ := append_inj same (by omega)
      exact ⟨first, ih.mp rest⟩
    · rintro ⟨first, rest⟩
      rw [first, ih.mpr rest]

/-- Escaping can be applied to every value whose text is told in advance, and gives that text
exactly if no switch but the innermost is on around a static text that has something to escape. -/
theorem shownText_eq_iff_of_staticText? (byDefault : Bool) {v : Node} {t : Text}
    (known : staticText? v = some t) : ∃ w, v.escaped byDefault none = .ok w ∧
      (w.shownText = t ↔ ∀ static ∈ v.statics [], Text.escape static.2 = static.2 ∨
        true ∉ static.1.tail) := by
  obtain ⟨w, applied, shown⟩ := escaped_of_staticText? byDefault [] known
  refine ⟨w, applied, ?_⟩
  have told : (v.statics []).flatMap toldText = t := flatMap_toldText [] known
  rw [shown, ← told, flatMap_eq_iff _ appliedText_length_le]
  exact forall₂_congr fun static _ => appliedText_eq_iff static

/-- Static texts under one switch, two that are off and, with nothing to escape, two that are on. -/
def switchedValue : Node :=
  .seq [.escape true (.static "<"), .newline, .escape false (.escape false (.static "&")),
    .escape true (.seq [.escape true (.static "a"), .escape false (.static "b")])]

theorem shownText_eq_iff_of_switchedValue :
    staticText? switchedValue = some "&lt;&ab".toList ∧
      (∀ static ∈ switchedValue.statics [], Text.escape static.2 = static.2 ∨
        true ∉ static.1.tail) ∧
      ∃ w, switchedValue.escaped false none = .ok w ∧ w.shownText = "&lt;&ab".toList := by
  have known : staticText? switchedValue = some "&lt;&ab".toList := by decide
  have switches : ∀ static ∈ switchedValue.statics [], Text.escape static.2 = static.2 ∨
      true ∉ static.1.tail := by
    decide
  obtain ⟨w, applied, agree⟩ := shownText_eq_iff_of_staticText? false known
  exact ⟨known, switches, w, applied, agree.mpr switches⟩

/-- A text under two switches that are on is told as escaped twice, but is escaped once. -/
theorem shownText_ne_of_two_switches :
    staticText? (.escape true (.escape true (.static "<".toList))) = some "&amp;lt;".toList ∧
      ∃ w, Node.escaped false none (.escape true (.escape true (.static "<".toList))) = .ok w ∧
        w.shownText = "&lt;".toList ∧ w.shownText ≠ "&amp;lt;".toList :=
  ⟨by decide, .static "&lt;".toList, rfl, by decide, by decide⟩

end MarkupTemplate.Node
