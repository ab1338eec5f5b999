import MarkupTemplate.Proofs.Source
import MarkupTemplate.Proofs.Value.Joined

/-!
# Harmless attribute values

Joining values takes lists apart, and turns lists one after the other into their joined texts with
the delimiter in between, unless one has nothing to say (`joinAttr_homomorphic`). Without markup
among the values the result can stand between quotes: it has no special characters but the
ampersands of entities. Rich texts bring markup of their own, which is put in as it is. One whose
markup is empty leaves a delimiter behind (`joinAttr_rich`).
-/

namespace MarkupTemplate

open List

/-! ## Escaped texts -/

namespace Text

def entities : List Text :=
  ["&amp;", "&lt;", "&gt;", "&#39;", "&#34;"].map String.toList

/-- No special character stands in the text, but for ampersands that begin an entity. -/
structure IsHarmless (t : Text) : Prop where
  plain : ∀ c ∈ t, c ∉ ['<', '>', '\'', '"']
  entity : ∀ rest, '&' :: rest <:+ t → ∃ e ∈ entities, e <+: '&' :: rest

variable {s t d : Text} {parts : List Text}

theorem isHarmless_nil : IsHarmless [] :=
  ⟨nofun, fun _ suffix => nomatch suffix_nil.mp suffix⟩

theorem IsHarmless.append (first : IsHarmless s) (second : IsHarmless t) : IsHarmless (s ++ t) := by
  refine ⟨forall_mem_append.mpr ⟨first.plain, second.plain⟩, fun rest suffix => ?_⟩
  obtain ⟨front, whole⟩ := suffix
  rcases append_eq_append_iff.mp whole with ⟨between, rfl, same⟩ | ⟨between, rfl, same⟩
  · cases between with
    | nil => exact second.entity rest (same ▸ suffix_refl t)
    | cons c between =>
      obtain ⟨rfl, rfl⟩ := cons.inj same
      obtain ⟨e, mem, starts⟩ := first.entity between (suffix_append _ _)
      exact ⟨e, mem, starts.trans (prefix_append _ t)⟩
  · exact second.entity rest (same ▸ suffix_append _ _)

theorem isHarmless_entity (c : Char) : IsHarmless (entity c) := by
  have written : ∀ e ∈ entities, (∀ c ∈ e, c ∉ ['<', '>', '\'', '"']) ∧ e = '&' :: e.tail ∧
      '&' ∉ e.tail := by
    simp [entities]
  have cases : entity c ∈ entities ∨ entity c = [c] ∧ c ∉ ['&', '<', '>', '\'', '"'] := by
    unfold entity
    split
    case h_6 => exact .inr ⟨rfl, by simpa using ⟨‹_›, ‹_›, ‹_›, ‹_›, ‹_›⟩⟩
    all_goals exact .inl (by decide)
  rcases cases with mem | ⟨own, other⟩
  · obtain ⟨plain, whole, once⟩ := written _ mem
    refine ⟨plain, fun rest suffix => ⟨_, mem, ?_⟩⟩
    rw [whole] at suffix ⊢
    rcases suffix_cons_iff.mp suffix with same | inside
    · exact same ▸ prefix_rfl
    · exact absurd (inside.mem mem_cons_self) once
  · rw [own]
    simp only [mem_cons, not_or] at other
    refine ⟨by simpa using other.2, fun rest suffix => ?_⟩
    exact absurd (mem_singleton.mp (suffix.mem mem_cons_self)).symm other.1

theorem isHarmless_escape (t : Text) : IsHarmless (escape t) := by
  induction t with
  | nil => exact isHarmless_nil
  | cons c t ih => exact (isHarmless_entity c).append ih

theorem IsHarmless.joinWith (delimiter : IsHarmless d) (each : ∀ part ∈ parts, IsHarmless part) :
    IsHarmless (joinWith d parts) := by
  induction parts with
  | nil => exact isHarmless_nil
  | cons part parts ih =>
    rw [forall_mem_cons] at each
    cases parts with
    | nil => exact each.1
    | cons next parts => exact (each.1.append delimiter).append (ih each.2)

theorem joinWith_eq_nil_iff (filled : ∀ part ∈ parts, part ≠ []) :
    joinWith d parts = [] ↔ parts = [] := by
  cases parts with
  | nil => exact iff_of_true rfl rfl
  | cons part parts =>
    refine iff_of_false (fun empty => filled part (.head _) ?_) nofun
    cases parts with
    | nil => exact empty
    | cons next parts => exact (append_eq_nil_iff.mp (append_eq_nil_iff.mp empty).1).1

end Text

namespace Value

/-! ## Joined values -/

def isNested : Value → Bool
  | .list _ | .tuple _ => true
  | _ => false

mutual

theorem leaves_flat (v : Value) : ∀ leaf ∈ v.leaves, leaf.isNested = false := by
  cases v with
  | list items | tuple items => exact leavesOf_flat items
  | _ => simp [leaves, isNested]

theorem leavesOf_flat (vs : List Value) : ∀ leaf ∈ leavesOf vs, leaf.isNested = false := by
  cases vs with
  | nil => nofun
  | cons v vs =>
    rw [leavesOf]
    exact forall_mem_append.mpr ⟨leaves_flat v, leavesOf_flat vs⟩

end

theorem leavesOf_eq_self {vs : List Value} (flat : ∀ v ∈ vs, v.isNested = false) :
    leavesOf vs = vs := by
  induction vs with
  | nil => rfl
  | cons v vs ih =>
    rw [forall_mem_cons] at flat
    have own : v.leaves = [v] := by
      cases v with
      | list | tuple => nomatch flat.1
      | _ => rfl
    rw [leavesOf, own, ih flat.2, singleton_append]

/-- The texts that are joined for the value of an attribute. -/
def attrParts (vs : List Value) : List Text :=
  ((leavesOf vs).filter countsInAttr).map escapedText

theorem attrParts_append (vs ws : List Value) :
    attrParts (vs ++ ws) = attrParts vs ++ attrParts ws := by
  rw [attrParts, leavesOf_append, filter_append, map_append, attrParts, attrParts]

/-- A value that counts although its markup is empty. -/
def isHollow : Value → Bool
  | .rich t html => !t.isEmpty && html.isEmpty
  | _ => false

theorem escapedText_ne_nil {v : Value} (counts : v.countsInAttr) (filled : v.isHollow = false) :
    v.escapedText ≠ [] := by
  have shown : v.outputText ≠ [] := by
    unfold countsInAttr at counts
    split at counts
    · nomatch counts
    · nomatch counts
    · simpa using counts
  have escaped : Text.escape v.outputText ≠ [] := by
    have longer := Text.length_le_escape v.outputText
    intro empty
    rw [empty] at longer
    exact shown (length_eq_zero_iff.mp (Nat.le_zero.mp longer))
  cases v with
  | none => nomatch counts
  | markup t => exact shown
  | rich t html =>
    have named : t ≠ [] := shown
    intro empty
    have empty : html = [] := empty
    simp [isHollow, named, empty] at filled
  | _ => exact escaped

theorem joinAttr_eq_nil_iff (d : Text) {vs : List Value}
    (filled : ∀ v ∈ leavesOf vs, v.isHollow = false) :
    joinAttr (.text d) vs = [] ↔ attrParts vs = [] := by
  refine Text.joinWith_eq_nil_iff fun part mem => ?_
  obtain ⟨v, among, rfl⟩ := mem_map.mp mem
  obtain ⟨here, counts⟩ := mem_filter.mp among
  exact escapedText_ne_nil counts (filled v here)

/-- The delimiter stands between two lists if both have something to say. -/
theorem joinAttr_append (d : Text) (vs ws : List Value) :
    joinAttr (.text d) (vs ++ ws) = joinAttr (.text d) vs ++
      (if attrParts vs ≠ [] ∧ attrParts ws ≠ [] then Text.escape d else []) ++
        joinAttr (.text d) ws := by
  have whole : joinAttr (.text d) (vs ++ ws) = Text.joinWith (Text.escape d)
      (attrParts vs ++ attrParts ws) := by
    rw [← attrParts_append]
    rfl
  rw [whole]
  show _ = Text.joinWith (Text.escape d) (attrParts vs) ++ _ ++ Text.joinWith (Text.escape d)
    (attrParts ws)
  split
  next both => exact Text.joinWith_append both.1 both.2
  next silent =>
    rw [append_nil]
    by_cases empty : attrParts vs = []
    · rw [empty]
      rfl
    · have empty' : attrParts ws = [] := Decidable.not_not.mp fun more => silent ⟨empty, more⟩
      rw [empty', append_nil]
      exact (append_nil _).symm

/-- Lists are taken apart, a list behind another adds the delimiter and its own text unless one of
the two is empty, and without markup nothing in the text ends a quoted value or starts a tag. For
the second a rich text must have markup if it has text, and for the last its markup must be
harmless. -/
theorem joinAttr_homomorphic (d : Text) :
    (∀ vs, joinAttr (.text d) vs = joinAttr (.text d) (leavesOf vs) ∧ ∀ v ∈ leavesOf vs,
      v.isNested = false) ∧
    (∀ vs ws, (∀ t, Value.rich t [] ∈ leavesOf (vs ++ ws) → t = []) →
      joinAttr (.text d) (vs ++ ws) = joinAttr (.text d) vs ++
        (if joinAttr (.text d) vs ≠ [] ∧ joinAttr (.text d) ws ≠ [] then Text.escape d else []) ++
        joinAttr (.text d) ws) ∧
    ∀ vs, (∀ t, Value.markup t ∉ leavesOf vs) →
    (∀ t html, Value.rich t html ∈ leavesOf vs → html.IsHarmless) →
      (joinAttr (.text d) vs).IsHarmless := by
  refine ⟨fun vs => ⟨?_, leavesOf_flat vs⟩, fun vs ws markups => ?_, fun vs noMarkup harmless => ?_⟩
  · rw [joinAttr, joinAttr, leavesOf_eq_self (leavesOf_flat vs)]
  · have filled : ∀ v ∈ leavesOf vs ++ leavesOf ws, v.isHollow = false := by
      intro v mem
      cases v with
      | rich t html =>
        rw [isHollow, Bool.and_eq_false_imp]
        intro named
        rw [← leavesOf_append] at mem
        cases html with
        | nil => simp [markups t mem] at named
        | cons => rfl
      | _ => rfl
    obtain ⟨first, second⟩ := forall_mem_append.mp filled
    simp only [joinAttr_append, ne_eq, joinAttr_eq_nil_iff d first, joinAttr_eq_nil_iff d second]
  · refine (Text.isHarmless_escape d).joinWith fun part mem => ?_
    obtain ⟨v, among, rfl⟩ := mem_map.mp mem
    have here := (mem_filter.mp among).1
    cases v with
    | markup t => exact absurd here (noMarkup t)
    | rich t html => exact harmless t html here
    | _ => exact Text.isHarmless_escape _

def nestedValues : List Value :=
  [.text "<a>", .list [.none, .tuple [.text "b&c"], .bool false], .rich "d" "e", .int 3]

theorem joinAttr_homomorphic_nested :
    (∀ t, Value.markup t ∉ leavesOf nestedValues) ∧
    (∀ t html, Value.rich t html ∈ leavesOf nestedValues → html.IsHarmless) ∧
    joinAttr (.text "&") nestedValues = "&lt;a&gt;&amp;b&amp;c&amp;e&amp;3" ∧
    (joinAttr (.text "&") nestedValues).IsHarmless ∧
    (∀ t, Value.rich t [] ∈ leavesOf (nestedValues ++ nestedValues) → t = []) ∧
    joinAttr (.text "&") (nestedValues ++ nestedValues) = joinAttr (.text "&") nestedValues ++
      "&amp;" ++ joinAttr (.text "&") nestedValues := by
  have noMarkup : ∀ t, Value.markup t ∉ leavesOf nestedValues := by
    intro t
    simp [nestedValues, leavesOf, leaves]
  have harmless : ∀ t html, Value.rich t html ∈ leavesOf nestedValues → html.IsHarmless := by
    intro t html mem
    obtain ⟨-, rfl⟩ : t = "d" ∧ html = "e" := by simpa [nestedValues, leavesOf, leaves] using mem
    exact Text.isHarmless_escape "e"
  have filled : ∀ t, Value.rich t [] ∈ leavesOf (nestedValues ++ nestedValues) → t = [] := by
    intro t mem
    simp [nestedValues, leavesOf, leaves] at mem
  obtain ⟨_, split, safe⟩ := joinAttr_homomorphic "&"
  refine ⟨noMarkup, harmless, by decide +kernel, safe nestedValues noMarkup harmless, filled, ?_⟩
  have shown : joinAttr (.text "&") nestedValues ≠ [] := by decide +kernel
  rw [split nestedValues nestedValues filled, if_pos ⟨shown, shown⟩]
  rfl

/-- A rich text with empty markup leaves a delimiter behind, and one with a tag puts it in. -/
theorem joinAttr_rich :
    joinAttr (.text " ") ([.text "a"] ++ [.rich "s" []]) = "a " ∧
    joinAttr (.text " ") [.rich "s" []] = [] ∧
    joinAttr (.text " ") [.rich "s" "<b>"] = "<b>" := by
  decide

end Value

end MarkupTemplate
