import MarkupTemplate.Value.Basic
import Mathlib.Logic.Function.Iterate

/-!
# Joined values

The values of an attribute are joined once lists inside lists have been opened and values that say
nothing left out. So a value that says nothing makes no difference (`joinAttr_append_silent`).
Markup is taken as it is, and only the delimiter is escaped (`joinAttr_markup`), which shows exactly
where there are two parts and it has something to escape (`joinWith_escape_eq_iff`).
-/

namespace MarkupTemplate

open List

/-! ## Escaped text

Escaping leaves a text alone exactly if it holds none of the five special characters, and makes it
longer otherwise. An entity starts with one of them, so a text that escaping changes is changed by
every further escaping.
-/

namespace Text

theorem escape_append (s t : Text) : escape (s ++ t) = escape s ++ escape t :=
  List.flatMap_append

theorem entity_cases (c : Char) : entity c = [c] ∨ 1 < (entity c).length ∧ '&' ∈ entity c := by
  unfold entity
  split
  case h_6 => exact .inl rfl
  all_goals exact .inr (by decide)

theorem escape_cases (t : Text) :
    (escape t = t ∧ ∀ c ∈ t, entity c = [c]) ∨ t.length < (escape t).length ∧ '&' ∈ escape t := by
  induction t with
  | nil => exact .inl ⟨rfl, fun c mem => nomatch mem⟩
  | cons c t ih =>
    have split : escape (c :: t) = entity c ++ escape t := rfl
    rw [split, List.length_append, List.mem_append, List.length_cons]
    rcases entity_cases c,
      ih with ⟨same | ⟨longer, special⟩, ⟨kept, each⟩ | ⟨longerRest, specialRest⟩⟩
    · exact .inl ⟨by rw [same, kept]; rfl, List.forall_mem_cons.mpr ⟨same, each⟩⟩
    · exact .inr ⟨by rw [same, List.length_singleton]; omega, .inr specialRest⟩
    · exact .inr ⟨by rw [kept]; omega, .inl special⟩
    · exact .inr ⟨by omega, .inl special⟩

theorem length_le_escape (t : Text) : t.length ≤ (escape t).length := by
  rcases escape_cases t with ⟨same, _⟩ | ⟨longer, _⟩
  · exact Nat.le_of_eq (congrArg List.length same.symm)
  · exact Nat.le_of_lt longer

theorem escape_eq_of_length_le {t : Text} (short : (escape t).length ≤ t.length) :
    escape t = t := by
  rcases escape_cases t with ⟨same, _⟩ | ⟨longer, _⟩
  · exact same
  · exact absurd short (Nat.not_le.mpr longer)

theorem escape_escape_eq_iff {t : Text} : escape (escape t) = escape t ↔ escape t = t := by
  constructor
  · intro same
    rcases escape_cases t with ⟨kept, _⟩ | ⟨_, special⟩
    · exact kept
    · rcases escape_cases (escape t) with ⟨_, each⟩ | ⟨longer, _⟩
      · exact absurd (each '&' special) (by decide)
      · exact absurd (congrArg List.length same) (Nat.ne_of_gt longer)
  · intro same
    rw [same, same]

/-! ## Escaped several times -/

theorem iterate_escape_append (n : Nat) (s t : Text) :
    escape^[n] (s ++ t) = escape^[n] s ++ escape^[n] t := by
  induction n generalizing s t with
  | zero => rfl
  | succ n ih => rw [Function.iterate_succ_apply, escape_append, ih]; rfl

theorem length_le_iterate_escape (n : Nat) (t : Text) : t.length ≤ (escape^[n] t).length := by
  induction n generalizing t with
  | zero => exact Nat.le_refl _
  | succ n ih => exact Nat.le_trans (length_le_escape t) (ih (escape t))

theorem iterate_escape_eq_iff {n : Nat} {t : Text} : escape^[n] t = t ↔ n = 0 ∨ escape t = t := by
  constructor
  · intro same
    cases n with
    | zero => exact .inl rfl
    | succ n =>
      refine .inr (escape_eq_of_length_le ?_)
      calc (escape t).length ≤ (escape^[n] (escape t)).length :=
        length_le_iterate_escape n (escape t)
        _ = t.length := congrArg List.length same
  · rintro (rfl | same)
    · rfl
    · exact Function.iterate_fixed same n

theorem joinWith_cons_cons (d part next : Text) (parts : List Text) :
    joinWith d (part :: next :: parts) = part ++ d ++ joinWith d (next :: parts) :=
  rfl

theorem length_joinWith_le {d d' : Text} (short : d.length ≤ d'.length) (parts : List Text) :
    (joinWith d parts).length ≤ (joinWith d' parts).length := by
  induction parts with
  | nil => exact Nat.le_refl _
  | cons part parts ih =>
    cases parts with
    | nil => exact Nat.le_refl _
    | cons next parts =>
      rw [joinWith_cons_cons, joinWith_cons_cons, length_append, length_append, length_append,
        length_append]
      omega

/-- The escaping of a delimiter shows only between two parts. -/
theorem joinWith_escape_eq_iff (d : Text) (parts : List Text) :
    joinWith d parts = joinWith (escape d) parts ↔ escape d = d ∨ parts.length ≤ 1 := by
  match parts with
  | [] => exact iff_of_true rfl (.inr (Nat.zero_le 1))
  | [part] => exact iff_of_true rfl (.inr (Nat.le_refl 1))
  | part :: next :: parts =>
    have several : ¬(part :: next :: parts).length ≤ 1 := by simp
    rw [or_iff_left several, joinWith_cons_cons, joinWith_cons_cons]
    constructor
    · intro same
      have lengths := congrArg List.length same
      have rest := length_joinWith_le (length_le_escape d) (next :: parts)
      rw [length_append, length_append, length_append, length_append] at lengths
      exact escape_eq_of_length_le (by omega)
    · intro same
      rw [same]

end Text

namespace Value

/-! ## Opened lists -/

theorem leavesOf_append (vs ws : List Value) :
    leavesOf (vs ++ ws) = leavesOf vs ++ leavesOf ws := by
  induction vs with
  | nil => rfl
  | cons v vs ih => rw [cons_append, leavesOf, ih, leavesOf, append_assoc]

theorem leavesOf_markup (texts : List Text) : leavesOf (texts.map .markup) = texts.map .markup := by
  induction texts with
  | nil => rfl
  | cons t texts ih =>
    have own : leaves (.markup t) = [.markup t] := rfl
    rw [map_cons, leavesOf, ih, own, singleton_append]

/-! ## Joining -/

/-- A value that says nothing as the value of an attribute, and holds nothing that does. -/
def IsSilent (v : Value) : Prop :=
  ∀ leaf ∈ v.leaves, leaf.countsInAttr = false

instance (v : Value) : Decidable v.IsSilent :=
  inferInstanceAs (Decidable (∀ leaf ∈ v.leaves, leaf.countsInAttr = false))

theorem joinAttr_append_silent (delimiter : Value) (vs : List Value) {v : Value}
    (silent : v.IsSilent) : joinAttr delimiter (vs ++ [v]) = joinAttr delimiter vs := by
  have empty : v.leaves.filter countsInAttr = [] :=
    filter_eq_nil_iff.mpr fun leaf mem => by rw [silent leaf mem]; exact Bool.false_ne_true
  have last : leavesOf [v] = v.leaves := append_nil _
  rw [joinAttr, leavesOf_append, last, filter_append, empty, append_nil, joinAttr]

theorem joinAttr_markup (delimiter : Value) (texts : List Text) :
    joinAttr delimiter (texts.map .markup) =
      Text.joinWith delimiter.escapedText (texts.filter fun t => !t.isEmpty) := by
  have counts : (countsInAttr ∘ markup) = fun t => !t.isEmpty := rfl
  have same : (escapedText ∘ markup) = id := rfl
  rw [joinAttr, leavesOf_markup, filter_map, counts, map_map, same, map_id]

end Value

end MarkupTemplate
