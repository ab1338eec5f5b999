import Mathlib.Data.List.Nodup
import MarkupTemplate.Proofs.Attribute.Overriding
import MarkupTemplate.Proofs.Node.Deeds

/-!
# What each attribute contributes

Merging goes through the names of an attribute list in the order in which they first appear, and
each name adds its own nodes (`Contributes`). Every value of a joined name takes one slot: its known
text, its code, or the variable that captures it. The slots make up the folded text or the arguments
of one call (`Merged`). Any other name adds a node for each value (`Alone`).
-/

namespace MarkupTemplate

open List

namespace Attribute

/-! ## Slots -/

/-- How a value takes part in the value of a joined attribute. -/
inductive Slot where
  | known (text : Text)
  | code (source : Text)
  | captured (temp : Text) (value : Node)

namespace Slot

def argument : Slot → Text
  | known text => "_hamlc_markup(" ++ Text.quote text ++ ")"
  | code source => "(" ++ source ++ ")"
  | captured temp _ => temp

def temp? : Slot → Option Text
  | captured temp _ => some temp
  | known _ | code _ => none

def value? : Slot → Option Node
  | captured _ value => some value
  | known _ | code _ => none

def capture? : Slot → Option Node
  | captured temp value => some (.capture temp value)
  | known _ | code _ => none

/-- The slot that a value takes. -/
inductive For : Node → Slot → Prop where
  | known {v : Node} {text : Text} : staticText? v = some text → For v (.known text)
  | code {escaped : Bool} {source : Text} : For (.value escaped source) (.code source)
  | captured {v : Node} {temp : Text} :
    staticText? v = none → (∀ escaped source, v ≠ .value escaped source) →
    For v (.captured temp v)

end Slot

/-- The node for a joined attribute: the texts of its slots with the delimiter between those that
are not empty, nothing if all are empty, or one call with an argument for each slot. -/
inductive Merged (name delimiter : Text) (slots : List Slot) : Node → Prop where
  | folded {texts : List Text} : slots = texts.map .known → (∃ text ∈ texts, text ≠ []) →
    Merged name delimiter slots
      (.attr name (.static (Text.joinWith delimiter (texts.filter fun text => text ≠ []))))
  | omitted : (∀ slot ∈ slots, slot = .known []) → Merged name delimiter slots (.seq [])
  | called {temp : Text} : (∃ slot ∈ slots, ∀ text, slot ≠ .known text) →
    (slots.filterMap Slot.temp? ++ [temp]).Nodup →
    Merged name delimiter slots (.seq (slots.filterMap Slot.capture? ++ [
      .code (joinStatement temp delimiter (slots.map Slot.argument)),
      .code ("if " ++ temp ++ ":"),
      .block (.attr name (.escape false (.dynamic temp)))]))

/-- The node for one value that is not joined. A code decides whether the attribute is there. -/
inductive Alone (name : Text) : Node → Node → Prop where
  | value {v : Node} : (∀ escaped source, v ≠ .value escaped source) → Alone name v (.attr name v)
  | always {escaped : Bool} {source : Text} : Text.trim source ∈ trueWords →
    Alone name (.value escaped source) (.attr name (.static name))
  | never {escaped : Bool} {source : Text} : Text.trim source ∈ falseWords →
    Alone name (.value escaped source) (.seq [])
  | decided {escaped : Bool} {source temp : Text} :
    Text.trim source ∉ trueWords → Text.trim source ∉ falseWords →
    Alone name (.value escaped source) (decided name escaped source temp)

variable {values : List Node} {slots : List Slot} {name delimiter : Text} {n : Node}

/-- The temporaries of the slots are numbered in order. -/
theorem exists_slots (used : Nat) (values : List Node) : ∃ slots,
    Forall₂ Slot.For values slots ∧
    mergeParts used values = (slots.filterMap Slot.capture?, slots.map Slot.argument,
      used + (slots.filterMap Slot.temp?).length) ∧
    slots.filterMap Slot.temp? = (range' (used + 1) (slots.filterMap Slot.temp?).length).map
      tempName := by
  induction values generalizing used with
  | nil => exact ⟨[], .nil, rfl, rfl⟩
  | cons v values ih =>
    simp only [mergeParts]
    split
    next text known =>
      obtain ⟨slots, stand, parts, temps⟩ := ih used
      exact ⟨.known text :: slots, .cons (.known known) stand, by rw [parts]; rfl, temps⟩
    next source unknown =>
      obtain ⟨slots, stand, parts, temps⟩ := ih used
      exact ⟨.code source :: slots, .cons .code stand, by rw [parts]; rfl, temps⟩
    next noCode unknown =>
      obtain ⟨slots, stand, parts, temps⟩ := ih (used + 1)
      refine ⟨.captured (tempName (used + 1)) _ :: slots, .cons (.captured unknown noCode) stand,
        ?_, ?_⟩
      · rw [parts, Nat.add_assoc used, Nat.add_comm 1]
        rfl
      · exact congrArg (tempName (used + 1) :: ·) temps

theorem staticTextsOf?_slots (stand : Forall₂ Slot.For values slots) :
    (∃ texts, staticTextsOf? values = some texts ∧ slots = texts.map .known) ∨
      staticTextsOf? values = none ∧ ∃ slot ∈ slots, ∀ text, slot ≠ .known text := by
  induction stand with
  | nil => exact .inl ⟨[], rfl, rfl⟩
  | @cons v slot values slots first _ ih =>
    cases first with
    | @known _ text known =>
      rcases ih with ⟨texts, read, same⟩ | ⟨read, slot, mem, other⟩
      · exact .inl ⟨text :: texts, by rw [staticTextsOf?, known, read], by rw [same]; rfl⟩
      · exact .inr ⟨by rw [staticTextsOf?, known, read], slot, .tail _ mem, other⟩
    | code => exact .inr ⟨rfl, _, .head _, nofun⟩
    | captured unknown => exact .inr ⟨by rw [staticTextsOf?, unknown], _, .head _, nofun⟩

theorem merged_of_known (name delimiter : Text) (texts : List Text) :
    Merged name delimiter (texts.map .known)
      (if (joinTexts delimiter texts).isEmpty then .seq []
        else .attr name (.static (joinTexts delimiter texts))) := by
  have filled : texts.filter (fun text => !text.isEmpty) = texts.filter fun text => text ≠ [] := by
    refine filter_congr fun text _ => ?_
    cases text <;> rfl
  rw [joinTexts, filled]
  cases kept : texts.filter fun text => text ≠ [] with
  | nil =>
    refine .omitted fun slot mem => ?_
    obtain ⟨text, inside, rfl⟩ := mem_map.mp mem
    rw [show text = [] by simpa using filter_eq_nil_iff.mp kept text inside]
  | cons text others =>
    obtain ⟨inside, filled⟩ :=
      mem_filter.mp (kept ▸ mem_cons_self : text ∈ texts.filter fun text => text ≠ [])
    have shown : Text.joinWith delimiter (text :: others) ≠ [] := by
      cases others <;> simp_all [Text.joinWith]
    rw [if_neg (by simpa using shown), ← kept]
    exact .folded rfl ⟨text, inside, by simpa using filled⟩

theorem merged_merge (name delimiter : Text) (used : Nat) (values : List Node) : ∃ slots,
    Forall₂ Slot.For values slots ∧
    Merged name delimiter slots (merge name delimiter used values).1 := by
  obtain ⟨slots, stand, parts, temps⟩ := exists_slots used values
  refine ⟨slots, stand, ?_⟩
  rcases staticTextsOf?_slots stand with ⟨texts, read, rfl⟩ | ⟨read, unknown⟩
  · rw [merge, read]
    exact merged_of_known name delimiter texts
  · rw [merge, read]
    dsimp only
    rw [joined, parts]
    refine .called unknown ?_
    have numbered : slots.filterMap Slot.temp? ++
      [tempName (used + (slots.filterMap Slot.temp?).length + 1)] =
        (range' (used + 1) ((slots.filterMap Slot.temp?).length + 1)).map tempName := by
      rw [range'_1_concat, map_append, ← temps, Nat.add_right_comm]
      rfl
    rw [numbered]
    exact Nodup.map (fun _ _ => tempName_injective) (nodup_range' ..)

/-! ## Names -/

theorem alone_single (name : Text) (used : Nat) (v : Node) :
    Alone name v (single name used v).1 := by
  unfold single
  split
  next escaped source =>
    simp only [contains_iff_mem]
    split
    next isTrue => exact .always isTrue
    next notTrue =>
      split
      next isFalse => exact .never isFalse
      next notFalse => exact .decided notTrue notFalse
  next noCode => exact .value noCode

theorem alone_singles (name : Text) (used : Nat) (values : List Node) :
    Forall₂ (Alone name) values (singles name used values).1 := by
  induction values generalizing used with
  | nil => exact .nil
  | cons v values ih => exact .cons (alone_single name used v) (ih _)

/-- The values of a name are joined: it has a delimiter, or some shortcut gives it. -/
def IsJoined (o : Options) (entries : List Entry) (name : Text) : Prop :=
  (o.delimiter? name).isSome ∨ ∃ e ∈ entries, e.isShortcut ∧ e.name = name

theorem delimiterFor?_of_isJoined {o : Options} {entries : List Entry}
    (isJoined : IsJoined o entries name) :
    delimiterFor? o entries name = some ((o.delimiter? name).getD []) := by
  unfold delimiterFor?
  split
  next delimiter given => rw [given]; rfl
  next absent =>
    obtain given | ⟨e, mem, short, same⟩ := isJoined
    · exact absurd given (by simp [absent])
    · rw [absent, if_pos (any_eq_true.mpr ⟨e, mem, by simp [short, same]⟩)]
      rfl

theorem delimiterFor?_of_not_isJoined {o : Options} {entries : List Entry}
    (apart : ¬ IsJoined o entries name) : delimiterFor? o entries name = none := by
  unfold delimiterFor?
  split
  next delimiter given => exact absurd (.inl (by rw [given]; rfl)) apart
  next absent =>
    refine if_neg fun any => apart (.inr ?_)
    simpa using any

end Attribute

def Node.isAttr : Node → Bool
  | .frame (.attr _) _ => true
  | _ => false

/-- The number of attributes in a node, at any depth. -/
def Node.attrCount (n : Node) : Nat :=
  n.parts.countP isAttr

namespace Attribute

/-- What a name adds to a merged attribute list. -/
structure Contributes (o : Options) (entries : List Entry) (name : Text) (nodes : List Node) :
    Prop where
  joined : IsJoined o entries name → ∃ slots n, nodes = [n] ∧
    Forall₂ Slot.For (valuesOf entries name) slots ∧
      Merged name ((o.delimiter? name).getD []) slots n ∧
    n.attrCount ≤ 1 + ((slots.filterMap Slot.value?).map Node.attrCount).sum
  apart : ¬ IsJoined o entries name → Forall₂ (Alone name) (valuesOf entries name) nodes

theorem attrCount_seq (ns : List Node) : (Node.seq ns).attrCount = (ns.map Node.attrCount).sum := by
  change (Node.seq ns :: Node.partsOf ns).countP Node.isAttr = _
  rw [countP_cons_of_neg Bool.false_ne_true]
  induction ns with
  | nil => rfl
  | cons n ns ih => rw [Node.partsOf, countP_append, ih, map_cons, sum_cons]; rfl

theorem attrCount_captures (slots : List Slot) :
    ((slots.filterMap Slot.capture?).map Node.attrCount).sum =
      ((slots.filterMap Slot.value?).map Node.attrCount).sum := by
  induction slots with
  | nil => rfl
  | cons slot slots ih =>
    cases slot with
    | known | code => exact ih
    | captured temp v => exact congrArg (v.attrCount + ·) ih

theorem Merged.attrCount_le {name delimiter : Text} {slots : List Slot} {n : Node}
    (merged : Merged name delimiter slots n) :
    n.attrCount ≤ 1 + ((slots.filterMap Slot.value?).map Node.attrCount).sum := by
  cases merged with
  | folded => exact Nat.le_add_right 1 _
  | omitted => exact Nat.zero_le _
  | called =>
    rw [attrCount_seq, map_append, sum_append, attrCount_captures, Nat.add_comm]
    exact le_rfl

theorem contributes_mergeGroups (o : Options) (entries : List Entry) (used : Nat)
    (names : List Text) : ∃ found, (mergeGroups (delimiterFor? o entries) used
        (names.map fun name => (name, valuesOf entries name))).1 = found.flatten ∧
      Forall₂ (Contributes o entries) names found := by
  induction names generalizing used with
  | nil => exact ⟨[], rfl, .nil⟩
  | cons name names ih =>
    rw [map_cons, mergeGroups]
    by_cases isJoined : IsJoined o entries name
    · rw [delimiterFor?_of_isJoined isJoined]
      obtain ⟨slots, stand, merged⟩ :=
        merged_merge name ((o.delimiter? name).getD []) used (valuesOf entries name)
      obtain ⟨found, same, contribute⟩ :=
        ih (merge name ((o.delimiter? name).getD []) used (valuesOf entries name)).2
      refine ⟨[_] :: found, congrArg (_ :: ·) same,
        .cons ⟨fun _ => ⟨slots, _, rfl, stand, merged, merged.attrCount_le⟩,
        fun apart => absurd isJoined apart⟩ contribute⟩
    · rw [delimiterFor?_of_not_isJoined isJoined]
      obtain ⟨found, same, contribute⟩ := ih (singles name used (valuesOf entries name)).2
      exact ⟨_ :: found, congrArg (_ ++ ·) same, .cons ⟨fun joined => absurd joined isJoined,
        fun _ => alone_singles name used _⟩ contribute⟩

end Attribute

namespace Node

open Attribute

/-- The names of an attribute list contribute one after the other, as they first appear. -/
theorem attributed_attrs (o : Options) (used : Nat) (entries : List Entry) :
    ∃ (found : List (List Node)) (used' : Nat),
      (Node.attrs (entries.map Entry.node)).attributed o used = .ok (.attrs found.flatten, used') ∧
      Forall₂ (Contributes o entries) (entries.map (·.name)).eraseDups found := by
  obtain ⟨found, same, contribute⟩ :=
    contributes_mergeGroups o entries used (entries.map (·.name)).eraseDups
  refine ⟨found, (mergeEntries o used entries).2, ?_, contribute⟩
  rw [attributed, mergeList, Entry.ofNodes_map_node]
  rw [← groups_eq] at same
  change Except.ok (Node.attrs (mergeEntries o used entries).1, _) = _
  rw [mergeEntries, same]

/-- A captured value keeps the attributes that it holds. -/
theorem attributed_attrs_nested :
    ∃ n, (Node.attrs [.attr "class" (.attr "id" (.static "x"))]).attributed {} 0 =
      .ok (.attrs [n], 2) ∧ n.attrCount = 2 :=
  ⟨_, rfl, by decide⟩

end Node

end MarkupTemplate
