import Mathlib.Data.Char
import Mathlib.Data.List.Lex
import Mathlib.Data.List.Nodup
import Mathlib.Data.List.Pairwise
import MarkupTemplate.Proofs.Attribute.Overriding

/-!
# Attributes in order

`sorted` moves the attributes of some names to the end of their list, in the order of their sort
keys, those with equal keys as the template has them. That leaves one possible list
(`sorted_attrs`). So a second run finds nothing to move, and the order of attributes with distinct
keys does not show.
-/

namespace MarkupTemplate

open List

theorem Text.cons_le_cons {a b : Char} {s t : Text} : a :: s ≤ b :: t ↔ a < b ∨ a = b ∧ s ≤ t := by
  have first : a :: s < b :: t ↔ a < b ∨ a = b ∧ s < t := cons_lt_cons_iff
  rw [le_iff_lt_or_eq, le_iff_lt_or_eq, cons.injEq, and_or_left, ← or_assoc]
  exact or_congr_left first

/-- Texts are compared by code points. -/
theorem Text.le_iff_le {s t : Text} : le s t ↔ s ≤ t := by
  induction s generalizing t with
  | nil => exact ⟨fun _ => not_lt.mp (not_lt_nil t), fun _ => rfl⟩
  | cons a s ih =>
    cases t with
    | nil => simp [le]
    | cons b t =>
      rw [le, Text.cons_le_cons, ← ih]
      by_cases same : a = b
      · simp [same]
      · simp [same]
        rfl

namespace Attribute

variable {keys : List Text} {entries entries' : List Entry}

/-! ## One order -/

def keyed (keys : List Text) (entries : List Entry) : List Entry :=
  entries.filter fun e => e.name ∈ keys

def unkeyed (keys : List Text) (entries : List Entry) : List Entry :=
  entries.filter fun e => e.name ∉ keys

def notAfter (a b : Entry) : Bool :=
  Text.le (sortKey a.value) (sortKey b.value)

def byKey (entries : List Entry) : List Entry :=
  entries.mergeSort notAfter

theorem notAfter_iff {a b : Entry} : notAfter a b ↔ sortKey a.value ≤ sortKey b.value :=
  Text.le_iff_le

theorem notAfter_trans (a b c : Entry) : notAfter a b → notAfter b c → notAfter a c := by
  simp only [notAfter_iff]
  exact le_trans

theorem notAfter_total (a b : Entry) : notAfter a b || notAfter b a := by
  rw [Bool.or_eq_true, notAfter_iff, notAfter_iff]
  exact le_total _ _

theorem sortEntries_eq (keys : List Text) (entries : List Entry) :
    sortEntries keys entries = unkeyed keys entries ++ byKey (keyed keys entries) := by
  simp only [sortEntries, unkeyed, keyed, contains_eq_mem, decide_not]
  rfl

theorem pairwise_byKey (entries : List Entry) : (byKey entries).Pairwise fun a b => notAfter a b :=
  pairwise_mergeSort notAfter_trans notAfter_total entries

theorem byKey_perm (entries : List Entry) : (byKey entries).Perm entries :=
  mergeSort_perm entries _

/-- Entries with equal keys stay in order. -/
theorem filter_byKey (key : Text) (entries : List Entry) :
    (byKey entries).filter (fun e => sortKey e.value = key) = entries.filter fun e =>
      sortKey e.value = key := by
  have alike : (entries.filter fun e => sortKey e.value = key).Pairwise fun a b =>
      notAfter a b := by
    refine pairwise_of_forall_mem_list fun a mem b mem' => notAfter_iff.mpr ?_
    rw [of_decide_eq_true (mem_filter.mp mem).2, of_decide_eq_true (mem_filter.mp mem').2]
  have kept : (entries.filter fun e => sortKey e.value = key).Sublist (byKey entries) :=
    sublist_mergeSort notAfter_trans notAfter_total alike filter_sublist
  have inside := kept.filter fun e => sortKey e.value = key
  rw [filter_filter] at inside
  simp only [Bool.and_self] at inside
  exact (inside.eq_of_length ((byKey_perm entries).filter _).length_eq.symm).symm

section

variable (keys : List Text) (entries : List Entry)

theorem sortEntries_perm : (sortEntries keys entries).Perm entries := by
  have parted := filter_append_perm (fun e : Entry => decide (e.name ∈ keys)) entries
  rw [sortEntries_eq]
  refine ((byKey_perm _).append_left _).trans (perm_append_comm.trans ?_)
  simpa only [keyed, unkeyed, decide_not] using parted

theorem keyed_sortEntries :
    keyed keys (sortEntries keys entries) = byKey (keyed keys entries) := by
  have empty : keyed keys (unkeyed keys entries) = [] := by
    refine filter_eq_nil_iff.mpr fun e mem => ?_
    simpa using (mem_filter.mp mem).2
  have all : keyed keys (byKey (keyed keys entries)) = byKey (keyed keys entries) := by
    refine filter_eq_self.mpr fun e mem => ?_
    exact (mem_filter.mp ((byKey_perm _).mem_iff.mp mem)).2
  rw [sortEntries_eq, keyed, filter_append, ← keyed, ← keyed, empty, all, nil_append]

theorem unkeyed_sortEntries :
    unkeyed keys (sortEntries keys entries) = unkeyed keys entries := by
  have all : unkeyed keys (unkeyed keys entries) = unkeyed keys entries :=
    filter_eq_self.mpr fun e mem => (mem_filter.mp mem).2
  have empty : unkeyed keys (byKey (keyed keys entries)) = [] := by
    refine filter_eq_nil_iff.mpr fun e mem => ?_
    simpa using (mem_filter.mp ((byKey_perm _).mem_iff.mp mem)).2
  rw [sortEntries_eq, unkeyed, filter_append, ← unkeyed, ← unkeyed, empty, all, append_nil]

theorem sortEntries_self :
    sortEntries keys (sortEntries keys entries) = sortEntries keys entries := by
  have still : byKey (byKey (keyed keys entries)) = byKey (keyed keys entries) :=
    mergeSort_of_pairwise (pairwise_byKey _)
  rw [sortEntries_eq keys (sortEntries keys entries), keyed_sortEntries, unkeyed_sortEntries, still,
    ← sortEntries_eq]

end

/-- The order of entries with distinct keys does not show. -/
theorem byKey_congr (same : entries.Perm entries')
    (distinct : (entries.map fun e => sortKey e.value).Nodup) : byKey entries = byKey entries' := by
  refine Perm.eq_of_pairwise (fun a b mem mem' first second => ?_) (pairwise_byKey entries)
    (pairwise_byKey entries') ((byKey_perm entries).trans (same.trans (byKey_perm entries').symm))
  have here := (byKey_perm entries).mem_iff.mp mem
  have there := same.mem_iff.mpr ((byKey_perm entries').mem_iff.mp mem')
  exact inj_on_of_nodup_map distinct here there
    (le_antisymm (notAfter_iff.mp first) (notAfter_iff.mp second))

theorem sortList_map_node (keys : List Text) (entries : List Entry) :
    sortList keys (entries.map Entry.node) = .ok ((sortEntries keys entries).map Entry.node) := by
  rw [sortList, Entry.ofNodes_map_node]
  rfl

theorem sortList_self {ns ns' : List Node} (sorted : sortList keys ns = .ok ns') :
    sortList keys ns' = .ok ns' := by
  obtain ⟨entries, -, done⟩ := exists_of_bind sorted
  cases done
  rw [sortList_map_node, sortEntries_self]

end Attribute

namespace Node

open Attribute

theorem sorted_attrs_eq (keys : List Text) (entries : List Entry) :
    (Node.attrs (entries.map Entry.node)).sorted keys =
      .ok (.attrs ((unkeyed keys entries ++ byKey (keyed keys entries)).map Entry.node)) := by
  rw [sorted, sortList_map_node, sortEntries_eq]
  rfl

/-- Of an attribute list, the attributes that are not sorted, and then the others by their sort
keys, where equal keys keep their order. A second run changes nothing, and attributes with distinct
keys may stand in any order. -/
theorem sorted_attrs (keys : List Text) :
    (∀ entries : List Entry, ∃ last : List Entry,
      (Node.attrs (entries.map Entry.node)).sorted keys =
        .ok (.attrs ((unkeyed keys entries ++ last).map Entry.node)) ∧
      (unkeyed keys entries ++ last).Perm entries ∧
      last.Pairwise (fun a b => sortKey a.value ≤ sortKey b.value) ∧
      ∀ key, last.filter (fun e => sortKey e.value = key) =
        (keyed keys entries).filter fun e => sortKey e.value = key) ∧
    (∀ n : Node, (n.sorted keys >>= sorted keys) = n.sorted keys) ∧
    ∀ {entries entries' : List Entry}, unkeyed keys entries = unkeyed keys entries' →
      (keyed keys entries).Perm (keyed keys entries') →
      ((keyed keys entries).map fun e => sortKey e.value).Nodup →
        (Node.attrs (entries.map Entry.node)).sorted keys =
          (Node.attrs (entries'.map Entry.node)).sorted keys := by
  refine ⟨fun entries => ?_, fun n => ?_, fun {entries entries'} others same distinct => ?_⟩
  · refine ⟨byKey (keyed keys entries), sorted_attrs_eq keys entries, ?_, ?_,
      fun key => filter_byKey key _⟩
    · rw [← sortEntries_eq]
      exact sortEntries_perm keys entries
    · exact (pairwise_byKey _).imp notAfter_iff.mp
  · have self := (sorted_listPass keys).self ⟨_, rfl⟩ (fun _ => rfl) sortList_self n
    cases done : n.sorted keys with
    | error => rfl
    | ok n' => exact self.of_ok done
  · rw [sorted_attrs_eq, sorted_attrs_eq, others, byKey_congr same distinct]

/-- A code and a text of one name, around a shortcut. -/
def codeFirst : List Entry :=
  [⟨false, "class", .value true "b"⟩, ⟨true, "id", .static "x"⟩,
   ⟨false, "class", .static "a"⟩]

def textFirst : List Entry :=
  [⟨false, "class", .static "a"⟩, ⟨false, "class", .value true "b"⟩,
   ⟨true, "id", .static "x"⟩]

theorem sorted_attrs_codeFirst :
    codeFirst ≠ textFirst ∧
    unkeyed ["class".toList] codeFirst = unkeyed ["class".toList] textFirst ∧
    (keyed ["class".toList] codeFirst).Perm (keyed ["class".toList] textFirst) ∧
    ((keyed ["class".toList] codeFirst).map fun e => sortKey e.value) = ["b".toList, "a".toList] ∧
    (Node.attrs (codeFirst.map Entry.node)).sorted ["class".toList] =
      (Node.attrs (textFirst.map Entry.node)).sorted ["class".toList] := by
  have others : unkeyed ["class".toList] codeFirst = unkeyed ["class".toList] textFirst := by decide
  have same : (keyed ["class".toList] codeFirst).Perm (keyed ["class".toList] textFirst) := by
    decide
  have sortKeys : ((keyed ["class".toList] codeFirst).map fun e => sortKey e.value) =
      ["b".toList, "a".toList] := by
    decide
  have distinct : ((keyed ["class".toList] codeFirst).map fun e => sortKey e.value).Nodup := by
    rw [sortKeys]
    decide
  exact ⟨by decide, others, same, sortKeys,
    (sorted_attrs ["class".toList]).2.2 others same distinct⟩

end Node

end MarkupTemplate
