import Mathlib.Data.List.Perm.Subperm
import MarkupTemplate.Attribute.Merged
import MarkupTemplate.Attribute.Override
import MarkupTemplate.Proofs.Node.Grammar
import MarkupTemplate.Proofs.Text.Literal

/-!
# Attribute lists

Three passes work on the attribute lists of tags. Two choose and order attributes, and the third
merges the values of each name, which puts statements and blocks among them. None changes the lines
that a list takes up.
-/

namespace MarkupTemplate

open List

open Node (Kinds Place Fits Keeps)

variable {α β : Type}

theorem subperm_flatMap_of_subperm {as bs : List α} (fewer : as.Subperm bs) (f : α → List β) :
    (as.flatMap f).Subperm (bs.flatMap f) := by
  obtain ⟨cs, moved, kept⟩ := fewer
  refine (moved.symm.flatMap_right f).subperm.trans ?_
  clear moved
  induction kept with
  | slnil => exact .refl _
  | cons b _ ih => exact ih.trans (sublist_append_right (f b) _).subperm
  | cons_cons a _ ih => exact (Subperm.refl (f a)).append ih

theorem subperm_flatMap {as : List α} {f g : α → List β} (each : ∀ a ∈ as, (f a).Subperm (g a)) :
    (as.flatMap f).Subperm (as.flatMap g) := by
  induction as with
  | nil => exact .refl _
  | cons a as ih =>
    rw [forall_mem_cons] at each
    exact each.1.append (ih each.2)

namespace Attribute

variable {k : Kinds} {format : Format}

/-! ## Entries -/

variable {v e : Node} {entries entries' : List Node} {α β : Type} {name : Text}

theorem extent_value (fits : Fits k format .value v) (feed : Nat) : v.extent feed = 0 := by
  cases fits with
  | code plain => simp [Leaf.extent, count_eq_zero_of_not_mem plain]
  | known _ zero => exact zero feed
  | leaf nested | frame nested | seq nested => cases nested

theorem extent_entry (fits : Fits k format .entry e) (feed : Nat) : e.extent feed = 0 := by
  cases fits with
  | attr fits | shortcut fits => simp [Frame.extent, extent_value fits feed]
  | leaf nested | frame nested | seq nested => cases nested

theorem extentOf_entries (fits : ∀ e ∈ entries, Fits k format .entry e) (feed : Nat) :
    Node.extentOf feed entries = 0 :=
  Node.extentOf_eq_zero feed fun e mem => extent_entry (fits e mem) feed

/-- An entry whose value has a property. -/
def IsEntryOf (holds : Node → Prop) (e : Node) : Prop :=
  ∃ entry, Entry.ofNode e = .ok entry ∧ holds entry.value

variable {holds : Node → Prop}

theorem isEntryOf_iff :
    IsEntryOf holds e ↔ ∃ name v, (e = .attr name v ∨ e = .shortcut name v) ∧ holds v := by
  constructor
  · rintro ⟨entry, read, here⟩
    unfold Entry.ofNode at read
    split at read
    next name v =>
      cases read
      exact ⟨name, v, .inl rfl, here⟩
    next name v =>
      cases read
      exact ⟨name, v, .inr rfl, here⟩
    next => nomatch read
  · rintro ⟨name, v, rfl | rfl, here⟩
    · exact ⟨_, rfl, here⟩
    · exact ⟨_, rfl, here⟩

theorem fits_entry_iff : Fits k format .entry e ↔ IsEntryOf (Fits k format .value) e := by
  rw [isEntryOf_iff]
  constructor
  · intro fits
    cases fits with
    | attr fits => exact ⟨_, _, .inl rfl, fits⟩
    | shortcut fits => exact ⟨_, _, .inr rfl, fits⟩
    | leaf nested | frame nested | seq nested => nomatch nested
  · rintro ⟨name, v, rfl | rfl, fits⟩
    · exact .attr fits
    · exact .shortcut fits

theorem Entry.ofNodes_eq (each : ∀ e ∈ entries, IsEntryOf holds e) :
    ∃ es, ofNodes entries = .ok es ∧ ∀ e ∈ es, holds e.value := by
  induction entries with
  | nil => exact ⟨[], rfl, nofun⟩
  | cons entry entries ih =>
    rw [forall_mem_cons] at each
    obtain ⟨e, readFirst, here⟩ := each.1
    obtain ⟨es, read, others⟩ := ih each.2
    refine ⟨e :: es, ?_, forall_mem_cons.mpr ⟨here, others⟩⟩
    rw [ofNodes, readFirst, read]
    rfl

theorem Entry.map_node {es : List Entry} (read : ofNodes entries = .ok es) :
    es.map node = entries := by
  have one : ∀ {n : Node} {e : Entry}, ofNode n = .ok e → e.node = n := by
    intro n e read
    unfold ofNode at read
    split at read
    · cases read
      rfl
    · cases read
      rfl
    · nomatch read
  induction entries generalizing es with
  | nil =>
    cases read
    rfl
  | cons n entries ih =>
    obtain ⟨e, first, read⟩ := exists_of_bind read
    obtain ⟨es, rest, done⟩ := exists_of_bind read
    cases done
    rw [map_cons, one first, ih rest]

/-! ## Values by name -/

theorem perm_addTo (f : Text → α → β) (name : Text) (value : α) (groups : List (Text × List α)) :
    ((addTo name value groups).flatMap fun group => group.2.map (f group.1)).Perm
      ((groups.flatMap fun group => group.2.map (f group.1)) ++ [f name value]) := by
  induction groups with
  | nil => exact .refl _
  | cons group groups ih =>
    obtain ⟨key, values⟩ := group
    rw [addTo]
    split
    next same =>
      subst same
      simp only [flatMap_cons, map_append, map_singleton, append_assoc]
      exact perm_append_comm.append_left _
    next =>
      simp only [flatMap_cons, append_assoc]
      exact ih.append_left _

theorem perm_groups (f : Text → Node → β) (entries : List Entry) :
    ((groups entries).flatMap fun group => group.2.map (f group.1)).Perm
      (entries.map fun e => f e.name e.value) := by
  have fold : ∀ (entries : List Entry) (found : List (Text × List Node)),
      ((entries.foldl (fun found e => addTo e.name e.value found) found).flatMap
        fun group => group.2.map (f group.1)).Perm
      ((found.flatMap fun group => group.2.map (f group.1)) ++ entries.map fun e =>
        f e.name e.value) := by
    intro entries
    induction entries with
    | nil =>
      intro found
      rw [map_nil, append_nil]
      exact .refl _
    | cons e entries ih =>
      intro found
      refine (ih _).trans (((perm_addTo f e.name e.value found).append_right _).trans ?_)
      rw [append_assoc]
      exact .refl _
  exact fold entries []

theorem mem_groups {entries : List Entry} {values : List Node}
    (mem : (name, values) ∈ groups entries)
    (inside : v ∈ values) : ∃ e ∈ entries, e.name = name ∧ e.value = v := by
  have paired : (name, v) ∈ (groups entries).flatMap fun group => group.2.map (group.1, ·) :=
    mem_flatMap.mpr ⟨_, mem, mem_map_of_mem inside⟩
  obtain ⟨e, chosen, same⟩ := mem_map.mp ((perm_groups Prod.mk entries).subset paired)
  cases same
  exact ⟨e, chosen, rfl, rfl⟩

/-! ## Choosing and ordering -/

/-- The values of a name that count: the last one, if the name is overridden. -/
def effective (overridden : List Text) (name : Text) (values : List Node) : List Node :=
  if overridden.contains name then values.getLast?.toList else values

/-- The values of each name that count. -/
def counted (overridden : List Text) (found : List (Text × List Node)) : List (Text × List Node) :=
  found.map fun group => (group.1, effective overridden group.1 group.2)

/-- Putting a value in the place of the others of its name keeps the last value of each name. -/
theorem counted_addTo (names : List Text) (name : Text) (v : Node)
    (found : List (Text × List Node)) : counted names (addTo name v found) =
      if ((counted names found).lookup name).isSome && names.contains name then
        resetTo name v (counted names found)
      else addTo name v (counted names found) := by
  have one : effective names name [v] = [v] := by
    unfold effective
    split
    · rfl
    · rfl
  induction found with
  | nil => simp [counted, addTo, one]
  | cons group found ih =>
    obtain ⟨key, values⟩ := group
    unfold counted at ih ⊢
    by_cases same : key = name
    · subst same
      have last : effective names key (values ++ [v]) =
          if names.contains key then [v] else effective names key values ++ [v] := by
        unfold effective
        split
        · rw [getLast?_concat]
          rfl
        · rfl
      by_cases listed : key ∈ names
      · simp [addTo, resetTo, last, listed]
      · simp [addTo, last, listed]
    · have other : (name == key) = false := beq_eq_false_iff_ne.mpr (Ne.symm same)
      simp only [addTo, if_neg same, map_cons, ih, lookup_cons, other, resetTo]
      split
      · rfl
      · rfl

theorem add_counted (names : List Text) (shortcuts : List Node) (found : List (Text × List Node))
    {e : Entry} (isPlain : e.isShortcut = false) :
    Kept.add names ⟨shortcuts, counted names found⟩ e =
      ⟨shortcuts, counted names (addTo e.name e.value found)⟩ := by
  rw [Kept.add, isPlain, counted_addTo]
  simp only [Bool.false_eq_true, if_false]
  split
  · rfl
  · rfl

/-- The loop over the attributes keeps the shortcuts, and of each name the values that count. -/
theorem overrideEntries_grouped (names : List Text) (entries : List Entry) :
    overrideEntries names entries = (entries.filter (·.isShortcut)).map Entry.node ++
      (counted names (groups (entries.filter fun e => !e.isShortcut))).flatMap fun group =>
        group.2.map (Node.attr group.1) := by
  have loop : ∀ (entries : List Entry) (shortcuts : List Node) (found : List (Text × List Node)),
      entries.foldl (Kept.add names) ⟨shortcuts, counted names found⟩ =
        ⟨shortcuts ++ (entries.filter (·.isShortcut)).map Entry.node,
          counted names ((entries.filter fun e => !e.isShortcut).foldl
            (fun found e => addTo e.name e.value found) found)⟩ := by
    intro entries
    induction entries with
    | nil =>
      intro shortcuts found
      rw [filter_nil, map_nil, append_nil]
      rfl
    | cons e entries ih =>
      intro shortcuts found
      rw [foldl_cons]
      cases kind : e.isShortcut with
      | true => simp [Kept.add, kind, ih]
      | false => simp [add_counted names shortcuts found kind, kind, ih]
  have whole := loop entries [] []
  rw [nil_append] at whole
  exact congrArg (fun kept : Kept => kept.shortcuts ++ kept.values.flatMap fun group =>
    group.2.map (Node.attr group.1)) whole

theorem effective_sublist (names : List Text) (name : Text) (values : List Node) :
    (effective names name values).Sublist values := by
  unfold effective
  split
  · cases last : values.getLast? with
    | none => exact nil_sublist _
    | some v => exact singleton_sublist.mpr (mem_of_getLast? last)
  · exact .refl _

theorem overrideList_fewer {names : List Text} (made : overrideList names entries = .ok entries') :
    entries'.Subperm entries := by
  obtain ⟨es, read, done⟩ := exists_of_bind made
  cases done
  rw [← Entry.map_node read, overrideEntries_grouped]
  have chosen : ((counted names (groups (es.filter fun e => !e.isShortcut))).flatMap fun group =>
        group.2.map (Node.attr group.1)).Subperm
      ((es.filter fun e => !e.isShortcut).map Entry.node) := by
    have same : (es.filter fun e => !e.isShortcut).map Entry.node =
        (es.filter fun e => !e.isShortcut).map fun e => .attr e.name e.value := by
      refine map_congr_left fun e mem => ?_
      have plain : e.isShortcut = false := by simpa using (mem_filter.mp mem).2
      rw [Entry.node, plain]
      rfl
    rw [same, counted, flatMap_map]
    refine Subperm.trans ?_ (perm_groups (fun name v => Node.attr name v) _).subperm
    exact subperm_flatMap fun group _ => ((effective_sublist names group.1 group.2).map _).subperm
  refine ((Subperm.refl _).append chosen).trans ?_
  rw [← map_append]
  exact ((filter_append_perm _ es).map _).subperm

theorem overrideList_eq (names : List Text) (each : ∀ e ∈ entries, IsEntryOf holds e) :
    ∃ entries', overrideList names entries = .ok entries' ∧ ∀ e ∈ entries', IsEntryOf holds e := by
  obtain ⟨es, read, _⟩ := Entry.ofNodes_eq each
  have made : overrideList names entries = .ok (overrideEntries names es) := by
    rw [overrideList, read]; rfl
  exact ⟨_, made, fun e mem => each e ((overrideList_fewer made).subset mem)⟩

theorem sortList_fewer {keys : List Text} (made : sortList keys entries = .ok entries') :
    entries'.Subperm entries := by
  obtain ⟨es, read, done⟩ := exists_of_bind made
  cases done
  rw [← Entry.map_node read]
  refine (List.Perm.map _ ?_).subperm
  have moved := (mergeSort_perm (es.filter fun e => keys.contains e.name)
    fun a b => Text.le (sortKey a.value) (sortKey b.value)).append_left
      (es.filter fun e => !keys.contains e.name)
  exact moved.trans (perm_append_comm.trans (filter_append_perm _ es))

theorem sortList_eq (keys : List Text) (each : ∀ e ∈ entries, IsEntryOf holds e) :
    ∃ entries', sortList keys entries = .ok entries' ∧ ∀ e ∈ entries', IsEntryOf holds e := by
  obtain ⟨es, read, _⟩ := Entry.ofNodes_eq each
  have made : sortList keys entries = .ok ((sortEntries keys es).map Entry.node) := by
    rw [sortList, read]; rfl
  exact ⟨_, made, fun e mem => each e ((sortList_fewer made).subset mem)⟩

end Attribute

namespace Node

/-- A pass that works on the attribute lists of a tree and leaves everything else as it is. -/
structure ListPass (pass : Node → Except Failure Node)
    (list : List Node → Except Failure (List Node)) : Prop where
  leaf : ∀ l, l ≠ .unknown → pass (.leaf l) = .ok (.leaf l)
  frame : ∀ f inner, pass (.frame f inner) = do
    let inner ← pass inner
    return .frame f inner
  seq : ∀ children, pass (.seq children) = do
    let children ← children.mapM pass
    return .seq children
  closed : ∀ name entries, pass (.tag name entries none) = do
    let entries ← list entries
    return .tag name entries none
  tag : ∀ name entries body, pass (.tag name entries (some body)) = do
    let entries ← list entries
    let body ← pass body
    return .tag name entries (some body)
  fewer : ∀ {entries entries' : List Node}, list entries = .ok entries' → entries'.Subperm entries
  list : ∀ {holds : Node → Prop} {entries : List Node},
    (∀ e ∈ entries, Attribute.IsEntryOf holds e) →
    ∃ entries', list entries = .ok entries' ∧ ∀ e ∈ entries', Attribute.IsEntryOf holds e

theorem overriddenAll_eq (names : List Text) (ns : List Node) :
    overriddenAll names ns = ns.mapM (overridden names) :=
  eq_mapM (overriddenAll names) rfl (fun _ _ => rfl) ns

theorem overridden_listPass (names : List Text) :
    ListPass (overridden names) (Attribute.overrideList names) where
  leaf l known := by cases l <;> trivial
  frame _ _ := rfl
  seq children := by rw [overridden, overriddenAll_eq]
  closed _ _ := rfl
  tag _ _ _ := rfl
  fewer := Attribute.overrideList_fewer
  list := Attribute.overrideList_eq names

theorem sortedAll_eq (keys : List Text) (ns : List Node) :
    sortedAll keys ns = ns.mapM (sorted keys) :=
  eq_mapM (sortedAll keys) rfl (fun _ _ => rfl) ns

theorem sorted_listPass (keys : List Text) : ListPass (sorted keys) (Attribute.sortList keys) where
  leaf l known := by cases l <;> trivial
  frame _ _ := rfl
  seq children := by rw [sorted, sortedAll_eq]
  closed _ _ := rfl
  tag _ _ _ := rfl
  fewer := Attribute.sortList_fewer
  list := Attribute.sortList_eq keys

variable {k : Kinds} {format : Format}

variable {n : Node}

theorem ListPass.keeps {pass : Node → Except Failure Node}
    {list : List Node → Except Failure (List Node)}
    (walks : ListPass pass list) (lists : k.lists) {p : Place} (fits : Fits k format p n)
    (top : p.isOpen) : Yields (Keeps k format p n) (fun _ => False) (pass n) := by
  have place : k.entries = .entry := by simp [Kinds.entries, lists]
  have each : ∀ {entries : List Node}, (∀ e ∈ entries, Fits k format .entry e) →
      ∃ entries', list entries = .ok entries' ∧ ∀ e ∈ entries', Fits k format .entry e := by
    simp only [Attribute.fits_entry_iff]
    exact walks.list
  induction fits with
  | @leaf p l nested allowed =>
    have known : l ≠ .unknown := by
      rintro rfl
      nomatch allowed
    rw [walks.leaf l known]
    exact ⟨.leaf nested allowed, fun _ => rfl⟩
  | frame nested allowed _ ih =>
    rw [walks.frame]
    refine (ih nested).bind ?_
    intro inner kept
    exact ⟨.frame nested allowed kept.fits, fun feed => by simp [kept.extent feed]⟩
  | seq nested _ ih =>
    rw [walks.seq]
    refine (Yields.mapM fun n mem => ih n mem nested).bind ?_
    intro children kept
    obtain ⟨fits, extent⟩ := Keeps.all kept
    exact ⟨.seq nested fits, fun feed => by simp [extent feed]⟩
  | closed markup fits _ =>
    rw [place] at fits
    obtain ⟨entries', read, fits'⟩ := each fits
    rw [walks.closed, read]
    refine ⟨.closed markup (by rw [place]; exact fits'), fun feed => ?_⟩
    simp [Attribute.extentOf_entries fits feed, Attribute.extentOf_entries fits' feed]
  | tag markup fits _ _ ihBody =>
    rw [place] at fits
    obtain ⟨entries', read, fits'⟩ := each fits
    rw [walks.tag, read]
    refine (ihBody rfl).bind ?_
    intro body kept
    refine ⟨.tag markup (by rw [place]; exact fits') kept.fits, fun feed => ?_⟩
    simp [Attribute.extentOf_entries fits feed, Attribute.extentOf_entries fits' feed,
      kept.extent feed]
  | _ => nomatch top

theorem overridden_keeps (lists : k.lists) (names : List Text) (fits : Fits k format .tree n) :
    Yields (Keeps k format .tree n) (fun _ => False) (n.overridden names) :=
  (overridden_listPass names).keeps lists fits rfl

theorem sorted_keeps (lists : k.lists) (keys : List Text) (fits : Fits k format .tree n) :
    Yields (Keeps k format .tree n) (fun _ => False) (n.sorted keys) :=
  (sorted_listPass keys).keeps lists fits rfl

end Node

end MarkupTemplate
