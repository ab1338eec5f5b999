import MarkupTemplate.Proofs.Node.Compact

/-!
# Which values count

`overridden` regroups an attribute list. Its result is given directly here: the shortcuts, then for
each name, as the names first appear, its last value or all its values. Such a list is grouped
already, so a second run leaves it as it is.
-/

namespace MarkupTemplate

open List

namespace Attribute

variable {names : List Text} {entries : List Entry} {name : Text}

def plain (entries : List Entry) : List Entry :=
  entries.filter fun e => !e.isShortcut

def valuesOf (entries : List Entry) (name : Text) : List Node :=
  (entries.filter fun e => e.name = name).map (·.value)

/-! ## Grouping -/

theorem nodup_eraseDups (names : List Text) : names.eraseDups.Nodup := by
  match names with
  | [] => exact .nil
  | name :: names =>
    rw [eraseDups_cons, nodup_cons, mem_eraseDups]
    exact ⟨by simp, nodup_eraseDups _⟩
termination_by names.length
decreasing_by exact Nat.lt_succ_of_le (length_filter_le _ _)

/-- The first name takes all its values; the other names are grouped among themselves. -/
theorem groups_cons (e : Entry) (entries : List Entry) :
    groups (e :: entries) = (e.name, e.value :: valuesOf entries e.name) ::
      groups (entries.filter fun other => !other.name == e.name) := by
  have fold : ∀ (entries : List Entry) (name : Text) (values : List Node)
    (found : List (Text × List Node)),
      entries.foldl (fun found e => addTo e.name e.value found) ((name, values) :: found) =
        (name, values ++ valuesOf entries name) ::
          (entries.filter fun e => !e.name == name).foldl
            (fun found e => addTo e.name e.value found) found := by
    intro entries name
    induction entries with
    | nil => simp [valuesOf]
    | cons e entries ih =>
      intro values found
      by_cases same : e.name = name
      · simp [addTo, valuesOf, same, ih]
      · simp [addTo, valuesOf, same, Ne.symm same, ih]
  exact fold entries e.name [e.value] []

theorem groups_eq (entries : List Entry) :
    groups entries = (entries.map (·.name)).eraseDups.map fun name =>
      (name, valuesOf entries name) := by
  match entries with
  | [] => rfl
  | e :: entries =>
    rw [groups_cons, groups_eq, map_cons, eraseDups_cons, map_cons, filter_map]
    refine congrArg₂ _ (by simp [valuesOf]) (map_congr_left fun name mem => ?_)
    obtain ⟨other, found, rfl⟩ := mem_map.mp (mem_eraseDups.mp mem)
    have differs : other.name ≠ e.name := by simpa using (mem_filter.mp found).2
    have still : ∀ x : Entry, (decide (x.name = other.name) && !x.name == e.name) =
        decide (x.name = other.name) := by
      intro x
      by_cases same : x.name = other.name <;> simp [same, differs]
    simp [valuesOf, still, differs.symm]
termination_by entries.length
decreasing_by exact Nat.lt_succ_of_le (length_filter_le _ _)

theorem groups_append {later : List Entry} (apart : ∀ e ∈ later, e.name ≠ name) (value : Node)
    (values : List Node) :
    groups ((value :: values).map (Entry.mk false name) ++ later) = (name, value :: values) ::
      groups later := by
  have own : later.filter (fun e => decide (e.name = name)) = [] := by
    simpa [filter_eq_nil_iff] using apart
  have others : later.filter (fun e => !e.name == name) = later := by
    simpa [filter_eq_self] using apart
  rw [map_cons, cons_append, groups_cons]
  simp [valuesOf, filter_map, Function.comp_def, own, others]

/-- Entries that stand in groups are grouped as they stand. -/
theorem groups_flatMap {found : List (Text × List Node)} (distinct : (found.map (·.1)).Nodup)
    (filled : ∀ group ∈ found, group.2 ≠ []) :
    groups (found.flatMap fun group => group.2.map (Entry.mk false group.1)) = found := by
  induction found with
  | nil => rfl
  | cons group found ih =>
    obtain ⟨name, values⟩ := group
    rw [map_cons, nodup_cons] at distinct
    rw [forall_mem_cons] at filled
    obtain ⟨value, values, rfl⟩ := exists_cons_of_ne_nil filled.1
    have apart : ∀ e ∈ found.flatMap fun group => group.2.map (Entry.mk false group.1),
        e.name ≠ name := by
      intro e mem same
      obtain ⟨group, inside, mem⟩ := mem_flatMap.mp mem
      obtain ⟨_, _, rfl⟩ := mem_map.mp mem
      exact distinct.1 (mem_map.mpr ⟨group, inside, same⟩)
    rw [flatMap_cons, groups_append apart, ih distinct.2 filled.2]

/-! ## Choosing -/

theorem effective_effective (names : List Text) (name : Text) (values : List Node) :
    effective names name (effective names name values) = effective names name values := by
  unfold effective
  split
  · cases values.getLast? <;> rfl
  · rfl

theorem effective_ne_nil {values : List Node} (filled : values ≠ []) :
    effective names name values ≠ [] := by
  unfold effective
  split
  · simpa [getLast?_eq_none_iff] using filled
  · exact filled

theorem Entry.ofNodes_map_node (entries : List Entry) :
    ofNodes (entries.map node) = .ok entries := by
  have one : ∀ e : Entry, ofNode e.node = .ok e := by
    rintro ⟨_ | _, name, value⟩ <;> rfl
  induction entries with
  | nil => rfl
  | cons e entries ih =>
    rw [map_cons, ofNodes, one, ih]
    rfl

theorem overrideList_map_node (names : List Text) (entries : List Entry) :
    overrideList names (entries.map Entry.node) = .ok (overrideEntries names entries) := by
  rw [overrideList, Entry.ofNodes_map_node]
  rfl

theorem overrideEntries_eq (names : List Text) (entries : List Entry) :
    overrideEntries names entries = (entries.filter (·.isShortcut)).map Entry.node ++
      ((plain entries).map (·.name)).eraseDups.flatMap fun name =>
        (effective names name (valuesOf (plain entries) name)).map (Node.attr name) := by
  rw [overrideEntries_grouped, counted, flatMap_map, groups_eq, flatMap_map]
  rfl

theorem overrideList_self {ns ns' : List Node} (chosen : overrideList names ns = .ok ns') :
    overrideList names ns' = .ok ns' := by
  obtain ⟨entries, -, done⟩ := exists_of_bind chosen
  cases done
  let found := counted names (groups (plain entries))
  let kept := entries.filter (·.isShortcut) ++
    found.flatMap fun group => group.2.map (Entry.mk false group.1)
  have written : overrideEntries names entries = kept.map Entry.node := by
    simp [overrideEntries_grouped, kept, found, map_flatMap, Entry.node, plain, Function.comp_def]
  have shortcuts : kept.filter (·.isShortcut) = entries.filter (·.isShortcut) := by
    simp [kept, filter_flatMap, filter_map, Function.comp_def]
  have others : plain kept = found.flatMap fun group => group.2.map (Entry.mk false group.1) := by
    simp [plain, kept, filter_flatMap, filter_map, Function.comp_def]
  have grouped : groups (plain kept) = found := by
    rw [others]
    refine groups_flatMap ?_ ?_
    · simpa [found, counted, groups_eq, Function.comp_def] using nodup_eraseDups _
    · simp only [found, counted, groups_eq, map_map, forall_mem_map, Function.comp_apply,
        mem_eraseDups]
      intro e mem
      have valued : valuesOf (plain entries) e.name ≠ [] := by simpa [valuesOf] using ⟨e, mem, rfl⟩
      exact effective_ne_nil valued
  have again : overrideEntries names kept = overrideEntries names entries := by
    have still : counted names found = found := by
      simp only [found, counted, map_map, Function.comp_def, effective_effective]
    rw [overrideEntries_grouped, overrideEntries_grouped, shortcuts, ← plain, grouped, still]
    rfl
  rw [written, overrideList_map_node, again, written]

end Attribute

namespace Node

/-- If a second run changes no list that the first one made, it changes no such tree. -/
theorem ListPass.self {pass : Node → Except Failure Node}
    {list : List Node → Except Failure (List Node)}
    (walks : ListPass pass list) (unknown : ∃ failure, pass .unknown = .error failure)
    (attrs : ∀ entries, pass (.attrs entries) = do
      let entries ← list entries
      return .attrs entries)
    (same : ∀ {entries entries'}, list entries = .ok entries' → list entries' = .ok entries')
    (n : Node) : Yields (fun n => pass n = .ok n) (fun _ => True) (pass n) := by
  have again : ∀ entries : List Node,
      Yields (fun entries => list entries = .ok entries) (fun _ => True) (list entries) := by
    intro entries
    cases made : list entries with
    | error => trivial
    | ok => exact same made
  induction n using Node.induction with
  | leaf l =>
    by_cases known : l = .unknown
    · obtain ⟨failure, failed⟩ := unknown
      rw [known, failed]
      trivial
    · rw [walks.leaf l known]
      exact walks.leaf l known
  | frame f inner ih =>
    rw [walks.frame]
    refine ih.bind fun inner done => ?_
    change pass (.frame f inner) = _
    rw [walks.frame, done]
    rfl
  | group g children ih =>
    cases g with
    | seq =>
      rw [walks.seq]
      refine (Yields.mapM ih).bind fun children each => ?_
      change pass (.seq children) = _
      rw [walks.seq, mapM_eq_self (forall_of_forall₂ each)]
      rfl
    | attrs =>
      rw [attrs]
      refine (again children).bind fun entries done => ?_
      change pass (.attrs entries) = _
      rw [attrs, done]
      rfl
  | closed name entries =>
    rw [walks.closed]
    refine (again entries).bind fun entries done => ?_
    change pass (.tag name entries none) = _
    rw [walks.closed, done]
    rfl
  | tag name entries body _ ih =>
    rw [walks.tag]
    refine (again entries).bind fun entries done => ih.bind fun body bodyDone => ?_
    change pass (.tag name entries (some body)) = _
    rw [walks.tag, done]
    dsimp only [bind, Except.bind]
    rw [bodyDone]
    rfl

theorem overridden_self (names : List Text) (n : Node) :
    Yields (fun n => n.overridden names = .ok n) (fun _ => True) (n.overridden names) :=
  (overridden_listPass names).self ⟨_, rfl⟩ (fun _ => rfl) Attribute.overrideList_self n

/-- Of an attribute list, the shortcuts and for each name its last value, or all its values if the
name is not to be overridden. A second run changes nothing. -/
theorem overridden_attrs (names : List Text) :
    (∀ entries : List Attribute.Entry,
      (Node.attrs (entries.map Attribute.Entry.node)).overridden names =
        .ok (.attrs ((entries.filter (·.isShortcut)).map Attribute.Entry.node ++
          ((Attribute.plain entries).map (·.name)).eraseDups.flatMap fun name =>
            let values := Attribute.valuesOf (Attribute.plain entries) name
            (if name ∈ names then values.getLast?.toList else values).map (Node.attr name)))) ∧
    ∀ n : Node, (n.overridden names >>= overridden names) = n.overridden names := by
  refine ⟨fun entries => ?_, fun n => ?_⟩
  · rw [overridden, Attribute.overrideList_map_node, Attribute.overrideEntries_eq]
    simp only [Attribute.effective, contains_iff_mem]
    rfl
  · cases done : n.overridden names with
    | error => rfl
    | ok n' => exact (overridden_self names n).of_ok done

end Node

end MarkupTemplate
