import MarkupTemplate.Options.Build

/-!
# Overridden options

A record that is written and built again stays as it is. Overrides are put over what is written for
a record, so they work under the names that the record is written with: the fields they name are
read from them and all others keep their values, and two mappings one after the other act like one
(`build_merged`). Under its other name an override stands beside the written field, which is refused
(`merged_of_build`).
-/

namespace MarkupTemplate.Options

open List

theorem Field.mem_all (f : Field) : f ∈ all := by
  cases f <;> decide

theorem get_ofFields (value : (f : Field) → f.Of) (f : Field) :
    f.get (ofFields value) = value f := by
  cases f <;> rfl

theorem ofFields_get (o : Options) : ofFields (fun f => f.get o) = o :=
  rfl

/-! ## Values read back -/

section

variable (location : Text)

theorem readItems_map_text (i : Nat) (ts : List Text) :
    readItems location i (ts.map .text) = ⟨ts, []⟩ := by
  induction ts generalizing i with
  | nil => rfl
  | cons t ts ih =>
    rw [map_cons, readItems, ih]
    rfl

theorem readEntries_map_text (entries : List (Text × Text)) :
    readEntries location (entries.map fun (name, t) => (name, .text t)) = ⟨entries, []⟩ := by
  induction entries with
  | nil => rfl
  | cons entry entries ih =>
    rw [map_cons, readEntries, ih]
    rfl

theorem readTexts_textsValue (ts : List Text) : readTexts location (textsValue ts) = ⟨ts, []⟩ :=
  readItems_map_text location 0 ts

theorem readTexts?_elim (ts? : Option (List Text)) :
    readTexts? location (ts?.elim .none textsValue) = ⟨ts?, []⟩ := by
  cases ts? with
  | none => rfl
  | some ts =>
    show (⟨some (readTexts location (textsValue ts)).value,
      (readTexts location (textsValue ts)).faults⟩ : Checked _) = _
    rw [readTexts_textsValue]

theorem readNat_int (n : Nat) : readNat location (.int n) = ⟨n, []⟩ := by
  rw [readNat, checkNat, if_neg (by omega), Int.toNat_natCast]

end

/-- What is written for an option is read back as it was. -/
theorem Field.read_write (f : Field) (location : Text) (x : f.Of) :
    f.read location (f.write x) = ⟨x, []⟩ := by
  cases f with
  | file =>
    cases x with
    | none | some t => rfl
  | format | generator | attrQuote => cases x <;> rfl
  | escapeHtml | pretty | sortAttrs | disableCapture | streaming | encoding => rfl
  | tabSize | indent => exact readNat_int location x
  | sortAttrKeys | overrideAttrs => exact readTexts_textsValue location x
  | mergeAttrs => exact readEntries_map_text location x
  | enableEngines | disableEngines => exact readTexts?_elim location x

/-- No option has a name of another one. -/
theorem Field.eq_of_name_eq {f g : Field}
    (same : f.key.name = g.key.name ∨ f.key.camel = g.key.name) : f = g := by
  have distinct : ∀ f ∈ all, ∀ g ∈ all, f.key.name = g.key.name ∨ f.key.camel = g.key.name →
      f = g := by
    decide
  exact distinct f f.mem_all g g.mem_all same

/-! ## Mappings -/

namespace Given

variable {given given' overrides : Given} {name n : Text} {v : Value}

def names (given : Given) : List Text :=
  given.map Prod.fst

theorem update_cons (given : Given) (name : Text) (v : Value) (overrides : Given) :
    given.update ((name, v) :: overrides) = (given.put name v).update overrides :=
  rfl

theorem lookup_cons_eq (name : Text) (v : Value) (given : Given) (n : Text) :
    List.lookup n ((name, v) :: given) = if n = name then some v else given.lookup n := by
  by_cases same : n = name
  · simp [same]
  · rw [lookup_cons, if_neg same, beq_false_of_ne same]

theorem isSome_lookup (given : Given) (n : Text) : (given.lookup n).isSome ↔ n ∈ given.names := by
  simp [names]

theorem lookup_map_replaced (given : Given) (name : Text) (v : Value) (n : Text) :
    (given.map fun entry => if entry.1 = name then (name, v) else entry).lookup n =
      if n = name then (given.lookup n).map fun _ => v else given.lookup n := by
  induction given with
  | nil => simp
  | cons entry given ih =>
    obtain ⟨key, w⟩ := entry
    by_cases here : key = name
    · by_cases same : n = name
      · simp [here, same]
      · simp [lookup_cons_eq, here, same, ih]
    · by_cases same : n = key
      · simp [here, same]
      · simp [lookup_cons_eq, here, same, ih]

theorem lookup_put (given : Given) (name : Text) (v : Value) (n : Text) :
    (given.put name v).lookup n = if n = name then some v else given.lookup n := by
  unfold put
  split
  next found =>
    rw [lookup_map_replaced]
    split
    next same =>
      obtain ⟨w, is⟩ := Option.isSome_iff_exists.mp found
      rw [same, is]
      rfl
    next => rfl
  next missing =>
    rw [Option.not_isSome_iff_eq_none] at missing
    rw [lookup_append, lookup_cons_eq]
    by_cases same : n = name
    · simp [same, missing]
    · simp [same]

theorem lookup_update (given overrides : Given) (n : Text) :
    (given.update overrides).lookup n = (overrides.reverse.lookup n).or (given.lookup n) := by
  induction overrides generalizing given with
  | nil => rfl
  | cons entry overrides ih =>
    obtain ⟨name, v⟩ := entry
    rw [update_cons, ih, lookup_put, reverse_cons, lookup_append, Option.or_assoc, lookup_cons_eq]
    by_cases same : n = name
    · simp [same]
    · simp [same]

/-- The last value of a name counts, in one mapping as in two. -/
theorem lookup_reverse_update (given overrides : Given) (n : Text) :
    (given.update overrides).reverse.lookup n = (overrides.reverse.lookup n).or
      (given.reverse.lookup n) := by
  have step : ∀ (given : Given) name v,
      (given.put name v).reverse.lookup n = if n = name then some v
        else given.reverse.lookup n := by
    intro given name v
    unfold put
    split
    next found =>
      rw [isSome_lookup, names, ← mem_reverse, ← map_reverse, ← names, ← isSome_lookup] at found
      obtain ⟨w, is⟩ := Option.isSome_iff_exists.mp found
      rw [← map_reverse, lookup_map_replaced]
      split
      next same => rw [same, is]; rfl
      next => rfl
    next => rw [reverse_append, reverse_singleton, singleton_append, lookup_cons_eq]
  induction overrides generalizing given with
  | nil => rfl
  | cons entry overrides ih =>
    obtain ⟨name, v⟩ := entry
    rw [update_cons, ih, step, reverse_cons, lookup_append, Option.or_assoc, lookup_cons_eq]
    by_cases same : n = name
    · simp [same]
    · simp [same]

theorem lookup_reverse (distinct : given.names.Nodup) (n : Text) :
    given.reverse.lookup n = given.lookup n := by
  induction given with
  | nil => rfl
  | cons entry given ih =>
    obtain ⟨name, v⟩ := entry
    obtain ⟨fresh, distinct⟩ := nodup_cons.mp distinct
    rw [reverse_cons, lookup_append, ih distinct, lookup_cons_eq, lookup_cons_eq]
    by_cases same : n = name
    · have absent : given.lookup name = none := by
        rw [← Option.not_isSome_iff_eq_none, isSome_lookup]
        exact fresh
      simp [same, absent]
    · simp [same]

theorem names_update (given overrides : Given) :
    ∃ new, (given.update overrides).names = given.names ++ new ∧ new ⊆ overrides.names := by
  induction overrides generalizing given with
  | nil => exact ⟨[], (append_nil _).symm, nil_subset _⟩
  | cons entry overrides ih =>
    obtain ⟨name, v⟩ := entry
    obtain ⟨new, same, inside⟩ := ih (given.put name v)
    rw [update_cons, same, put]
    split
    next =>
      refine ⟨new, congrArg (· ++ new) ?_, fun n mem => .tail _ (inside mem)⟩
      rw [names, map_map]
      refine map_congr_left fun entry _ => ?_
      by_cases here : entry.1 = name <;> simp [here]
    next =>
      refine ⟨name :: new, by simp [names],
        cons_subset.mpr ⟨.head _, fun n mem => .tail _ (inside mem)⟩⟩

/-- All names are those under which a record is written. -/
def IsPlain (given : Given) : Prop :=
  ∀ n ∈ given.names, ∃ f : Field, n = f.key.name

end Given

theorem names_toGiven (o : Options) : o.toGiven.names = Field.all.map fun f => f.key.name := by
  rw [toGiven, Given.names, map_map]
  rfl

theorem isPlain_toGiven (o : Options) : o.toGiven.IsPlain := by
  intro n mem
  rw [names_toGiven] at mem
  obtain ⟨f, -, rfl⟩ := mem_map.mp mem
  exact ⟨f, rfl⟩

theorem lookup_toGiven (o : Options) (f : Field) :
    o.toGiven.lookup f.key.name = some (f.write (f.get o)) := by
  have found : ∀ fields : List Field, f ∈ fields →
      List.lookup f.key.name (fields.map fun f => (f.key.name, f.write (f.get o))) =
        some (f.write (f.get o)) := by
    intro fields mem
    induction fields with
    | nil => nomatch mem
    | cons g fields ih =>
      rw [map_cons, Given.lookup_cons_eq]
      split
      next same => rw [Field.eq_of_name_eq (.inl same)]
      next other =>
        exact ih ((mem_cons.mp mem).resolve_left fun same => other (congrArg (·.key.name) same))
  exact found Field.all f.mem_all

/-! ## Fields of a mapping -/

namespace Field

variable {f : Field} {given overrides : Given} {used : Text} {v : Value}

section

variable (plain : given.IsPlain)

include plain

theorem camel_eq_name (named : f.key.camel ∈ given.names) : f.key.camel = f.key.name := by
  obtain ⟨g, same⟩ := plain _ named
  obtain rfl := eq_of_name_eq (.inr same)
  exact same

theorem find?_of_isPlain :
    f.key.find? given = (given.lookup f.key.name).map fun v => (f.key.name, v) := by
  unfold Key.find?
  split
  next v found =>
    have same := camel_eq_name plain ((Given.isSome_lookup _ _).mp (by rw [found]; rfl))
    rw [← same, found]
    rfl
  next => rfl

/-- Overrides count, under either name, before what they are put over. -/
theorem find?_update (overrides : Given) :
    f.key.find? (given.update overrides) = (f.key.find? overrides.reverse).or
      (f.key.find? given) := by
  rw [find?_of_isPlain plain, Key.find?, Key.find?, Given.lookup_update, Given.lookup_update]
  cases camel : overrides.reverse.lookup f.key.camel with
  | some v => rfl
  | none =>
    rw [Option.none_or, ← Option.map_or]
    split
    next v found =>
      have same := camel_eq_name plain ((Given.isSome_lookup _ _).mp (by rw [found]; rfl))
      rw [← same, camel, found]
      rfl
    next => rfl

theorem check_update (overrides : Given) :
    f.check (given.update overrides) =
      match f.key.find? overrides.reverse with
      | some (used, v) => f.read used v
      | none => f.check given := by
  rw [check, find?_update plain]
  cases f.key.find? overrides.reverse with
  | some found | none => rfl

end

theorem check_toGiven (o : Options) : f.check o.toGiven = ⟨f.get o, []⟩ := by
  rw [check, find?_of_isPlain (isPlain_toGiven o), lookup_toGiven]
  exact f.read_write _ _

theorem check_congr {given given' : Given} (same : ∀ n, given.lookup n = given'.lookup n) :
    f.check given = f.check given' := by
  rw [check, check, Key.find?, Key.find?, same, same]

end Field

/-! ## Names that are refused -/

variable {given overrides : Given} {n : Text} {o o₁ o₂ b : Options}

/-- Of the two names of an option the second counts, if it is given. -/
theorem isUsed_iff : isUsed given n ↔ ∃ f : Field,
    f.key.camel ∈ given.names ∧ f.key.camel = n ∨
      f.key.camel ∉ given.names ∧ f.key.name ∈ given.names ∧ f.key.name = n := by
  have one : ∀ key : Key, (key.find? given).any (fun found => found.1 == n) ↔
      key.camel ∈ given.names ∧ key.camel = n ∨ key.camel ∉ given.names ∧ key.name ∈ given.names ∧
        key.name = n := by
    intro key
    rw [Key.find?, ← Given.isSome_lookup, ← Given.isSome_lookup]
    cases given.lookup key.camel with
    | some v => simp
    | none =>
      cases given.lookup key.name with
      | some v | none => simp
  rw [isUsed, any_eq_true]
  constructor
  · rintro ⟨f, -, used⟩
    exact ⟨f, (one f.key).mp used⟩
  · rintro ⟨f, used⟩
    exact ⟨f, f.mem_all, (one f.key).mpr used⟩

theorem strayFaults_eq (given : Given) :
    strayFaults given = (given.names.filter fun n => !isUsed given n).map fun n =>
      ⟨n, .extraForbidden⟩ := by
  rw [strayFaults, Given.names, filter_map, map_map]
  rfl

theorem build_of_check {value : (f : Field) → f.Of}
    (each : ∀ f : Field, f.check given = ⟨value f, []⟩) :
    build given = if strayFaults given = [] then .ok (ofFields value)
      else .error (strayFaults given) := by
  have faults : Field.all.flatMap (fun f => (f.check given).faults) = [] :=
    flatMap_eq_nil_iff.mpr fun f _ => by rw [each]
  rw [build, check, faults, nil_append]
  simp only [List.isEmpty_iff, each]

theorem build_eq_ok_iff : build given = .ok o ↔
    (∀ f : Field, f.check given = ⟨f.get o, []⟩) ∧ ∀ n ∈ given.names, isUsed given n := by
  have strays : strayFaults given = [] ↔ ∀ n ∈ given.names, isUsed given n := by
    simp [strayFaults_eq]
  rw [← strays]
  constructor
  · intro built
    rw [build, check] at built
    split at built
    next faultless =>
      cases built
      simp only [List.isEmpty_iff, append_eq_nil_iff, flatMap_eq_nil_iff] at faultless
      refine ⟨fun f => ?_, faultless.2⟩
      rw [get_ofFields, ← faultless.1 f f.mem_all]
    next => nomatch built
  · rintro ⟨each, used⟩
    rw [build_of_check each, if_pos used, ofFields_get]

theorem isUsed_of_isPlain (plain : given.IsPlain) (mem : n ∈ given.names) : isUsed given n := by
  obtain ⟨f, rfl⟩ := plain n mem
  refine isUsed_iff.mpr ⟨f, ?_⟩
  by_cases named : f.key.camel ∈ given.names
  · exact .inl ⟨named, Field.camel_eq_name plain named⟩
  · exact .inr ⟨named, mem, rfl⟩

theorem build_toGiven (o : Options) : build o.toGiven = .ok o :=
  build_eq_ok_iff.mpr ⟨fun _ => Field.check_toGiven o,
    fun _ => isUsed_of_isPlain (isPlain_toGiven o)⟩

/-- If all names of a mapping are used and every first name is there, it has no other names. -/
theorem isPlain_of_isUsed (whole : ∀ f : Field, f.key.name ∈ given.names)
    (used : ∀ n ∈ given.names, isUsed given n) : given.IsPlain := by
  intro n mem
  obtain ⟨f, ⟨named, rfl⟩ | ⟨-, -, rfl⟩⟩ := isUsed_iff.mp (used n mem)
  · obtain ⟨g, ⟨named', same⟩ | ⟨other, -, same⟩⟩ := isUsed_iff.mp (used f.key.name (whole f))
    · obtain rfl := Field.eq_of_name_eq (.inr same)
      exact ⟨g, same⟩
    · obtain rfl := Field.eq_of_name_eq (.inl same)
      exact absurd named other
  · exact ⟨f, rfl⟩

theorem name_mem_update (o : Options) (overrides : Given) (f : Field) :
    f.key.name ∈ (o.toGiven.update overrides).names := by
  obtain ⟨new, same, -⟩ := Given.names_update o.toGiven overrides
  rw [same, names_toGiven]
  exact mem_append_left _ (mem_map_of_mem f.mem_all)

theorem mem_names_update :
    n ∈ (given.update overrides).names ↔ n ∈ overrides.names ∨ n ∈ given.names := by
  rw [← Given.isSome_lookup, Given.lookup_update, Option.isSome_or, Bool.or_eq_true,
    Given.isSome_lookup,
    Given.isSome_lookup, Given.names, map_reverse, mem_reverse]
  rfl

/-- A record that is written and built again stays the same, and two mappings act like one. -/
theorem build_merged :
    (∀ o : Options, build o.toGiven = .ok o) ∧
    ∀ {o o₁ o₂ : Options} {a b : Given}, o.merged a = .ok o₁ → o₁.merged b = .ok o₂ →
      o.merged (a.update b) = .ok o₂ := by
  refine ⟨build_toGiven, ?_⟩
  intro o o₁ o₂ a b first second
  obtain ⟨each, used⟩ := build_eq_ok_iff.mp first
  obtain ⟨each', used'⟩ := build_eq_ok_iff.mp second
  have plain := isPlain_of_isUsed (name_mem_update o a) used
  have plain' := isPlain_of_isUsed (name_mem_update o₁ b) used'
  have same : ∀ n, (o.toGiven.update (a.update b)).lookup n =
      ((o.toGiven.update a).update b).lookup n := by
    intro n
    rw [Given.lookup_update, Given.lookup_update, Given.lookup_update, Given.lookup_reverse_update,
      Option.or_assoc]
  refine build_eq_ok_iff.mpr ⟨fun f => ?_, fun n mem => isUsed_of_isPlain ?_ mem⟩
  · rw [Field.check_congr same, Field.check_update plain, each, ← each',
      Field.check_update (isPlain_toGiven o₁),
      Field.check_toGiven]
  · intro n mem
    rcases mem_names_update.mp mem with given | own
    · rcases mem_names_update.mp given with later | earlier
      · exact plain' n (mem_names_update.mpr (.inl later))
      · exact plain n (mem_names_update.mpr (.inl earlier))
    · exact isPlain_toGiven o n own

/-- Words and numbers that stand for other values. -/
def earlier : Given :=
  [("tab_size", .text "1_0"), ("sort_attr_keys", .tuple [.text "id"])]

def later : Given :=
  [("tab_size", .decimal ⟨false, 2, 0⟩), ("pretty", .text "On")]

theorem build_merged_earlier :
    merged {}
    (earlier.update later) = .ok { tabSize := 2, sortAttrKeys := ["id"], pretty := true } := by
  have first : merged {} earlier = .ok { tabSize := 10, sortAttrKeys := ["id"] } := rfl
  have second : merged { tabSize := 10, sortAttrKeys := ["id"] } later =
      .ok { tabSize := 2, sortAttrKeys := ["id"], pretty := true } := rfl
  exact build_merged.2 first second

/-! ## Second names -/

/-- An option is given under one of its names. -/
def Field.IsNamed (f : Field) (given : Given) : Prop :=
  f.key.name ∈ given.names ∨ f.key.camel ∈ given.names

instance (f : Field) (given : Given) : Decidable (f.IsNamed given) :=
  inferInstanceAs (Decidable (_ ∨ _))

theorem Field.isSome_find? (f : Field) (given : Given) :
    (f.key.find? given).isSome ↔ f.IsNamed given := by
  rw [IsNamed, ← Given.isSome_lookup, ← Given.isSome_lookup, Key.find?]
  cases given.lookup f.key.camel with
  | some v | none => simp

/-- The options that are given under a second name which is not their first one too. -/
def renamed (given : Given) : List Field :=
  Field.all.filter fun f => f.key.camel ∈ given.names ∧ f.key.camel ≠ f.key.name

theorem isUsed_name_iff (o : Options) (overrides : Given) (f : Field) :
    isUsed (o.toGiven.update overrides) f.key.name ↔
      ¬ (f.key.camel ∈ overrides.names ∧ f.key.camel ≠ f.key.name) := by
  rw [isUsed_iff]
  constructor
  · rintro ⟨g, ⟨-, same⟩ | ⟨other, -, same⟩⟩ ⟨named, differs⟩
    · obtain rfl := Field.eq_of_name_eq (.inr same)
      exact differs same
    · obtain rfl := Field.eq_of_name_eq (.inl same)
      exact other (mem_names_update.mpr (.inl named))
  · intro clear
    by_cases named : f.key.camel ∈ (o.toGiven.update overrides).names
    · refine ⟨f, .inl ⟨named, ?_⟩⟩
      rcases mem_names_update.mp named with given | own
      · exact Decidable.not_not.mp fun differs => clear ⟨given, differs⟩
      · exact Field.camel_eq_name (isPlain_toGiven o) own
    · exact ⟨f, .inr ⟨named, name_mem_update o overrides f, rfl⟩⟩

theorem strayFaults_update (o : Options) (used : ∀ n ∈ overrides.names, isUsed overrides n) :
    strayFaults (o.toGiven.update overrides) = (renamed overrides).map fun f =>
      ⟨f.key.name, .extraForbidden⟩ := by
  have still : ∀ n ∈ overrides.names, isUsed (o.toGiven.update overrides) n := by
    intro n mem
    obtain ⟨f, ⟨named, rfl⟩ | ⟨other, -, rfl⟩⟩ := isUsed_iff.mp (used n mem)
    · exact isUsed_iff.mpr ⟨f, .inl ⟨mem_names_update.mpr (.inl named), rfl⟩⟩
    · exact (isUsed_name_iff o overrides f).mpr fun both => other both.1
  obtain ⟨new, names, inside⟩ := Given.names_update o.toGiven overrides
  have used : (new.filter fun n => !isUsed (o.toGiven.update overrides) n) = [] := by
    refine filter_eq_nil_iff.mpr fun n mem => ?_
    simp [still n (inside mem)]
  rw [strayFaults_eq, names, filter_append, used, append_nil, names_toGiven, filter_map, map_map,
    renamed]
  refine congrArg _ (filter_congr fun f _ => ?_)
  rw [Bool.eq_iff_iff, decide_eq_true_iff, Function.comp_apply, Bool.not_eq_true',
    ← Bool.not_eq_true,
    isUsed_name_iff, Decidable.not_not]

/-- Overrides that can be built from are put over a record, option by option, unless a second name
is among them: then the first name of that option is refused. -/
theorem merged_of_build (o : Options) (mapping : overrides.names.Nodup)
    (accepted : build overrides = .ok b) :
    (renamed overrides = [] → ∃ o', o.merged overrides = .ok o' ∧
      ∀ f : Field, f.get o' = if f.IsNamed overrides then f.get b else f.get o) ∧
    (renamed overrides ≠ [] →
      o.merged overrides =
        .error ((renamed overrides).map fun f => ⟨f.key.name, .extraForbidden⟩)) := by
  obtain ⟨each, used⟩ := build_eq_ok_iff.mp accepted
  have checked : ∀ f : Field, f.check (o.toGiven.update overrides) =
      ⟨if f.IsNamed overrides then f.get b else f.get o, []⟩ := by
    intro f
    have last : f.key.find? overrides.reverse = f.key.find? overrides := by
      rw [Key.find?, Given.lookup_reverse mapping, Given.lookup_reverse mapping, ← Key.find?]
    have own := each f
    rw [Field.check_update (isPlain_toGiven o), last, Field.check_toGiven]
    rw [Field.check] at own
    have named := f.isSome_find? overrides
    cases found : f.key.find? overrides with
    | some entry =>
      rw [found] at own named
      rw [if_pos (named.mp rfl), ← own]
    | none =>
      rw [found] at named
      rw [if_neg fun is => nomatch named.mpr is]
  have built := build_of_check checked
  rw [strayFaults_update o used] at built
  refine ⟨fun plain => ⟨_, ?_, fun f => get_ofFields _ f⟩, fun clash => ?_⟩
  · rw [merged, built, if_pos (map_eq_nil_iff.mpr plain)]
  · rw [merged, built, if_neg (clash ∘ map_eq_nil_iff.mp)]

theorem merged_of_build_later :
    later.names.Nodup ∧ build later = .ok { tabSize := 2, pretty := true } ∧ renamed later = [] ∧
    ∃ o', merged { escapeHtml := true } later = .ok o' ∧ ∀ f : Field, f.get o' =
      if f.IsNamed later then f.get { tabSize := 2, pretty := true }
        else f.get { escapeHtml := true } := by
  have mapping : later.names.Nodup := by decide
  have accepted : build later = .ok { tabSize := 2, pretty := true } := rfl
  have plain : renamed later = [] := by decide
  exact ⟨mapping, accepted, plain,
    (merged_of_build { escapeHtml := true } mapping accepted).1 plain⟩

/-- An option under its second name can be built from, but not put over a record. -/
theorem merged_second_name :
    build [("escapeHtml", .bool true)] = .ok { escapeHtml := true } ∧
    merged {} [("escapeHtml", .bool true)] = .error [⟨"escape_html", .extraForbidden⟩] :=
  ⟨rfl, rfl⟩

end MarkupTemplate.Options
