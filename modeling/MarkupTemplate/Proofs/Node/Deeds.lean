import MarkupTemplate.Proofs.Node.Guarded

/-!
# The order of temporaries

Two passes make temporaries: for the lines below output lines, and for the values of attributes. A
`Deed` is an event that shows which of its words come from the template and which from a pass. The
deeds for a tree bind each temporary once and mention it only from there on (`InOrder`). The capture
of the lines below an output comes behind all captures inside these lines, which have higher
numbers; the numbers of the second pass rise with the deeds.
-/

namespace MarkupTemplate

open List
open Host (isComplete)

/-! ## Deeds -/

namespace Attribute

/-- What stands for a value where values are joined. -/
inductive Part where
  | text (known : Text)
  /-- A code of the template. Its strings are closed, so other code may be put behind it. -/
  | code (source : Text) (complete : isComplete source)
  | captured (temp : Text)

namespace Part

def written : Part → Text
  | .text known => "_hamlc_markup(" ++ Text.quote known ++ ")"
  | .code source _ => "(" ++ source ++ ")"
  | .captured temp => temp

def code? : Part → Option Text
  | .code source _ => some source
  | .text _ | .captured _ => none

def temp? : Part → Option Text
  | .captured temp => some temp
  | .text _ | .code _ _ => none

end Part

end Attribute

/-- Something that a program does for a tree, with the reason for it. -/
inductive Deed where
  | run (source : Text)
  | start (source : Text)
  | put (escaped : Bool) (source : Text)
  /-- The output of a template between double braces. -/
  | fill (text : Text)
  | capture (temp : Text)
  /-- Captured lines get the name that the code above them knows. -/
  | hand (temp : Text)
  /-- The value of a code that decides about its attribute. -/
  | assign (temp source : Text)
  /-- The test whether an attribute has its own name as value. -/
  | ifTrue (temp : Text)
  /-- The test whether an attribute is left out. -/
  | ifFalse (temp : Text)
  | otherwise
  /-- The values of an attribute are joined. -/
  | join (temp delimiter : Text) (parts : List Attribute.Part)
  | ifAny (temp : Text)
  | putTemp (escaped : Bool) (temp : Text)

namespace Deed

def event : Deed → Event
  | .run source => .statement source
  | .start source => .statement (Control.suiteHeader source)
  | .put escaped source => .output (Node.escapedCode escaped none source)
  | .fill text => .output (Embedded.deferredCode text)
  | .capture temp => .capture temp
  | .hand temp => .statement (Control.captureName ++ " = " ++ temp)
  | .assign temp source => .statement (temp ++ " = " ++ source)
  | .ifTrue temp => .statement (Attribute.wordTest "if" temp Attribute.trueWords)
  | .ifFalse temp => .statement (Attribute.wordTest "elif" temp Attribute.falseWords)
  | .otherwise => .statement "else:"
  | .join temp delimiter parts =>
    .statement (Attribute.joinStatement temp delimiter (parts.map Attribute.Part.written))
  | .ifAny temp => .statement ("if " ++ temp ++ ":")
  | .putTemp escaped temp => .output (Node.escapedCode escaped none temp)

def codes : Deed → List Text
  | .run source | .start source | .put _ source | .assign _ source => [source]
  | .join _ _ parts => parts.filterMap Attribute.Part.code?
  | .fill _ | .capture _ | .hand _ | .ifTrue _ | .ifFalse _ => []
  | .otherwise | .ifAny _ | .putTemp _ _ => []

def binds : Deed → Option Text
  | .capture temp | .assign temp _ | .join temp _ _ => some temp
  | .run _ | .start _ | .put _ _ | .fill _ | .hand _ | .ifTrue _ | .ifFalse _ | .otherwise | .ifAny
    _
  | .putTemp _ _ => none

def uses : Deed → List Text
  | .hand temp | .ifTrue temp | .ifFalse temp | .ifAny temp | .putTemp _ temp => [temp]
  | .join _ _ parts => parts.filterMap Attribute.Part.temp?
  | .run _ | .start _ | .put _ _ | .fill _ | .capture _ | .assign _ _ | .otherwise => []

def bound (ds : List Deed) : List Text :=
  ds.filterMap binds

theorem bound_cons_none {d : Deed} (silent : d.binds = none) (ds : List Deed) :
    bound (d :: ds) = bound ds :=
  filterMap_cons_none silent

theorem bound_cons_some {d : Deed} {temp : Text} (binds : d.binds = some temp) (ds : List Deed) :
    bound (d :: ds) = temp :: bound ds :=
  filterMap_cons_some binds

theorem bound_append (ds ds' : List Deed) : bound (ds ++ ds') = bound ds ++ bound ds' :=
  filterMap_append

/-! ## Order -/

/-- Deeds that mention temporaries only if they are known, and bind other ones only. -/
inductive InOrder : (known : List Text) → List Deed → Prop where
  | nil (known : List Text) : InOrder known []
  | use {known : List Text} {d : Deed} {ds : List Deed} : d.binds = none → d.uses ⊆ known →
    InOrder known ds → InOrder known (d :: ds)
  | bind {known : List Text} {d : Deed} {ds : List Deed} {temp : Text} :
    d.binds = some temp → d.uses ⊆ known →
    temp ∉ known → InOrder (temp :: known) ds → InOrder known (d :: ds)

namespace InOrder

variable {known known' : List Text} {ds ds' : List Deed}

theorem not_mem (order : InOrder known ds) {temp : Text} (mem : temp ∈ bound ds) :
    temp ∉ known := by
  induction order with
  | nil => nomatch mem
  | use silent _ _ ih =>
    rw [bound_cons_none silent] at mem
    exact ih mem
  | bind binds _ other _ ih =>
    rw [bound_cons_some binds] at mem
    rcases mem_cons.mp mem with rfl | later
    · exact other
    · exact not_mem_of_not_mem_cons (ih later)

theorem nodup (order : InOrder known ds) : (bound ds).Nodup := by
  induction order with
  | nil => exact nodup_nil
  | use silent _ _ ih =>
    rw [bound_cons_none silent]
    exact ih
  | bind binds _ _ rest ih =>
    rw [bound_cons_some binds]
    exact nodup_cons.mpr ⟨fun again => rest.not_mem again (.head _), ih⟩

theorem uses_subset {front back : List Deed} {d : Deed}
    (order : InOrder known (front ++ d :: back)) : d.uses ⊆ bound front ++ known := by
  induction front generalizing known with
  | nil =>
    cases order with
    | use _ knows _ | bind _ knows _ _ => exact knows
  | cons first front ih =>
    cases order with
    | use silent _ rest =>
      rw [bound_cons_none silent]
      exact ih rest
    | bind binds _ _ rest =>
      rw [bound_cons_some binds]
      exact fun temp mem => perm_middle.mem_iff.mp (ih rest mem)

theorem mono (order : InOrder known ds) (more : known ⊆ known')
    (apart : ∀ temp ∈ bound ds, temp ∉ known') : InOrder known' ds := by
  induction order generalizing known' with
  | nil => exact .nil _
  | use silent knows _ ih =>
    rw [bound_cons_none silent] at apart
    exact .use silent (Subset.trans knows more) (ih more apart)
  | bind binds knows _ rest ih =>
    rw [bound_cons_some binds, forall_mem_cons] at apart
    refine .bind binds (Subset.trans knows more) apart.1 (ih (cons_subset_cons _ more) ?_)
    intro temp later
    exact not_mem_cons_of_ne_of_not_mem
      (fun same => rest.not_mem later (same ▸ .head _)) (apart.2 temp later)

theorem append (first : InOrder known ds) (rest : InOrder known' ds')
    (knows : known' ⊆ bound ds ++ known)
    (apart : ∀ temp ∈ bound ds', temp ∉ bound ds ++ known) : InOrder known (ds ++ ds') := by
  induction first with
  | nil => exact rest.mono knows apart
  | use silent uses _ ih =>
    rw [bound_cons_none silent] at knows apart
    exact .use silent uses (ih knows apart)
  | bind binds uses other _ ih =>
    rw [bound_cons_some binds] at knows apart
    refine .bind binds uses other (ih ?_ ?_)
    · exact fun temp mem => perm_middle.mem_iff.mpr (knows mem)
    · exact fun temp mem found => apart temp mem (perm_middle.mem_iff.mp found)

end InOrder

end Deed

/-! ## Names of temporaries -/

variable {m n : Nat} {name : Text}

theorem Text.ofNat_injective (same : Text.ofNat m = Text.ofNat n) : m = n := by
  calc m
    _ = Nat.ofDigitChars 10 (Nat.toDigits 10 m) 0 := Nat.ofDigitChars_ten_toDigits.symm
    _ = Nat.ofDigitChars 10 (Nat.toDigits 10 n) 0 := congrArg (Nat.ofDigitChars 10 · 0) same
    _ = n := Nat.ofDigitChars_ten_toDigits

theorem Control.tempName_injective (same : tempName m = tempName n) : m = n :=
  Text.ofNat_injective (append_cancel_left same)

theorem Attribute.tempName_injective (same : tempName m = tempName n) : m = n :=
  Text.ofNat_injective (append_cancel_left same)

/-! Names of temporaries differ from each other and from other reserved names in their first ten
characters. -/

theorem controlTemp_ne (other : name.take 10 ≠ "_hamlc_con") (n : Nat) :
    Control.tempName n ≠ name := by
  rintro rfl
  exact other rfl

theorem attributeTemp_ne (other : name.take 10 ≠ "_hamlc_cod") (n : Nat) :
    Attribute.tempName n ≠ name := by
  rintro rfl
  exact other rfl

theorem tempName_ne (m n : Nat) : Control.tempName m ≠ Attribute.tempName n := by
  refine controlTemp_ne ?_ m
  show "_hamlc_cod".toList ≠ "_hamlc_con".toList
  decide

/-- A temporary with a number above `used` up to `used'` for the value of an attribute, or above
`lo` up to `hi` for captured lines. -/
inductive IsTemp (used used' lo hi : Nat) : Text → Prop where
  | value {n : Nat} : used < n → n ≤ used' → IsTemp used used' lo hi (Attribute.tempName n)
  | lines {n : Nat} : lo < n → n ≤ hi → IsTemp used used' lo hi (Control.tempName n)

namespace IsTemp

variable {used mid used' lo hi lo' hi' : Nat} {temp : Text}

theorem mono {first last low high : Nat} (here : IsTemp used used' lo hi temp)
    (values : first ≤ used ∧ used' ≤ last)
    (lines : low ≤ lo ∧ hi ≤ high) : IsTemp first last low high temp := by
  cases here with
  | value above upTo => exact .value (by omega) (by omega)
  | lines above upTo => exact .lines (by omega) (by omega)

theorem apart (here : IsTemp used mid lo hi temp) (there : IsTemp mid used' lo' hi' temp)
    (lines : hi ≤ lo' ∨ hi' ≤ lo) : False := by
  generalize same : temp = temp' at there
  cases here with
  | value _ upTo =>
    cases there with
    | value above _ =>
      have := Attribute.tempName_injective same
      omega
    | lines => exact tempName_ne _ _ same.symm
  | lines above upTo =>
    cases there with
    | value => exact tempName_ne _ _ same
    | lines above' upTo' =>
      have := Control.tempName_injective same
      omega

theorem isName (here : IsTemp used used' lo hi temp) : Host.IsName temp := by
  cases here with
  | value => exact Host.isName_attributeTemp _
  | lines => exact Host.isName_controlTemp _

theorem ne (here : IsTemp used used' lo hi temp) :
    Host.isReserved temp ∧ temp ≠ Program.buffer ∧ temp ≠ Program.result ∧
    temp ∉ Host.helperNames := by
  have helpers : ∀ name ∈ Host.helperNames,
      name.take 10 ≠ "_hamlc_cod" ∧ name.take 10 ≠ "_hamlc_con" := by decide
  cases here with
  | @value n =>
    exact ⟨rfl, attributeTemp_ne (by decide) n, attributeTemp_ne (by decide) n,
      fun mem => (helpers _ mem).1 rfl⟩
  | @lines n =>
    exact ⟨rfl, controlTemp_ne (by decide) n, controlTemp_ne (by decide) n,
      fun mem => (helpers _ mem).2 rfl⟩

end IsTemp

/-! ## Deeds for trees -/

open Deed (InOrder bound)

/-- Deeds in order that have their codes from `codes`, and bind temporaries with numbers above
`used` up to `used'` for values of attributes and above `lo` up to `hi` for captured lines. -/
structure Timely (known codes : List Text) (used used' lo hi : Nat) (ds : List Deed) : Prop where
  inOrder : InOrder known ds
  codes : (ds.flatMap Deed.codes).Subperm codes
  temps : ∀ temp ∈ bound ds, IsTemp used used' lo hi temp
  le : used ≤ used'

variable {known codes codes' : List Text} {used mid used' lo hi lo' hi' low high : Nat}
  {ds ds' : List Deed}

theorem Timely.append_within (first : Timely [] codes used mid lo hi ds)
    (rest : Timely known codes' mid used' lo' hi' ds') (knows : known ⊆ bound ds)
    (apart : hi ≤ lo' ∨ hi' ≤ lo)
    (within : low ≤ lo ∧ hi ≤ high) (within' : low ≤ lo' ∧ hi' ≤ high) :
    Timely [] (codes ++ codes') used used' low high (ds ++ ds') where
  inOrder := by
    refine first.inOrder.append rest.inOrder (by rw [append_nil]; exact knows) ?_
    intro temp there here
    rw [append_nil] at here
    exact (first.temps temp here).apart (rest.temps temp there) apart
  codes := by
    rw [flatMap_append]
    exact first.codes.append rest.codes
  temps := by
    rw [Deed.bound_append, forall_mem_append]
    have le := first.le
    have le' := rest.le
    exact ⟨fun temp here => (first.temps temp here).mono ⟨le_rfl, le'⟩ within,
      fun temp there => (rest.temps temp there).mono ⟨le, le_rfl⟩ within'⟩
  le := Nat.le_trans first.le rest.le

theorem Timely.append (first : Timely [] codes used mid lo lo ds)
    (rest : Timely known codes' mid used' lo lo ds')
    (knows : known ⊆ bound ds) : Timely [] (codes ++ codes') used used' lo lo (ds ++ ds') :=
  first.append_within rest knows (by omega) (by omega) (by omega)

/-- Events that are seen of timely deeds. -/
def Told (codes : List Text) (used used' lo hi : Nat) (es : List (Origin × Event)) : Prop :=
  ∃ ds : List Deed, es.map Prod.snd = ds.map Deed.event ∧ Timely [] codes used used' lo hi ds

namespace Told

variable {es es' : List (Origin × Event)} {origin : Origin}

theorem nil (used lo : Nat) : Told [] used used lo lo [] :=
  ⟨[], rfl, .nil _, .refl _, nofun, le_rfl⟩

theorem one {d : Deed} (silent : d.binds = none) (still : d.uses = []) (used lo : Nat) :
    Told d.codes used used lo lo [(origin, d.event)] := by
  refine ⟨[d], rfl, .use silent (by rw [still]; exact nil_subset _) (.nil _), ?_, ?_, le_rfl⟩
  · rw [flatMap_singleton]
  · rw [Deed.bound_cons_none silent]
    nofun

theorem fewer (told : Told codes used used' lo hi es) (fewer : codes.Subperm codes') :
    Told codes' used used' lo hi es := by
  obtain ⟨ds, same, timely⟩ := told
  exact ⟨ds, same, timely.inOrder, timely.codes.trans fewer, timely.temps, timely.le⟩

theorem append_within (first : Told codes used mid lo hi es)
    (rest : Told codes' mid used' lo' hi' es')
    (apart : hi ≤ lo' ∨ hi' ≤ lo) (within : low ≤ lo ∧ hi ≤ high)
    (within' : low ≤ lo' ∧ hi' ≤ high) :
    Told (codes ++ codes') used used' low high (es ++ es') := by
  obtain ⟨ds, same, timely⟩ := first
  obtain ⟨ds', same', timely'⟩ := rest
  refine ⟨ds ++ ds', ?_, timely.append_within timely' (nil_subset _) apart within within'⟩
  rw [map_append, map_append, same, same']

theorem append (first : Told codes used mid lo lo es) (rest : Told codes' mid used' lo lo es') :
    Told (codes ++ codes') used used' lo lo (es ++ es') :=
  first.append_within rest (by omega) (by omega) (by omega)

theorem flatMap {α : Type} {f : α → List (Origin × Event)} {g : α → List Text} {as : List α}
    (each : ∀ a ∈ as, Told (g a) used used lo lo (f a)) :
    Told (as.flatMap g) used used lo lo (as.flatMap f) := by
  induction as with
  | nil => exact nil used lo
  | cons a as ih =>
    rw [forall_mem_cons] at each
    exact each.1.append (ih each.2)

end Told

/-! ### Values -/

open Node (StatedText StatedValue Stated eventsBy valueCodes escapedCode)

variable {raw byDefault : Bool} {on? : Option Bool} {origin : Origin}

section

variable (byDefault : Bool) (on? : Option Bool) (origin : Origin) (used lo : Nat)

theorem Told.put (source : Text) :
    Told [source] used used lo lo [(origin, .output (escapedCode byDefault on? source))] :=
  Told.one (d := .put (on?.getD byDefault) source) rfl rfl used lo

theorem Told.putOut (escaped : Bool)
    (source : Text) :
    Told [source] used used lo lo
      (eventsBy (escapedCode byDefault) on? origin (Node.putOut escaped source)) := by
  cases escaped with
  | true => exact .put byDefault on? origin used lo source
  | false => exact .put byDefault (some false) origin used lo source

end

theorem Node.StatedText.told {v : Node} (stated : StatedText raw v) (byDefault : Bool)
    (on? : Option Bool) (origin : Origin) (used lo : Nat) :
    Told v.valueCodes used used lo lo (eventsBy (escapedCode byDefault) on? origin v) := by
  induction stated with
  | static =>
    rw [Node.eventsBy_leaf (by simp) (by simp)]
    exact .nil used lo
  | putOut escaped source =>
    rw [valueCodes_putOut]
    exact .putOut byDefault on? origin used lo escaped source
  | seq _ ih =>
    rw [Node.eventsBy_seq, valueCodes_seq]
    exact .flatMap ih

theorem Node.StatedValue.told {v : Node} (stated : StatedValue raw v) (byDefault : Bool)
    (on? : Option Bool) (origin : Origin) (used lo : Nat) :
    Told v.valueCodes used used lo lo (eventsBy (escapedCode byDefault) on? origin v) := by
  cases stated with
  | static text =>
    rw [Node.eventsBy_static]
    exact .nil used lo
  | text stated =>
    rw [Node.eventsBy_escape, valueCodes_frame]
    exact stated.told byDefault (some true) origin used lo
  | code =>
    rw [Node.eventsBy_leaf (by simp) (by simp)]
    exact (Told.nil used lo).fewer nil_subperm

namespace Attribute

theorem told_decided (name : Text) (escaped : Bool) (source : Text) (used lo : Nat) :
    Told [source] used (used + 1) lo lo
      (eventsBy (escapedCode byDefault) on? origin
        (decided name escaped source (tempName (used + 1)))) := by
  let temp := tempName (used + 1)
  refine ⟨[.assign temp source, .ifTrue temp, .ifFalse temp, .otherwise, .putTemp escaped temp], ?_,
    ?_⟩
  · rw [Node.eventsBy_decided]
    rfl
  · have here : [temp] ⊆ [temp] := Subset.refl _
    refine ⟨?_, .refl _, ?_, Nat.le_succ used⟩
    · refine .bind rfl (nil_subset _) not_mem_nil ?_
      exact .use rfl here (.use rfl here (.use rfl (nil_subset _) (.use rfl here (.nil _))))
    · exact forall_mem_singleton.mpr (.value (Nat.lt_succ_self used) le_rfl)

theorem told_single (name : Text) {v : Node} (stated : StatedValue raw v) (used lo : Nat) :
    Told v.valueCodes used (single name used v).2 lo lo
      (eventsBy (escapedCode byDefault) on? origin (single name used v).1) := by
  cases stated with
  | static text => exact (@StatedValue.static raw text).told byDefault on? origin used lo
  | text stated => exact (StatedValue.text stated).told byDefault on? origin used lo
  | @code source _ =>
    unfold single
    simp only
    split
    · rw [Node.eventsBy_frame (by simp) (by simp), Node.eventsBy_static]
      exact (Told.nil used lo).fewer (nil_subperm)
    · split
      · rw [Node.eventsBy_seq]
        exact (Told.nil used lo).fewer (nil_subperm)
      · exact told_decided name true source used lo

variable {values : List Node}

theorem told_singles (name : Text) (each : ∀ v ∈ values, StatedValue raw v) (used lo : Nat) :
    Told (values.flatMap valueCodes) used (singles name used values).2 lo lo
      ((singles name used values).1.flatMap (eventsBy (escapedCode byDefault) on? origin)) := by
  induction values generalizing used with
  | nil => exact .nil used lo
  | cons v values ih =>
    rw [forall_mem_cons] at each
    exact (told_single name each.1 used lo).append (ih each.2 _)

/-- The captures of values come in front of the statement that joins them. The codes that are not
captured are those of its parts. -/
theorem timely_mergeParts (each : ∀ v ∈ values, StatedValue raw v) (byDefault : Bool)
    (on? : Option Bool) (origin : Origin) (used lo : Nat) : ∃ (ds : List Deed) (parts : List Part),
      ((mergeParts used values).1.flatMap (eventsBy (escapedCode byDefault) on? origin)).map
        Prod.snd = ds.map Deed.event ∧
      (mergeParts used values).2.1 = parts.map Part.written ∧
      parts.filterMap Part.temp? ⊆ bound ds ∧
      (ds.flatMap Deed.codes ++ parts.filterMap Part.code?).Subperm (values.flatMap valueCodes) ∧
      Timely [] (ds.flatMap Deed.codes) used (mergeParts used values).2.2 lo lo ds := by
  induction values generalizing used with
  | nil =>
    exact ⟨[], [], rfl, rfl, nil_subset _, .refl _, .nil _, .refl _, nofun, le_rfl⟩
  | cons v values ih =>
    rw [forall_mem_cons] at each
    simp only [mergeParts]
    split
    next text _ =>
      obtain ⟨ds, parts, same, written, temps, codes, timely⟩ := ih each.2 used
      refine ⟨ds, .text text :: parts, same, by rw [written]; rfl, temps, ?_, timely⟩
      exact codes.trans (sublist_append_right _ _).subperm
    next source _ =>
      obtain ⟨ds, parts, same, written, temps, codes, timely⟩ := ih each.2 used
      cases each.1 with
      | code complete =>
        refine ⟨ds, .code source complete :: parts, same, by rw [written]; rfl, temps, ?_, timely⟩
        have first : (Part.code source complete).code? = some source := rfl
        rw [filterMap_cons_some first, flatMap_cons]
        exact perm_middle.subperm.trans ((subperm_cons source).mpr codes)
    next =>
      let temp := tempName (used + 1)
      obtain ⟨inside, sameInside, timelyInside⟩ := each.1.told byDefault none origin used lo
      obtain ⟨ds, parts, same, written, temps, codes, timely⟩ := ih each.2 (used + 1)
      have capture : Timely [] [] used (used + 1) lo lo [.capture temp] :=
        ⟨.bind rfl (nil_subset _) not_mem_nil (.nil _), .refl _,
          forall_mem_singleton.mpr (.value (Nat.lt_succ_self used) le_rfl), Nat.le_succ used⟩
      have all := (timelyInside.append capture (nil_subset _)).append timely (nil_subset _)
      refine ⟨inside ++ [.capture temp] ++ ds, .captured temp :: parts, ?_, by rw [written]; rfl,
        ?_, ?_,
        { all with codes := .refl _ }⟩
      · rw [flatMap_cons, Node.eventsBy_capture, map_append, map_append, sameInside, same,
          map_append, map_append]
        rfl
      · have first : (Part.captured temp).temp? = some temp := rfl
        rw [Deed.bound_append, Deed.bound_append, filterMap_cons_some first]
        refine cons_subset.mpr ⟨?_, Subset.trans temps (subset_append_right _ _)⟩
        exact mem_append_left _ (mem_append_right _ (mem_singleton_self temp))
      · rw [flatMap_append, flatMap_append, flatMap_cons, filterMap_cons_none rfl,
          append_assoc, append_assoc]
        exact timelyInside.codes.append codes

section

variable (name delimiter : Text) (each : ∀ v ∈ values, StatedValue raw v) (used lo : Nat)

include each

theorem told_joined :
    Told (values.flatMap valueCodes) used (joined name delimiter used values).2 lo lo
      (eventsBy (escapedCode byDefault) on? origin (joined name delimiter used values).1) := by
  obtain ⟨ds, parts, same, written, temps, codes, timely⟩ :=
    timely_mergeParts each byDefault on? origin used lo
  simp only [joined]
  generalize mergeParts used values = found at same written timely
  obtain ⟨captures, texts, last⟩ := found
  let temp := tempName (last + 1)
  have here : [temp] ⊆ temp :: parts.filterMap Part.temp? := cons_subset_cons _ (nil_subset _)
  have isTemp : IsTemp last (last + 1) lo lo temp := .value (Nat.lt_succ_self last) le_rfl
  have tail : Timely (parts.filterMap Part.temp?) (parts.filterMap Part.code?) last (last + 1) lo lo
      [.join temp delimiter parts, .ifAny temp, .putTemp false temp] := by
    refine ⟨?_, ?_, ?_, Nat.le_succ last⟩
    · refine .bind rfl (Subset.refl _) ?_ (.use rfl here (.use rfl here (.nil _)))
      exact fun before => (timely.temps temp (temps before)).apart isTemp (.inl (Nat.le_refl lo))
    · rw [flatMap_cons]
      exact append_nil _ ▸ .refl _
    · exact forall_mem_singleton.mpr isTemp
  have all := timely.append tail temps
  refine ⟨_, ?_, { all with codes := all.codes.trans codes }⟩
  rw [Node.eventsBy_seq, flatMap_append, map_append, same, map_append]
  congr 1
  simp only [flatMap_cons, flatMap_nil, Node.eventsBy_code, Node.eventsBy_escape,
    Node.eventsBy_frame, Node.eventsBy_dynamic, append_nil, nil_append,
    cons_append, map_cons, map_nil, ne_eq, reduceCtorEq, not_false_eq_true, implies_true]
  rw [Deed.event, ← written]
  rfl

theorem told_merge :
    Told (values.flatMap valueCodes) used (merge name delimiter used values).2 lo lo
      (eventsBy (escapedCode byDefault) on? origin (merge name delimiter used values).1) := by
  unfold merge
  split
  · have nothing : Told (values.flatMap valueCodes) used used lo lo [] :=
      (Told.nil used lo).fewer nil_subperm
    simp only
    split
    · rw [Node.eventsBy_seq]
      exact nothing
    · rw [Node.eventsBy_frame (by simp) (by simp), Node.eventsBy_static]
      exact nothing
  · exact told_joined name delimiter each used lo

end

theorem told_mergeGroups (delimiter? : Text → Option Text) {found : List (Text × List Node)}
    (each : ∀ group ∈ found, ∀ v ∈ group.2, StatedValue raw v) (used lo : Nat) :
    Told (found.flatMap fun group => group.2.flatMap valueCodes) used
      (mergeGroups delimiter? used found).2 lo lo
      ((mergeGroups delimiter? used found).1.flatMap
        (eventsBy (escapedCode byDefault) on? origin)) := by
  induction found generalizing used with
  | nil => exact .nil used lo
  | cons group found ih =>
    obtain ⟨name, values⟩ := group
    rw [forall_mem_cons] at each
    simp only [mergeGroups]
    rw [flatMap_append, flatMap_cons]
    refine Told.append ?_ (ih each.2 _)
    cases delimiter? name with
    | some delimiter =>
      simp only [flatMap_singleton]
      exact told_merge name delimiter each.1 used lo
    | none => exact told_singles name each.1 used lo

/-- Merging takes the values of each name together, so their codes are moved. -/
theorem told_mergeList (used : Nat) (o : Options) {entries : List Node}
    (each : ∀ e ∈ entries, IsEntryOf (StatedValue raw) e) :
    ∃ r, mergeList o used entries = .ok r ∧ ∀ lo byDefault on? origin,
      Told (entries.flatMap valueCodes) used r.2 lo lo
        (r.1.flatMap (eventsBy (escapedCode byDefault) on? origin)) := by
  obtain ⟨es, read, each⟩ := Entry.ofNodes_eq each
  have moved : ((groups es).flatMap fun group => group.2.flatMap valueCodes).Perm
      (entries.flatMap valueCodes) := by
    have values := (perm_groups (fun _ v => v) es).flatMap_right valueCodes
    simp only [map_id', flatMap_assoc] at values
    refine values.trans ?_
    rw [← Entry.map_node read, flatMap_map, flatMap_map]
    refine .of_eq (congrArg (es.flatMap ·) (funext fun e => ?_))
    unfold Entry.node
    split <;> exact (Node.valueCodes_frame _ _).symm
  refine ⟨mergeEntries o used es, by rw [mergeList, read]; rfl, ?_⟩
  intro lo byDefault on? origin
  have grouped : ∀ group ∈ groups es, ∀ v ∈ group.2, StatedValue raw v := by
    intro group found v inside
    obtain ⟨e, mem, _, rfl⟩ := mem_groups found inside
    exact each e mem
  exact (told_mergeGroups _ grouped used lo).fewer moved.subperm

end Attribute

/-! ### Trees -/

/-- A capture is bound and handed out behind what is inside, and the line it is for comes last. -/
theorem Told.captured {body : Node} (upTo : lo + 1 ≤ hi) (byDefault : Bool) (on? : Option Bool)
    (origin : Origin) (escaped : Bool) (source : Text)
    (told : Told codes used used' (lo + 1) hi (eventsBy (escapedCode byDefault) none origin body)) :
    Told (source :: codes) used used' lo hi (eventsBy (escapedCode byDefault) on? origin
      (Node.captured escaped source (Control.tempName (lo + 1)) body)) := by
  let temp := Control.tempName (lo + 1)
  have bound : Told [] used' used' lo (lo + 1)
      [(origin, (Deed.capture temp).event), (origin, (Deed.hand temp).event)] :=
    ⟨[.capture temp, .hand temp], rfl,
      .bind rfl (nil_subset _) not_mem_nil (.use rfl (Subset.refl _) (.nil _)), .refl _,
      forall_mem_singleton.mpr (.lines (Nat.lt_succ_self lo) le_rfl), le_rfl⟩
  have out := Told.putOut byDefault on? origin used' lo escaped source
  -- The number of the capture is below those inside it.
  have both := told.append_within bound (.inr le_rfl)
    ⟨Nat.le_succ lo, Nat.le_refl hi⟩ ⟨Nat.le_refl lo, upTo⟩
  have all := both.append_within out (.inr le_rfl) ⟨Nat.le_refl lo, Nat.le_refl hi⟩
    ⟨Nat.le_refl lo, by omega⟩
  rw [Node.captured, Node.eventsBy_seq, flatMap_cons, flatMap_cons, flatMap_singleton,
    Node.eventsBy_capture, Node.eventsBy_code]
  rw [append_nil] at all
  refine Eq.mp ?_ (all.fewer (perm_append_singleton source codes).subperm)
  simp only [append_assoc]
  rfl

/-- The events of a merged tree are seen of timely deeds, whatever its codes mention. -/
theorem Node.Stated.told {n : Node} (stated : Stated raw codes lo hi n) (o : Options) (used : Nat) :
    Yields (fun r => ∀ byDefault on? origin,
        Told codes used r.2 lo hi (eventsBy (escapedCode byDefault) on? origin r.1))
      (fun _ => True) (n.attributed o used) := by
  induction stated generalizing used with
  | @leaf m l silent =>
    have same : (Node.leaf l).attributed o used = .ok (.leaf l, used) := by
      cases l with
      | unknown => cases silent
      | _ => rfl
    rw [same]
    intro byDefault on? origin
    rw [eventsBy_silent silent]
    exact .nil used m
  | statement m source =>
    intro byDefault on? origin
    rw [Node.eventsBy_code]
    exact Told.one (d := .run source) rfl rfl used m
  | suite m source =>
    intro byDefault on? origin
    rw [Node.eventsBy_code]
    exact Told.one (d := .start source) rfl rfl used m
  | putOut m escaped source =>
    have same : (Node.putOut escaped source).attributed o used = .ok (Node.putOut escaped source,
        used) := by
      cases escaped with
      | true | false => rfl
    rw [same]
    exact fun byDefault on? origin => .putOut byDefault on? origin used m escaped source
  | deferred m text =>
    intro byDefault on? origin
    rw [Node.eventsBy_escape, Node.eventsBy_dynamic]
    exact Told.one (d := .fill text) rfl rfl used m
  | @frame _ _ _ f inner silent _ _ ih =>
    refine (ih used).bind ?_
    intro r told byDefault on? origin
    cases f with
    | escape on =>
      rw [Node.eventsBy_escape]
      exact told byDefault (some on) origin
    | comment | condComment | trim | block =>
      rw [Node.eventsBy_frame (by simp) (by simp)]
      exact told byDefault on? origin
    | _ => cases silent
  | @captured codes lo hi escaped source body _ inner ih =>
    have upTo := inner.le
    rw [attributed_captured]
    refine (ih used).bind ?_
    rintro ⟨body', used'⟩ told byDefault on? origin
    exact (told byDefault none origin).captured upTo byDefault on? origin escaped source
  | nil m =>
    intro byDefault on? origin
    rw [Node.eventsBy_seq]
    exact .nil used m
  | @cons _ _ lo mid hi _ _ first second ihFirst ihRest =>
    have between := first.le
    have upTo := second.le
    rw [attributed_cons]
    refine (ihFirst used).bind ?_
    rintro ⟨first', used'⟩ told
    refine (ihRest used').of_bind.bind ?_
    rintro ⟨rest, last⟩ others byDefault on? origin
    have others := others byDefault on? origin
    rw [Node.eventsBy_seq] at others
    rw [Node.eventsBy_seq, flatMap_cons]
    exact (told byDefault on? origin).append_within others (by omega) (by omega) (by omega)
  | closed m entries within =>
    obtain ⟨r, same, told⟩ := Attribute.told_mergeList used o entries
    rw [Node.attributed, same]
    intro byDefault on? origin
    rw [Node.eventsBy_closed]
    exact (told m byDefault on? .attribute).fewer within
  | @tag _ _ lo hi _ _ _ entries within inner ih =>
    have upTo := inner.le
    obtain ⟨r, same, told⟩ := Attribute.told_mergeList used o entries
    rw [Node.attributed, same]
    refine (ih r.2).bind ?_
    intro body inside byDefault on? origin
    rw [Node.eventsBy_tag]
    exact ((told lo byDefault on? .attribute).fewer within).append_within
      (inside byDefault on? origin)
      (by omega) (by omega) (by omega)

end MarkupTemplate
