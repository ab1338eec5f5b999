import MarkupTemplate.Proofs.Node.Written

/-!
# What a tree does

Apart from static text and line marks, a tree holds statements, captures and outputs: its events. An
event comes from an attribute if it stands in the attribute list of a tag. Writing markup as text,
applying escaping and making a tree smaller neither add nor drop nor move an event. Escaping changes
the codes of outputs, each by the switch around it, and markup forgets the origins.
-/

namespace MarkupTemplate

open List
open Markup (breakNodes)

/-- Something that a program does for a tree. -/
inductive Event where
  | statement (source : Text)
  | capture (name : Text)
  | output (source : Text)
deriving DecidableEq, Repr

inductive Origin where
  | content
  | attribute
deriving DecidableEq, Repr

namespace Node

mutual

/-- The events of a tree with their origins. `put` gives the code of an output under a switch. -/
def eventsBy (put : Option Bool → Text → Text) : Option Bool → Origin → Node → List (Origin × Event)
  | on?, origin, .leaf (.dynamic source) => [(origin, .output (put on? source))]
  | _, origin, .leaf (.code source) => [(origin, .statement source)]
  | _, _, .leaf _ => []
  | _, origin, .frame (.escape on) inner => eventsBy put (some on) origin inner
  | _, origin, .frame (.capture name) body =>
    eventsBy put none origin body ++ [(origin, .capture name)]
  | on?, origin, .frame _ inner => eventsBy put on? origin inner
  | on?, origin, .group .seq children => eventsOfBy put on? origin children
  | on?, _, .group .attrs entries => eventsOfBy put on? .attribute entries
  | on?, _, .tag _ entries none => eventsOfBy put on? .attribute entries
  | on?, origin, .tag _ entries (some body) =>
    eventsOfBy put on? .attribute entries ++ eventsBy put on? origin body

def eventsOfBy (put : Option Bool → Text → Text) :
    Option Bool → Origin → List Node → List (Origin × Event)
  | _, _, [] => []
  | on?, origin, n :: ns => eventsBy put on? origin n ++ eventsOfBy put on? origin ns

end

def events (n : Node) : List Event :=
  (n.eventsBy (fun _ source => source) none .content).map Prod.snd

def escapedEvents (byDefault : Bool) (n : Node) : List (Origin × Event) :=
  n.eventsBy (escapedCode byDefault) none .content

variable {put : Option Bool → Text → Text} {on? : Option Bool} {origin : Origin}

theorem eventsOfBy_eq (ns : List Node) :
    eventsOfBy put on? origin ns = ns.flatMap (eventsBy put on? origin) := by
  induction ns with
  | nil => rw [eventsOfBy]; rfl
  | cons n ns ih => rw [eventsOfBy, ih, flatMap_cons]

theorem eventsBy_leaf {l : Leaf} (noOutput : ∀ source, l ≠ .dynamic source)
    (noStatement : ∀ source, l ≠ .code source) : eventsBy put on? origin (.leaf l) = [] := by
  rw [eventsBy]
  · exact noOutput
  · exact noStatement

@[simp] theorem eventsBy_static (text : Text) : eventsBy put on? origin (.static text) = [] :=
  eventsBy_leaf nofun nofun

@[simp] theorem eventsBy_newline : eventsBy put on? origin .newline = [] :=
  eventsBy_leaf nofun nofun

@[simp] theorem eventsBy_dynamic (source : Text) :
    eventsBy put on? origin (.dynamic source) = [(origin, .output (put on? source))] :=
  rfl

@[simp] theorem eventsBy_code (source : Text) :
    eventsBy put on? origin (.code source) = [(origin, .statement source)] :=
  rfl

@[simp] theorem eventsBy_escape (on : Bool) (inner : Node) :
    eventsBy put on? origin (.escape on inner) = eventsBy put (some on) origin inner :=
  rfl

@[simp] theorem eventsBy_capture (name : Text) (body : Node) :
    eventsBy put on? origin (.capture name body) = eventsBy put none origin body ++
      [(origin, .capture name)] :=
  rfl

theorem eventsBy_frame {f : Frame} (noSwitch : ∀ on, f ≠ .escape on)
    (noCapture : ∀ name, f ≠ .capture name)
    (inner : Node) : eventsBy put on? origin (.frame f inner) = eventsBy put on? origin inner := by
  rw [eventsBy]
  · exact noSwitch
  · exact noCapture

@[simp] theorem eventsBy_seq (children : List Node) :
    eventsBy put on? origin (.seq children) = children.flatMap (eventsBy put on? origin) := by
  rw [eventsBy, eventsOfBy_eq]

@[simp] theorem eventsBy_attrs (entries : List Node) :
    eventsBy put on? origin (.attrs entries) = entries.flatMap (eventsBy put on? .attribute) := by
  rw [eventsBy, eventsOfBy_eq]

@[simp] theorem eventsBy_closed (name : Text) (entries : List Node) :
    eventsBy put on? origin (.tag name entries none) =
      entries.flatMap (eventsBy put on? .attribute) := by
  rw [eventsBy, eventsOfBy_eq]

@[simp] theorem eventsBy_tag (name : Text) (entries : List Node) (body : Node) :
    eventsBy put on? origin (.tag name entries (some body)) =
      entries.flatMap (eventsBy put on? .attribute) ++ eventsBy put on? origin body := by
  rw [eventsBy, eventsOfBy_eq]

/-! ## Escaping -/

theorem events_escaped (byDefault : Bool) (n : Node) (on? on' : Option Bool) (origin : Origin) :
    Yields (fun n' => eventsBy (fun _ source => source) on' origin n' =
        eventsBy (escapedCode byDefault) on? origin n) (fun _ => True)
        (n.escaped byDefault on?) := by
  induction n using Node.induction generalizing on? on' origin with
  | leaf l =>
    cases l with
    | unknown => trivial
    | dynamic source => simp only [escaped, Yields, eventsBy_dynamic]
    | code source => simp only [escaped, Yields, eventsBy_code]
    | static text => simp only [escaped, Yields, eventsBy_static]
    | _ => exact eventsBy_leaf (by simp) (by simp)
  | frame f inner ih =>
    cases f with
    | escape on =>
      rw [escaped, eventsBy_escape]
      exact ih (some on) on' origin
    | capture name =>
      rw [escaped, eventsBy_capture]
      refine (ih none none origin).bind ?_
      intro body same
      simp only [pure, Except.pure, Yields, eventsBy_capture, same]
    | _ =>
      rw [eventsBy_frame (by simp) (by simp)]
      refine (ih on? on' origin).bind ?_
      intro inner same
      simp only [pure, Except.pure, Yields]
      rw [eventsBy_frame (by simp) (by simp), same]
  | group g children ih =>
    rw [escaped, escapedAll_eq]
    cases g with
    | seq =>
      refine (Yields.mapM fun n mem => ih n mem on? on' origin).bind ?_
      intro children each
      simp only [pure, Except.pure, Yields, eventsBy_seq, flatMap_eq_of_forall₂ each]
    | attrs =>
      refine (Yields.mapM fun n mem => ih n mem on? on' .attribute).bind ?_
      intro children each
      simp only [pure, Except.pure, Yields, eventsBy_attrs, flatMap_eq_of_forall₂ each]
  | closed name entries ih =>
    rw [escaped, escapedAll_eq]
    refine (Yields.mapM fun n mem => ih n mem on? on' .attribute).bind ?_
    intro entries each
    simp only [pure, Except.pure, Yields, eventsBy_closed, flatMap_eq_of_forall₂ each]
  | tag name entries body ihEntries ihBody =>
    rw [escaped, escapedAll_eq]
    refine (Yields.mapM fun n mem => ihEntries n mem on? on' .attribute).bind ?_
    intro entries each
    refine (ihBody on? on' origin).bind ?_
    intro body same
    simp only [pure, Except.pure, Yields, eventsBy_tag, flatMap_eq_of_forall₂ each, same]

/-! ## Flat trees -/

/-- Two trees with the same events under every switch. -/
def SameEvents (n n' : Node) : Prop :=
  ∀ put on? origin, eventsBy put on? origin n' = eventsBy put on? origin n

namespace SameEvents

theorem refl (n : Node) : SameEvents n n :=
  fun _ _ _ => rfl

variable {ns ns' : List Node} {n n' : Node}

theorem flatMap_eq (each : Forall₂ SameEvents ns ns') :
    ns'.flatMap (eventsBy put on? origin) = ns.flatMap (eventsBy put on? origin) :=
  flatMap_eq_of_forall₂ (each.imp fun _ _ same => same put on? origin)

theorem frame (f : Frame) (same : SameEvents n n') : SameEvents (.frame f n) (.frame f n') := by
  intro put on? origin
  cases f with
  | escape on => rw [eventsBy_escape, eventsBy_escape, same]
  | capture name => rw [eventsBy_capture, eventsBy_capture, same]
  | _ => rw [eventsBy_frame (by simp) (by simp), eventsBy_frame (by simp) (by simp), same]

theorem attrs (each : Forall₂ SameEvents ns ns') : SameEvents (.attrs ns) (.attrs ns') := by
  intro put on? origin
  rw [eventsBy_attrs, eventsBy_attrs, flatMap_eq each]

theorem closed (name : Text) (each : Forall₂ SameEvents ns ns') :
    SameEvents (.tag name ns none) (.tag name ns' none) := by
  intro put on? origin
  rw [eventsBy_closed, eventsBy_closed, flatMap_eq each]

theorem tag (name : Text) (each : Forall₂ SameEvents ns ns') (same : SameEvents n n') :
    SameEvents (.tag name ns (some n)) (.tag name ns' (some n')) := by
  intro put on? origin
  rw [eventsBy_tag, eventsBy_tag, flatMap_eq each, same]

end SameEvents

theorem eventsBy_spliced (n : Node) :
    n.spliced.flatMap (eventsBy put on? origin) = eventsBy put on? origin n := by
  unfold spliced
  split
  · rw [eventsBy_seq]
  · exact flatMap_singleton ..

theorem sameEvents_flattened (n : Node) : Yields (SameEvents n) (fun _ => True) n.flattened := by
  induction n using Node.induction with
  | leaf l =>
    cases l with
    | unknown => trivial
    | _ => exact .refl _
  | frame f inner ih => exact ih.bind fun inner same => same.frame f
  | group g children ih =>
    cases g with
    | seq =>
      rw [flattened, flattenedAll_eq]
      refine (Yields.mapM ih).bind ?_
      intro children each put on? origin
      have spliced : (fun n : Node => n.spliced.flatMap (eventsBy put on? origin)) =
        eventsBy put on? origin :=
        funext fun n => eventsBy_spliced n
      rw [eventsBy_seq, eventsBy_seq, flatMap_assoc, spliced, SameEvents.flatMap_eq each]
    | attrs =>
      rw [flattened, flattenedAll_eq]
      exact (Yields.mapM ih).bind fun _ each => .attrs each
  | closed name entries ih =>
    rw [flattened, flattenedAll_eq]
    exact (Yields.mapM ih).bind fun _ each => .closed name each
  | tag name entries body ihEntries ihBody =>
    rw [flattened, flattenedAll_eq]
    exact (Yields.mapM ihEntries).bind fun _ each => ihBody.bind fun _ same => .tag name each same

theorem eventsBy_run (r : Run) : r.nodes.flatMap (eventsBy put on? origin) = [] := by
  rw [flatMap_eq_nil_iff]
  unfold Run.nodes
  refine forall_mem_append.mpr ⟨?_, ?_⟩
  · split
    · nofun
    · nofun
    · exact forall_mem_singleton.mpr (eventsBy_static _)
  · intro n mem
    rw [eq_of_mem_replicate mem, eventsBy_newline]

theorem joinedAll_eq (ns : List Node) : joinedAll ns = ns.mapM joined :=
  eq_mapM joinedAll rfl (fun _ _ => rfl) ns

theorem events_joinedSeq {ns : List Node}
    (each : ∀ n ∈ ns, Yields (SameEvents n) (fun _ => True) n.joined) (r : Run) :
    Yields (fun ns' => ∀ put on? origin,
        ns'.flatMap (eventsBy put on? origin) = ns.flatMap (eventsBy put on? origin))
      (fun _ => True) (joinedSeq r ns) := by
  induction ns generalizing r with
  | nil => exact fun put on? origin => eventsBy_run r
  | cons n ns ih =>
    rw [forall_mem_cons] at each
    unfold joinedSeq
    split
    next text => simpa using ih each.2 (r.addText text)
    next =>
      split
      · simpa using ih each.2 { r with marks := r.marks + 1 }
      · refine (ih each.2 {}).bind ?_
        intro ns' same put on? origin
        rw [flatMap_append, eventsBy_run, flatMap_cons, flatMap_cons, same]
        rfl
    next =>
      refine each.1.bind ?_
      intro n' sameFirst
      refine (ih each.2 {}).bind ?_
      intro ns' same put on? origin
      rw [flatMap_append, eventsBy_run, flatMap_cons, flatMap_cons, sameFirst, same]
      rfl

theorem sameEvents_joined (n : Node) : Yields (SameEvents n) (fun _ => True) n.joined := by
  induction n using Node.induction with
  | leaf l =>
    cases l with
    | unknown => trivial
    | _ => exact .refl _
  | frame f inner ih => exact ih.bind fun inner same => same.frame f
  | group g children ih =>
    cases g with
    | seq =>
      refine (events_joinedSeq ih {}).bind ?_
      intro children same put on? origin
      rw [eventsBy_seq, eventsBy_seq, same]
    | attrs =>
      rw [joined, joinedAll_eq]
      exact (Yields.mapM ih).bind fun _ each => .attrs each
  | closed name entries ih =>
    rw [joined, joinedAll_eq]
    exact (Yields.mapM ih).bind fun _ each => .closed name each
  | tag name entries body ihEntries ihBody =>
    rw [joined, joinedAll_eq]
    exact (Yields.mapM ihEntries).bind fun _ each => ihBody.bind fun _ same => .tag name each same

/-! ## Markup -/

/-- Two trees with the same events, but for their origins. -/
def SameActs (n n' : Node) : Prop :=
  ∀ put on? origin origin', (eventsBy put on? origin' n').map Prod.snd =
    (eventsBy put on? origin n).map Prod.snd

namespace SameActs

theorem map_flatMap {ns ns' : List Node} (each : Forall₂ SameActs ns ns')
    (origin origin' : Origin) :
    (ns'.flatMap (eventsBy put on? origin')).map Prod.snd =
      (ns.flatMap (eventsBy put on? origin)).map Prod.snd := by
  rw [List.map_flatMap, List.map_flatMap]
  exact flatMap_eq_of_forall₂ (each.imp fun _ _ same => same put on? origin origin')

theorem leaf (l : Leaf) : SameActs (.leaf l) (.leaf l) := by
  intro put on? origin origin'
  cases l with
  | dynamic source => rw [eventsBy_dynamic, eventsBy_dynamic]; rfl
  | code source => rw [eventsBy_code, eventsBy_code]; rfl
  | _ => rw [eventsBy_leaf (by simp) (by simp), eventsBy_leaf (by simp) (by simp)]

variable {n n' : Node}

theorem frame (f : Frame) (same : SameActs n n') : SameActs (.frame f n) (.frame f n') := by
  intro put on? origin origin'
  cases f with
  | escape on => rw [eventsBy_escape, eventsBy_escape, same put (some on) origin origin']
  | capture name =>
    rw [eventsBy_capture, eventsBy_capture, map_append, map_append, same put none origin origin']
    rfl
  | _ =>
    rw [eventsBy_frame (by simp) (by simp), eventsBy_frame (by simp) (by simp),
      same put on? origin origin']

theorem around {f : Frame} (noSwitch : ∀ on, f ≠ .escape on) (noCapture : ∀ name, f ≠ .capture name)
    (same : SameActs n n') (start : List Node) (text text' : Text)
    (still : ∀ put on? origin, start.flatMap (eventsBy put on? origin) = []) :
    SameActs (.frame f n) (.seq (start ++ [.static text, n', .static text'])) := by
  intro put on? origin origin'
  rw [eventsBy_frame noSwitch noCapture, ← same put on? origin origin']
  simp [still]

end SameActs

theorem eventsBy_breakNodes (wanted : Bool) (indent : Nat) (place : Markup.Place)
    (s : Markup.Progress) (put : Option Bool → Text → Text) (on? : Option Bool) (origin : Origin) :
    (breakNodes wanted indent place s).1.flatMap (eventsBy put on? origin) = [] := by
  unfold breakNodes
  split
  · simp
  · rfl

theorem sameActs_markup (o : Options) (n : Node) (place : Markup.Place) (s : Markup.Progress) :
    Yields (fun r => SameActs n r.1) (fun _ => True) (n.markup o place s) := by
  induction n using Node.induction generalizing place s with
  | leaf l =>
    cases l with
    | unknown => trivial
    | doctype kind =>
      rw [markup]
      have still := eventsBy_breakNodes place.pretty o.indent place s
      generalize breakNodes place.pretty o.indent place s = broken at still
      split
      · trivial
      · intro put on? origin origin'
        rw [eventsBy_leaf (by simp) (by simp), eventsBy_seq, flatMap_append, still]
        simp
    | trim side =>
      intro put on? origin origin'
      rw [eventsBy_leaf (by simp) (by simp)]
      simp
    | _ => exact .leaf _
  | frame f inner ih =>
    cases f with
    | attr name | shortcut name =>
      exact (ih place s).bind fun _ same => same.around (by simp) (by simp) [] _ _ fun _ _ _ => rfl
    | comment | condComment condition =>
      rw [markup]
      have still := eventsBy_breakNodes place.pretty o.indent place s
      generalize breakNodes place.pretty o.indent place s = broken at still
      exact (ih _ _).bind fun _ same => same.around (by simp) (by simp) _ _ _ still
    | trim side =>
      rw [markup]
      refine (ih place (s.trimming side)).imp ?_
      intro r same put on? origin origin'
      rw [eventsBy_frame (by simp) (by simp), same put on? origin origin']
    | _ => exact (ih place s).bind fun _ same => same.frame _
  | group g children ih =>
    cases g with
    | seq | attrs =>
      rw [markup, markupAll_eq]
      refine (Yields.thread (fun n mem => ih n mem place) s).bind ?_
      intro r each put on? origin origin'
      simp only [eventsBy_seq, eventsBy_attrs]
      exact SameActs.map_flatMap each _ _
  | closed name entries ih =>
    rw [markup]
    generalize broken : breakNodes _ o.indent place _ = start
    have still :=
      fun put on? origin => broken ▸ eventsBy_breakNodes _ o.indent place _ put on? origin
    obtain ⟨start, s⟩ := start
    have inside := Yields.thread (fun n mem => ih n mem place) s.written
    rw [← markupAll_eq] at inside
    refine inside.bind ?_
    intro r each put on? origin origin'
    rw [eventsBy_closed, ← SameActs.map_flatMap each .attribute origin', eventsBy_seq,
      flatMap_append, still]
    simp
  | tag name entries body ihEntries ihBody =>
    rw [markup]
    generalize broken : breakNodes _ o.indent place _ = start
    have still :=
      fun put on? origin => broken ▸ eventsBy_breakNodes _ o.indent place _ put on? origin
    obtain ⟨start, s⟩ := start
    have inside := Yields.thread (fun n mem => ihEntries n mem place) s.written
    rw [← markupAll_eq] at inside
    refine inside.bind ?_
    intro r each
    simp only
    split
    · refine (ihBody place _).bind ?_
      intro body' same put on? origin origin'
      rw [eventsBy_tag, map_append, ← SameActs.map_flatMap each .attribute origin',
        ← same put on? origin origin',
        eventsBy_seq, flatMap_append, still]
      simp
    · refine (ihBody _ _).bind ?_
      rintro ⟨body', s⟩ same
      generalize closing : breakNodes _ o.indent place s = close
      have stillClose :=
        fun put on? origin => closing ▸ eventsBy_breakNodes _ o.indent place s put on? origin
      obtain ⟨close, s⟩ := close
      intro put on? origin origin'
      rw [eventsBy_tag, map_append, ← SameActs.map_flatMap each .attribute origin',
        ← same put on? origin origin',
        eventsBy_seq, flatMap_append, flatMap_append, flatMap_append, still, stillClose]
      simp

end Node

end MarkupTemplate
