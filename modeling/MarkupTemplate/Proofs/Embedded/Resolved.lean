import Mathlib.Data.List.Basic
import MarkupTemplate.Embedded.Registry
import MarkupTemplate.Proofs.Node.Walk

/-!
# Rendering without a cache

A name stands for the engine under which a compilation has met it, or else for the one of the
registry (`overlay`). `embed` is rendering with no state, and `rendered_meets` says that only what
names stand for matters. As long as the registry gives the same engines, it makes no difference that
those met are kept (`run_rendered`). A name is met when the first block with it is rendered, also if
that fails. `Node.meets` lists the names in order, up to a block that fails.
-/

namespace MarkupTemplate

namespace Embedded

/-- The engine of a name, as the registry has it. -/
def resolve (o : Options) (r : Registry) (name : Text) : Except Failure Engine :=
  if enabled o name then
    match r.find? name with
    | some engine => .ok engine
    | none => .error (.engineNotFound name)
  else .error (.engineDisabled name)

/-- What a name stands for: an engine met before, or else the one of the registry. -/
def overlay (met : Cache) (r : Registry) (name : Text) : Option Engine :=
  (met.lookup name).or (r.find? name)

/-- The engine that a name stands for, if the options allow it. -/
def engineBy (o : Options) (stands : Text → Option Engine) (name : Text) : Except Failure Engine :=
  if enabled o name then
    match stands name with
    | some engine => .ok engine
    | none => .error (.engineNotFound name)
  else .error (.engineDisabled name)

/-- Whether the engines met are those of the registry. -/
def Agrees (met : Cache) (r : Registry) : Prop :=
  ∀ name engine, met.lookup name = some engine → r.find? name = some engine

/-- The engines met are those of the registry exactly if names stand for what the registry has. -/
theorem agrees_iff {met : Cache} {r : Registry} : Agrees met r ↔ overlay met r = r.find? := by
  constructor
  · intro agrees
    funext name
    rw [overlay]
    cases known : met.lookup name with
    | some engine => exact (agrees name engine known).symm
    | none => rfl
  · intro same name engine known
    rw [← same, overlay, known, Option.some_or]

end Embedded

namespace Node

open Embedded

mutual

/-- The tree with its embedded blocks rendered by the engines of their names. -/
def embed (engine : Text → Except Failure Engine) (format : Format) : Node → Except Failure Node
  | .leaf .unknown => .error .unknownNode
  | .leaf l => .ok (.leaf l)
  | .frame (.embedded name) body => do
    let e ← engine name
    e.render format body
  | .frame f inner => do
    let inner ← embed engine format inner
    return .frame f inner
  | .group g children => do
    let children ← embedAll engine format children
    return .group g children
  | .tag name entries none => do
    let entries ← embedAll engine format entries
    return .tag name entries none
  | .tag name entries (some body) => do
    let entries ← embedAll engine format entries
    let body ← embed engine format body
    return .tag name entries (some body)

def embedAll (engine : Text → Except Failure Engine) (format : Format) :
    List Node → Except Failure (List Node)
  | [] => .ok []
  | n :: ns => do
    let n ← embed engine format n
    let ns ← embedAll engine format ns
    return n :: ns

end

theorem embedAll_eq (engine : Text → Except Failure Engine) (format : Format) (ns : List Node) :
    embedAll engine format ns = ns.mapM (embed engine format) :=
  eq_mapM (embedAll engine format) rfl (fun _ _ => rfl) ns

mutual

/-- The names that are met while a tree is rendered. -/
def meets (engine : Text → Except Failure Engine) (format : Format) : Node → List Text
  | .leaf _ => []
  | .frame (.embedded name) _ => if (engine name).isOk then [name] else []
  | .frame _ inner => meets engine format inner
  | .group _ children => meetsAll engine format children
  | .tag _ entries none => meetsAll engine format entries
  | .tag _ entries (some body) =>
    meetsAll engine format entries ++ if (embedAll engine format entries).isOk
      then meets engine format body else []

def meetsAll (engine : Text → Except Failure Engine) (format : Format) : List Node → List Text
  | [] => []
  | n :: ns =>
    meets engine format n ++ if (embed engine format n).isOk then meetsAll engine format ns else []

end

end Node

namespace Embedded

/-! ## Steps that meet engines -/

/-- The engines met are those of one cache, and for some names those of the registry. -/
def Extends (r : Registry) (met : Cache) (names : List Text) (met' : Cache) : Prop :=
  ∀ name, met'.lookup name = (met.lookup name).or (if name ∈ names then r.find? name else none)

theorem Extends.refl (r : Registry) (met : Cache) : Extends r met [] met := by
  intro name
  simp

theorem Extends.append {r : Registry} {met met' met'' : Cache} {names names' : List Text}
    (first : Extends r met names met') (rest : Extends r met' names' met'') :
    Extends r met (names ++ names') met'' := by
  intro name
  rw [rest name, first name, Option.or_assoc]
  congr 1
  by_cases here : name ∈ names
  · by_cases there : name ∈ names'
    · simp [here, there]
    · simp [here, there]
  · simp [here]

/-- Meeting the engines of the registry changes nothing in what names stand for. -/
theorem Extends.overlay_eq {r : Registry} {met met' : Cache} {names : List Text}
    (extended : Extends r met names met') : overlay met' r = overlay met r := by
  funext name
  rw [overlay, overlay, extended name, Option.or_assoc]
  congr 1
  split
  · exact Option.or_self
  · exact Option.none_or

/-- A step gives a result that depends on what names stand for, and meets some names. -/
def Meets {α : Type} (r : Registry) (stands : Text → Option Engine) (x : EngineM α)
    (result : Except Failure α) (names : List Text) : Prop :=
  ∀ met, overlay met r = stands → ∃ met', x.run met = (result, met') ∧ Extends r met names met'

section Meets

variable {α β : Type} {r : Registry} {stands : Text → Option Engine}

theorem meets_lift (x : Except Failure α) : Meets r stands (liftM x) x [] :=
  fun met _ => ⟨met, rfl, .refl r met⟩

variable {x : EngineM α} {result : Except Failure α} {names : List Text} {f : α → EngineM β}
  {g : α → Except Failure β}

theorem Meets.bind {names' : List Text} (first : Meets r stands x result names)
    (next : ∀ a, Meets r stands (f a) (g a) names') :
    Meets r stands (x >>= f) (result >>= g) (names ++ if result.isOk then names' else []) := by
  intro met same
  obtain ⟨met', ran, extended⟩ := first met same
  have step : (x >>= f).run met = ExceptT.bindCont f (x.run met).1 (x.run met).2 := rfl
  rw [step, ran]
  cases result with
  | error e => exact ⟨met', rfl, by simpa [Except.isOk, Except.toBool] using extended⟩
  | ok a =>
    obtain ⟨met'', ran', extended'⟩ := next a met' (extended.overlay_eq.trans same)
    exact ⟨met'', ran', extended.append extended'⟩

theorem Meets.map (first : Meets r stands x result names)
    (next : ∀ a, Meets r stands (f a) (g a) []) :
    Meets r stands (x >>= f) (result >>= g) names := by
  have both := first.bind next
  simpa using both

theorem meets_find (o : Options) (name : Text) :
    Meets r stands (find o r name) (engineBy o stands name)
      (if (engineBy o stands name).isOk then [name] else []) := by
  rintro met rfl
  simp only [find, engineBy, ExceptT.run]
  split
  next =>
    cases known : met.lookup name with
    | some engine =>
      have stands : overlay met r name = some engine := by simp [overlay, known]
      rw [stands]
      refine ⟨met, rfl, fun name' => ?_⟩
      by_cases same : name' = name
      · simp [same, known]
      · simp [same]
    | none =>
      have stands : overlay met r name = r.find? name := by simp [overlay, known]
      rw [stands]
      cases found : r.find? name with
      | none => exact ⟨met, rfl, .refl r met⟩
      | some engine =>
        refine ⟨met ++ [(name, engine)], rfl, fun name' => ?_⟩
        rw [List.lookup_append, List.lookup_cons]
        by_cases same : name' = name
        · simp [same, found, Except.isOk, Except.toBool]
        · rw [beq_eq_false_iff_ne.mpr same]
          simp [same]
  next => exact ⟨met, rfl, .refl r met⟩

end Meets

end Embedded

namespace Node

open Embedded

/-- Rendering depends on what names stand for, and meets those in front of the first failure. -/
theorem rendered_meets (o : Options) (r : Registry) (stands : Text → Option Engine) (n : Node) :
    Meets r stands (n.rendered o r) (n.embed (engineBy o stands) o.format)
    (n.meets (engineBy o stands) o.format) := by
  have list : ∀ ns : List Node,
      (∀ n ∈ ns, Meets r stands (n.rendered o r) (n.embed (engineBy o stands) o.format)
        (n.meets (engineBy o stands) o.format)) →
      Meets r stands (renderedAll o r ns) (embedAll (engineBy o stands) o.format ns)
        (meetsAll (engineBy o stands) o.format ns) := by
    intro ns each
    induction ns with
    | nil => exact meets_lift (.ok [])
    | cons n ns ih =>
      rw [List.forall_mem_cons] at each
      exact each.1.bind fun n => (ih each.2).map fun ns => meets_lift (.ok (n :: ns))
  induction n using Node.induction with
  | leaf l =>
    cases l with
    | unknown => exact meets_lift (.error .unknownNode)
    | _ => exact meets_lift (.ok _)
  | frame f inner ih =>
    cases f with
    | embedded name =>
      exact (meets_find o name).map fun engine => meets_lift (engine.render o.format inner)
    | _ => exact ih.map fun inner => meets_lift (.ok _)
  | group g children ih => exact (list children ih).map fun children => meets_lift (.ok _)
  | closed name entries ih => exact (list entries ih).map fun entries => meets_lift (.ok _)
  | tag name entries body ihEntries ihBody =>
    exact (list entries ihEntries).bind fun entries => ihBody.map fun body => meets_lift (.ok _)

/-- A step gives a result whatever engines were met, and meets only those of the registry. -/
def Runs {α : Type} (r : Registry) (x : EngineM α) (result : Except Failure α) : Prop :=
  ∀ met, Agrees met r → ∃ met', x.run met = (result, met') ∧ Agrees met' r

theorem run_rendered (o : Options) (r : Registry) (n : Node) :
    Runs r (n.rendered o r) (n.embed (resolve o r) o.format) := by
  intro met agrees
  have same := agrees_iff.mp agrees
  obtain ⟨met', ran, extended⟩ := rendered_meets o r r.find? n met same
  exact ⟨met', ran, agrees_iff.mpr (extended.overlay_eq.trans same)⟩

end Node

end MarkupTemplate
