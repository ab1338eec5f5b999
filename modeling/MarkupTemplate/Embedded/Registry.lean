import MarkupTemplate.Embedded.Engine

/-!
# Registries of engines

A registry gives engines names. A compilation looks a name up when it first meets it and keeps the
engine it finds, so a later change of the registry reaches it only for names it has not met. The
options may restrict which names can be used at all.
-/

namespace MarkupTemplate

namespace Embedded

/-- Engines and their names. -/
abbrev Registry := List (Text × Engine)

namespace Registry

/-- Gives an engine a name; an engine that had the name loses it. -/
def register : Registry → (name : Text) → Engine → Registry
  | [], name, engine => [(name, engine)]
  | (key, old) :: registry, name, engine =>
    if key = name then (name, engine) :: registry
    else (key, old) :: register registry name engine

/-- The engine of a name. -/
def find? (r : Registry) (name : Text) : Option Engine :=
  r.lookup name

/-- The names in order. -/
def names (r : Registry) : List Text :=
  (r.map (·.1)).mergeSort Text.le

/-- The engines that come with the library, given what renders Markdown. -/
def builtin (markdown : Renderer) : Registry :=
  [("markdown", { kind := .markdown, markdown }),
   ("jinja", { kind := .deferred, markdown }),
   ("javascript",
    { kind := .script
      settings := {
        tag? := some "script"
        attributes := [("type", "text/javascript")] }
      markdown }),
   ("css",
    { kind := .element
      settings := {
        tag? := some "style"
        attributes := [("type", "text/css")] }
      markdown }),
   ("python", { kind := .host, markdown }),
   ("plain", { kind := .plain, markdown }),
   ("escaped", { kind := .plain, settings := { escape := true }, markdown }),
   ("preserve", { kind := .preserve, markdown }),
   ("cdata", { kind := .cdata, markdown })]

end Registry

/-- The engines a compilation has met, in the order in which it met them. -/
abbrev Cache := List (Text × Engine)

/-- Whether the options allow a name. -/
def enabled (o : Options) (name : Text) : Bool :=
  (o.enableEngines.all fun names => names.contains name)
    && (o.disableEngines.all fun names => !names.contains name)

/-- A step that may fail and may meet new engines; what it met is kept also when it fails. -/
abbrev EngineM := ExceptT Failure (StateM Cache)

/-- The engine of a name: one the compilation has met, or else the one in the registry. -/
def find (o : Options) (r : Registry) (name : Text) : EngineM Engine := fun met =>
  if enabled o name then
    match met.lookup name with
    | some engine => (.ok engine, met)
    | none =>
      match r.find? name with
      | some engine => (.ok engine, met ++ [(name, engine)])
      | none => (.error (.engineNotFound name), met)
  else (.error (.engineDisabled name), met)

end Embedded

namespace Node

open Embedded

mutual

/-- A tree with its embedded blocks rendered. -/
def rendered (o : Options) (r : Registry) : Node → EngineM Node
  | .leaf .unknown => throw .unknownNode
  | .leaf l => return .leaf l
  | .frame (.embedded name) body => do
    let engine ← find o r name
    engine.render o.format body
  | .frame f inner => do
    let inner ← rendered o r inner
    return .frame f inner
  | .group g children => do
    let children ← renderedAll o r children
    return .group g children
  | .tag name entries none => do
    let entries ← renderedAll o r entries
    return .tag name entries none
  | .tag name entries (some body) => do
    let entries ← renderedAll o r entries
    let body ← rendered o r body
    return .tag name entries (some body)

/-- Trees with their embedded blocks rendered. -/
def renderedAll (o : Options) (r : Registry) : List Node → EngineM (List Node)
  | [] => return []
  | n :: ns => do
    let n ← rendered o r n
    let ns ← renderedAll o r ns
    return n :: ns

end

end Node

end MarkupTemplate
