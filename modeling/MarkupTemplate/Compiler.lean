import MarkupTemplate.Attribute.Merged
import MarkupTemplate.Attribute.Override
import MarkupTemplate.Embedded.Registry
import MarkupTemplate.Error
import MarkupTemplate.Node.Controlled
import MarkupTemplate.Node.Escaped
import MarkupTemplate.Node.Flat
import MarkupTemplate.Node.Markup
import MarkupTemplate.Outline
import MarkupTemplate.Program.Basic

/-!
# Compilation

A compilation reads a template into a tree, takes the tree through a fixed list of passes and writes
a program for the result. Each pass removes kinds of nodes that the next one need not know; the last
two only make the tree smaller. Embedded engines that a pass meets are added to those the
compilation has met, also when it fails later on.
-/

namespace MarkupTemplate

open Embedded (Registry Cache)

/-! ## Sources -/

/-- A template as it is given. -/
inductive Source where
  | text (t : Text)
  | bytes (bs : List Nat)
deriving DecidableEq, Repr

namespace Source

/-- The text of a template. The encoding does not matter if there are no bytes. -/
def decode (o : Options) : Source → Except Error Text
  | .text t => .ok t
  | .bytes [] => .ok []
  | .bytes bs =>
    match Encoding.ofName? o.encoding with
    | none => .error (.unknownEncoding o.encoding)
    | some encoding =>
      match encoding.decode bs with
      | .ok t => .ok t
      | .error refusal => .error (.undecodable o.encoding refusal)

/-- The error that a template is left with. -/
def errorOf (o : Options) : Outline.Halt → Error
  | .fault fault => .template (fault.report o)
  | .overflow => .tabOverflow

/-- The tree of a template. -/
def tree (o : Options) (source : Source) : Except Error Node := do
  let t ← source.decode o
  (Outline.readFrom o {} (lines t)).mapError (errorOf o)

end Source

/-! ## Passes -/

/-- The passes of a compilation. -/
inductive Pass where
  | embed
  | interpolate
  | control
  | override
  | sort
  | merge
  | markup
  | escape
  | flatten
  | join
deriving DecidableEq, Repr

namespace Pass

/-- The name under which a pass is told. -/
def label : Pass → Text
  | .embed => "EmbeddedEngines"
  | .interpolate => "Interpolation"
  | .control => "ControlStructures"
  | .override => "AttributeOverrider"
  | .sort => "AttributeValueSorter"
  | .merge => "CodeAttributes"
  | .markup => "Html"
  | .escape => "Escapable"
  | .flatten => "MultiFlattener"
  | .join => "StaticMerger"

/-- The passes in their order. -/
def all (o : Options) : List Pass :=
  [embed, interpolate, control, override]
    ++ (if o.sortAttrs then [sort] else [])
    ++ [merge, markup, escape, flatten]
    ++ (if o.streaming then [] else [join])

/-- What a pass does that meets no engines. -/
def runPure (o : Options) : Pass → Node → Except Failure Node
  | .embed, n => .ok n
  | .interpolate, n => n.interpolated
  | .control, n => (n.controlled o.disableCapture 0).map (·.1)
  | .override, n => n.overridden o.overrideAttrs
  | .sort, n => if o.sortAttrs then n.sorted o.sortAttrKeys else .ok n
  | .merge, n => (n.attributed o 0).map (·.1)
  | .markup, n => (n.markup o ⟨o.pretty, 0⟩ {}).map (·.1)
  | .escape, n => n.escaped o.escapeHtml none
  | .flatten, n => n.flattened
  | .join, n => n.joined

/-- Runs a pass with the engines met so far. -/
def run (o : Options) (r : Registry) (pass : Pass) (n : Node) (met : Cache) :
    Except Failure Node × Cache :=
  match pass with
  | .embed => (n.rendered o r).run met
  | pass => (pass.runPure o n, met)

/-- Runs passes one after the other. -/
def runAll (o : Options) (r : Registry) : List Pass → Node → Cache → Except Failure Node × Cache
  | [], n, met => (.ok n, met)
  | pass :: passes, n, met =>
    match pass.run o r n met with
    | (.ok n, met) => runAll o r passes n met
    | (.error failure, met) => (.error failure, met)

/-- The results of several passes one after another, up to the first that fails. -/
def steps (o : Options) (r : Registry) :
    List Pass → Node → Cache → List (Pass × Except Failure Node)
  | [], _, _ => []
  | pass :: passes, n, met =>
    match pass.run o r n met with
    | (.ok n, met) => (pass, .ok n) :: steps o r passes n met
    | (.error failure, _) => [(pass, .error failure)]

end Pass

/-- Compiles a template to its final tree. -/
def transform (o : Options) (r : Registry) (source : Source) (met : Cache) :
    Except Error Node × Cache :=
  match source.tree o with
  | .error e => (.error e, met)
  | .ok n =>
    match Pass.runAll o r (Pass.all o) n met with
    | (.ok n, met) => (.ok n, met)
    | (.error failure, met) => (.error (.step failure), met)

/-- Compiles a template to a program. -/
def generate (o : Options) (r : Registry) (source : Source) (met : Cache) :
    Except Error Program × Cache :=
  match transform o r source met with
  | (.error e, met) => (.error e, met)
  | (.ok n, met) =>
    match Program.ofTree o n with
    | .ok p => (.ok p, met)
    | .error failure => (.error (.step failure), met)

end MarkupTemplate
