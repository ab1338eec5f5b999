import MarkupTemplate.Doctype
import MarkupTemplate.Proofs.Node.Extent

/-!
# Which nodes are left

`Kinds` says which kinds of nodes a tree may hold at some pass, and `Fits` that it holds no others,
and none where it must not stand. As long as attribute lists are as they were read, a tag holds
attributes only and an attribute holds a value; what is merged later stands among the other nodes. A
tree that fits `Kinds.core` has core nodes only.
-/

namespace MarkupTemplate.Node

/-! ## Kinds -/

/-- The kinds of nodes a tree may hold apart from core nodes. -/
structure Kinds where
  texts : Bool
  controls : Bool
  lists : Bool
  markup : Bool
  escapes : Bool

namespace Kinds

def rendered : Kinds := ⟨true, true, true, true, true⟩

def expanded : Kinds := ⟨false, true, true, true, true⟩

def stated : Kinds := ⟨false, false, true, true, true⟩

def merged : Kinds := ⟨false, false, false, true, true⟩

def written : Kinds := ⟨false, false, false, false, true⟩

def core : Kinds := ⟨false, false, false, false, false⟩

/-- Whether a leaf may stand in a tree. A document type has to be one that the format declares. -/
def leaf (k : Kinds) (format : Format) : Leaf → Bool
  | .newline | .static _ | .dynamic _ | .code _ => true
  | .doctype kind => k.markup && (Doctype.declaration? format kind).isSome
  | .interpolate _ => k.texts
  | .unknown | .value _ _ | .trim _ => false

/-- Whether a frame may stand around a tree. A control line ends in a character that is not blank,
and the name of a capture is on one line. -/
def frame (k : Kinds) : Frame → Bool
  | .block => true
  | .capture name => !name.contains '\n'
  | .escape _ => k.escapes
  | .control source => k.controls && Text.trimRight source == source
  | .output _ _ => k.controls
  | .comment | .condComment _ | .trim _ => k.markup
  | .attr _ | .shortcut _ => k.markup && !k.lists
  | .embedded _ => false

end Kinds

/-! ## Trees of some kinds -/

/-- Where a node stands. -/
inductive Place where
  | tree
  | entry
  | value
  | inline
deriving DecidableEq

/-- Whether nodes of several shapes may stand here. -/
def Place.isOpen : Place → Bool
  | .tree | .inline => true
  | .entry | .value => false

/-- Where the attribute entries of a tag stand. -/
def Kinds.entries (k : Kinds) : Place :=
  if k.lists then .entry else .tree

/-- A tree holds only nodes of some kinds, each where it may stand. The values of attributes take up
no lines, so they can be moved and left out. -/
inductive Fits (k : Kinds) (format : Format) : Place → Node → Prop where
  | leaf {p : Place} {l : Leaf} :
    p.isOpen → k.leaf format l → Fits k format p (.leaf l)
  | frame {p : Place} {f : Frame} {inner : Node} :
    p.isOpen → k.frame f → Fits k format p inner → Fits k format p (.frame f inner)
  | seq {p : Place} {children : List Node} :
    p.isOpen → (∀ n ∈ children, Fits k format p n) → Fits k format p (.seq children)
  | closed {name : Text} {entries : List Node} :
    k.markup → (∀ e ∈ entries, Fits k format k.entries e) →
    Fits k format .tree (.tag name entries none)
  | tag {name : Text} {entries : List Node} {body : Node} :
    k.markup → (∀ e ∈ entries, Fits k format k.entries e) → Fits k format .tree body →
    Fits k format .tree (.tag name entries (some body))
  | attr {name : Text} {value : Node} :
    Fits k format .value value → Fits k format .entry (.attr name value)
  | shortcut {name : Text} {value : Node} :
    Fits k format .value value → Fits k format .entry (.shortcut name value)
  | code {escape : Bool} {source : Text} :
    '\n' ∉ source → Fits k format .value (.value escape source)
  | known {value : Node} :
    Fits k format .inline value → (∀ feed, value.extent feed = 0) → Fits k format .value value

/-- A step has replaced a node by one of some kinds that takes up as many lines. -/
structure Keeps (k : Kinds) (format : Format) (p : Place) (n n' : Node) : Prop where
  fits : Fits k format p n'
  extent : ∀ feed, n'.extent feed = n.extent feed

theorem Keeps.all {k : Kinds} {format : Format} {p : Place} {ns ns' : List Node}
    (kept : List.Forall₂ (Keeps k format p) ns ns') :
    (∀ n' ∈ ns', Fits k format p n') ∧ ∀ feed, extentOf feed ns' = extentOf feed ns := by
  induction kept with
  | nil => exact ⟨fun _ mem => (nomatch mem), fun _ => rfl⟩
  | cons first _ ih =>
    refine ⟨List.forall_mem_cons.mpr ⟨first.fits, ih.1⟩, fun feed => ?_⟩
    rw [extentOf_cons, extentOf_cons, first.extent feed, ih.2 feed]

/-! ## Core nodes -/

section Core

variable {k : Kinds} {format : Format} {p : Place}

variable (nested : p.isOpen)

include nested

theorem Fits.newline : Fits k format p .newline :=
  .leaf nested rfl

theorem Fits.static (text : Text) : Fits k format p (.static text) :=
  .leaf nested rfl

theorem Fits.dynamic (source : Text) : Fits k format p (.dynamic source) :=
  .leaf nested rfl

theorem Fits.statement (source : Text) : Fits k format p (.code source) :=
  .leaf nested rfl

theorem Fits.block {body : Node} (fits : Fits k format p body) : Fits k format p (.block body) :=
  .frame nested rfl fits

theorem Fits.capture {name : Text} {body : Node}
    (plain : '\n' ∉ name) (fits : Fits k format p body) : Fits k format p (.capture name body) :=
  .frame nested (by simp [Kinds.frame, plain]) fits

theorem Fits.empty : Fits k format p (.seq []) :=
  .seq nested nofun

omit nested

theorem Fits.cons {n : Node} {ns : List Node} (first : Fits k format p n)
    (rest : ∀ m ∈ ns, Fits k format p m) : ∀ m ∈ n :: ns, Fits k format p m :=
  List.forall_mem_cons.mpr ⟨first, rest⟩

theorem Fits.append {ns ms : List Node} (first : ∀ m ∈ ns, Fits k format p m)
    (rest : ∀ m ∈ ms, Fits k format p m) : ∀ m ∈ ns ++ ms, Fits k format p m :=
  List.forall_mem_append.mpr ⟨first, rest⟩

theorem Fits.nil : ∀ m ∈ ([] : List Node), Fits k format p m :=
  nofun

theorem Fits.newlines (nested : p.isOpen) (count : Nat) :
    ∀ n ∈ List.replicate count Node.newline, Fits k format p n := by
  intro n mem
  rw [List.eq_of_mem_replicate mem]
  exact .newline nested

end Core

/-- A tree of core nodes. -/
inductive IsCore : Node → Prop where
  | newline : IsCore .newline
  | static (text : Text) : IsCore (.static text)
  | dynamic (source : Text) : IsCore (.dynamic source)
  | code (source : Text) : IsCore (.code source)
  | block {body : Node} : IsCore body → IsCore (.block body)
  | capture (name : Text) {body : Node} : IsCore body → IsCore (.capture name body)
  | seq {children : List Node} : (∀ n ∈ children, IsCore n) → IsCore (.seq children)

theorem Fits.isCore {format : Format} {p : Place} {n : Node} (fits : Fits .core format p n)
    (top : p = .tree) : IsCore n := by
  induction fits with
  | @leaf p l _ allowed =>
    cases l with
    | newline => exact .newline
    | static text => exact .static text
    | dynamic source => exact .dynamic source
    | code source => exact .code source
    | _ => nomatch allowed
  | @frame p f _ _ allowed _ ih =>
    cases f with
    | block => exact .block (ih top)
    | capture name => exact .capture name (ih top)
    | _ => nomatch allowed
  | seq _ _ ih => exact .seq fun n mem => ih n mem top
  | closed allowed | tag allowed => nomatch allowed
  | _ => nomatch top

end MarkupTemplate.Node
