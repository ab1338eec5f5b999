import MarkupTemplate.Proofs.Attribute.Merge
import MarkupTemplate.Proofs.Node.Stated

/-!
# Trims stand around tags

`Tidy` says of a tree that every trim stands around a tag, and that nothing in an attribute list
starts a line or trims one (`Inert`). The trees of templates are tidy, as they are read
(`readTidy_of_isRead`), with statements for their lines (`Stated.tidy`), and with merged attributes.
What attribute lists hold is a parameter, as it changes on the way.
-/

namespace MarkupTemplate

open List

open Outline (IsTextNode)

/-- A leaf that starts no line and trims none. -/
def Leaf.isInert : Leaf → Bool
  | .unknown | .doctype _ | .trim _ => false
  | .newline | .static _ | .dynamic _ | .code _ | .interpolate _ | .value _ _ => true

/-- A frame that starts no line and trims none. -/
def Frame.isInert : Frame → Bool
  | .comment | .condComment _ | .trim _ | .embedded _ => false
  | .escape _ | .attr _ | .shortcut _ | .control _ | .output _ _ | .block | .capture _ => true

/-- A leaf that trims nothing. -/
def Leaf.isFree : Leaf → Bool
  | .unknown | .trim _ => false
  | _ => true

/-- A frame around nodes of the template that is no part of a tag. -/
def Frame.isFree : Frame → Bool
  | .attr _ | .shortcut _ | .trim _ | .embedded _ => false
  | .escape _ | .comment | .condComment _ | .control _ | .output _ _ | .block | .capture _ => true

namespace Node

/-! ## Trees -/

/-- A tree in which nothing starts a line or trims one. -/
inductive Inert : Node → Prop where
  | leaf {l : Leaf} : l.isInert → Inert (.leaf l)
  | frame {f : Frame} {inner : Node} : f.isInert → Inert inner → Inert (.frame f inner)
  | seq {children : List Node} : (∀ n ∈ children, Inert n) → Inert (.seq children)

/-- A tree in which trims stand around tags and attribute lists hold what they may. -/
inductive Tidy (blocks : Bool) (entry : Node → Prop) : Node → Prop where
  | leaf {l : Leaf} : l.isFree → Tidy blocks entry (.leaf l)
  | frame {f : Frame} {inner : Node} :
    f.isFree → Tidy blocks entry inner → Tidy blocks entry (.frame f inner)
  | trim (side : Trim) {inner : Node} :
    inner.isTag → Tidy blocks entry inner → Tidy blocks entry (.trim side inner)
  | embedded {name : Text} {nodes : List Node} :
    blocks → (∀ n ∈ nodes, IsTextNode n) → Tidy blocks entry (.embedded name (.seq nodes))
  | seq {children : List Node} :
    (∀ n ∈ children, Tidy blocks entry n) → Tidy blocks entry (.seq children)
  | closed {name : Text} {entries : List Node} :
    (∀ e ∈ entries, entry e) → Tidy blocks entry (.tag name entries none)
  | tag {name : Text} {entries : List Node} {body : Node} :
    (∀ e ∈ entries, entry e) → Tidy blocks entry body →
    Tidy blocks entry (.tag name entries (some body))

/-- A step has made a tidy tree of a node, and a tag of a tag. -/
def Tidies (entry : Node → Prop) (n n' : Node) : Prop :=
  Tidy false entry n' ∧ (n.isTag → n'.isTag)

variable {blocks : Bool} {entry : Node → Prop}

theorem tidies_of_not_isTag {n n' : Node} (other : n.isTag = false) (tidy : Tidy false entry n') :
    Tidies entry n n' :=
  ⟨tidy, fun tag => absurd tag (by simp [other])⟩

theorem isTag_of_isFree {f : Frame} (free : f.isFree) (inner : Node) :
    isTag (.frame f inner) = false := by
  cases f with
  | trim => nomatch free
  | _ => rfl

theorem forall_tidy {ns ns' : List Node} (each : List.Forall₂ (Tidies entry) ns ns') :
    ∀ n ∈ ns', Tidy false entry n :=
  forall_of_forall₂ (each.imp fun _ _ tidies => tidies.1)

end Node

/-! ## Templates -/

/-- A tree as it is read: its attribute lists hold entries, and blocks are embedded in it. -/
abbrev Outline.ReadTidy : Node → Prop :=
  Node.Tidy true Attribute.IsEntry

theorem Outline.readTidy_of_isRead {format : Format} {n : Node} (read : IsRead format n) :
    ReadTidy n := by
  induction read with
  | @leaf l read =>
    cases l with
    | newline | static | doctype | interpolate => exact .leaf rfl
    | _ => nomatch read
  | @frame f inner read tags _ ih =>
    cases f with
    | comment | condComment | escape | control | output => exact .frame rfl ih
    | trim side => exact .trim side (tags rfl) ih
    | _ => nomatch read
  | embedded texts => exact .embedded rfl texts
  | seq _ ih => exact .seq ih
  | closed entries => exact .closed entries
  | tag entries _ ih => exact .tag entries ih

namespace Node

variable {n : Node}

theorem inert_isEntry {e : Node} (isEntry : Attribute.IsEntry e) : Attribute.IsEntryOf Inert e := by
  cases isEntry with
  | text => exact ⟨_, rfl, .frame rfl (.leaf rfl)⟩
  | code => exact ⟨_, rfl, .leaf rfl⟩
  | shortcut sign name =>
    unfold Attribute.shortcutEntry
    split <;> exact ⟨_, rfl, .leaf rfl⟩

/-! ## Statements for lines -/

theorem inert_putOut (escaped : Bool) (source : Text) : Inert (putOut escaped source) := by
  cases escaped with
  | true => exact .leaf rfl
  | false => exact .frame rfl (.leaf rfl)

theorem StatedValue.inert {raw : Bool} (stated : StatedValue raw n) : Inert n := by
  have text : ∀ {n : Node}, StatedText raw n → Inert n := by
    intro n stated
    induction stated with
    | static => exact .leaf rfl
    | putOut escaped source => exact inert_putOut escaped source
    | seq _ ih => exact .seq ih
  cases stated with
  | static | code => exact .leaf rfl
  | text stated => exact .frame rfl (text stated)

theorem tidy_putOut (escaped : Bool) (source : Text) :
    Tidy false entry (putOut escaped source) := by
  cases escaped with
  | true => exact .leaf rfl
  | false => exact .frame rfl (.leaf rfl)

theorem Stated.tidy {raw : Bool} {codes : List Text} {lo hi : Nat}
    (stated : Stated raw codes lo hi n) : Tidy false (Attribute.IsEntryOf Inert) n := by
  have inert : ∀ {e : Node}, Attribute.IsEntryOf (StatedValue raw) e →
    Attribute.IsEntryOf Inert e :=
    fun ⟨v, same, stated⟩ => ⟨v, same, stated.inert⟩
  induction stated with
  | @leaf _ l silent =>
    cases l with
    | newline | static | doctype => exact .leaf rfl
    | _ => nomatch silent
  | statement | suite => exact .leaf rfl
  | putOut _ escaped source => exact tidy_putOut escaped source
  | deferred => exact .frame rfl (.leaf rfl)
  | @frame _ _ _ f inner silent tags _ ih =>
    cases f with
    | comment | condComment | escape | block => exact .frame rfl ih
    | trim side => exact .trim side (tags rfl) ih
    | _ => nomatch silent
  | captured escaped source _ _ ih =>
    refine .seq ?_
    simp only [forall_mem_cons]
    exact ⟨.frame rfl ih, .leaf rfl, tidy_putOut escaped source, nofun⟩
  | nil => exact .seq nofun
  | cons _ _ first rest =>
    cases rest with
    | seq rest => exact .seq (forall_mem_cons.mpr ⟨first, rest⟩)
  | closed _ entries => exact .closed fun e mem => inert (entries e mem)
  | tag entries _ _ ih => exact .tag (fun e mem => inert (entries e mem)) ih

/-! ## Merged attributes -/

theorem inert_merges (merges : Attribute.Merges Inert n) : Inert n := by
  cases merges with
  | nothing => exact .seq nofun
  | text => exact .frame rfl (.leaf rfl)
  | value _ inert => exact .frame rfl inert
  | decided =>
    refine .seq ?_
    simp only [forall_mem_cons]
    exact ⟨.leaf rfl, .leaf rfl, .frame rfl (.frame rfl (.leaf rfl)), .leaf rfl,
      .frame rfl (.seq nofun), .leaf rfl, .frame rfl (.frame rfl (.frame rfl (.leaf rfl))),
      nofun⟩
  | joined _ _ _ captures =>
    refine .seq (forall_mem_append.mpr ⟨fun c mem => ?_, ?_⟩)
    · cases captures c mem with
      | value _ inert => exact .frame rfl inert
    · simp only [forall_mem_cons]
      exact ⟨.leaf rfl, .leaf rfl, .frame rfl (.frame rfl (.frame rfl (.leaf rfl))), nofun⟩

theorem tidies_attributed (o : Options) (tidy : Tidy false (Attribute.IsEntryOf Inert) n)
    (used : Nat) : Yields (fun r => Tidies Inert n r.1) (fun _ => True) (n.attributed o used) := by
  induction tidy generalizing used with
  | @leaf l free =>
    cases l with
    | unknown | trim => cases free
    | _ => exact ⟨.leaf rfl, id⟩
  | @frame f inner free _ ih =>
    exact (ih used).bind fun _ tidies => tidies_of_not_isTag (isTag_of_isFree free inner)
      (.frame free tidies.1)
  | trim side tag _ ih =>
    exact (ih used).bind fun _ tidies => ⟨.trim side (tidies.2 tag) tidies.1, fun _ => tidies.2 tag⟩
  | embedded blocks => cases blocks
  | seq _ ih =>
    rw [attributed, attributedAll_eq]
    exact (Yields.thread ih used).bind fun _ each => ⟨.seq (forall_tidy each), id⟩
  | closed each =>
    obtain ⟨r, read, merges⟩ := Attribute.mergeList_merges o used each
    rw [attributed, read]
    exact ⟨.closed fun n mem => inert_merges (merges n mem), fun _ => rfl⟩
  | tag each _ ih =>
    obtain ⟨r, read, merges⟩ := Attribute.mergeList_merges o used each
    rw [attributed, read]
    exact (ih r.2).bind fun _ tidies =>
      ⟨.tag (fun n mem => inert_merges (merges n mem)) tidies.1, fun _ => rfl⟩

end Node

end MarkupTemplate
