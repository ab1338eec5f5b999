import MarkupTemplate.Proofs.Node.Suites
import MarkupTemplate.Proofs.Node.Tidy

/-!
# What becomes of control lines

`Lowers` says which items a tree can give once all passes have run: a control line that needs
statements below it gives one item, with the items of just what is nested below the line in its
suite. Where a pass chooses between several forms, each is allowed. What embedded blocks and
attribute lists give is left open, except that it holds no suites inside suites. A pass takes a tree
to one whose items are among those of the first (`Becomes`), node by node (`Becomes.all`).
-/

namespace MarkupTemplate

open List
open Item (ofText)

/-! ## Items of templates -/

/-- Whether an item puts something out. -/
def Item.isPlain : Item → Bool
  | .char _ | .output _ => true
  | .statement _ | .suite _ _ | .kept _ _ => false

/-- Whether what an item has below it is only put out. -/
def Item.isShallow : Item → Bool
  | .char _ | .output _ | .statement _ => true
  | .suite _ body | .kept _ body => body.all isPlain

/-- How far a tree has come, as far as items depend on it. -/
inductive Phase where
  | read
  | merged
  | escaped

/-- What is put out for a text: it may be escaped as long as escaping is not applied. -/
def Phase.Puts (phase : Phase) (text text' : Text) : Prop :=
  text' = text ∨ phase ≠ .escaped ∧ text' = Text.escape text

/-- What is evaluated for a code: it may be escaped as long as escaping is not applied. -/
def Phase.Evaluates (phase : Phase) (source source' : Text) : Prop :=
  source' = source ∨ phase ≠ .escaped ∧ source' = Node.escapedCode true none source

/-- Whether a phase is no later than another. -/
def Phase.LeadsTo (phase phase' : Phase) : Prop :=
  phase = .escaped → phase' = .escaped

variable {phase phase' : Phase}

theorem Phase.Puts.earlier (leads : phase.LeadsTo phase') {text text' : Text}
    (puts : phase'.Puts text text') : phase.Puts text text' :=
  puts.imp id fun ⟨other, same⟩ => ⟨fun escaped => other (leads escaped), same⟩

theorem Phase.Evaluates.earlier (leads : phase.LeadsTo phase') {source source' : Text}
    (evaluates : phase'.Evaluates source source') : phase.Evaluates source source' :=
  evaluates.imp id fun ⟨other, same⟩ => ⟨fun escaped => other (leads escaped), same⟩

/-- The items of a leaf. -/
inductive Leaf.Gives (phase : Phase) : Leaf → List Item → Prop where
  | newline : Gives phase .newline []
  | static {text text' : Text} : phase.Puts text text' → Gives phase (.static text) (ofText text')
  | dynamic {source source' : Text} :
    phase.Evaluates source source' → Gives phase (.dynamic source) [.output source']
  | code (source : Text) : Gives phase (.code source) [.statement source]
  | doctype (kind text : Text) : Gives phase (.doctype kind) (ofText text)
  | trim (side : Trim) : Gives phase (.trim side) []

/-- The items of a frame around others. A control line that needs statements below it is one item,
with all that is nested below the line in its suite. -/
inductive Frame.Wraps (phase : Phase) : Frame → List Item → List Item → Prop where
  | escape (on : Bool) (is : List Item) : Wraps phase (.escape on) is is
  | trim (side : Trim) (is : List Item) : Wraps phase (.trim side) is is
  | attr (name start stop : Text) (is : List Item) :
    Wraps phase (.attr name) is (ofText start ++ is ++ ofText stop)
  | shortcut (name start stop : Text) (is : List Item) :
    Wraps phase (.shortcut name) is (ofText start ++ is ++ ofText stop)
  | comment (start stop : Text) (is : List Item) :
    Wraps phase .comment is (ofText start ++ is ++ ofText stop)
  | condComment (condition start stop : Text) (is : List Item) :
    Wraps phase (.condComment condition) is (ofText start ++ is ++ ofText stop)
  | suite {source : Text} (is : List Item) : Control.opensBlock source →
    Wraps phase (.control source) is [.suite (Control.suiteHeader source) is]
  | statement {source : Text} (is : List Item) : Control.opensBlock source = false →
    Wraps phase (.control source) is (.statement source :: is)
  | output (escaped : Bool) {source source' : Text} (is : List Item) :
    phase.Evaluates source source' →
    Wraps phase (.output escaped source) is (.output source' :: is)
  | captured (escaped : Bool) {source source' : Text} (temp : Text) (is : List Item) :
    phase.Evaluates source source' →
    Wraps phase (.output escaped source) is
      [.kept temp is, .statement (Control.captureName ++ " = " ++ temp), .output source']
  | capture (name : Text) (is : List Item) : Wraps phase (.capture name) is [.kept name is]

variable {is js : List Item}

theorem Leaf.Gives.earlier (leads : phase.LeadsTo phase') {l : Leaf}
    (gives : l.Gives phase' is) : l.Gives phase is := by
  cases gives with
  | newline => exact .newline
  | static puts => exact .static (puts.earlier leads)
  | dynamic evaluates => exact .dynamic (evaluates.earlier leads)
  | code => exact .code _
  | doctype => exact .doctype _ _
  | trim => exact .trim _

theorem Frame.Wraps.earlier (leads : phase.LeadsTo phase') {f : Frame}
    (wraps : f.Wraps phase' is js) : f.Wraps phase is js := by
  cases wraps with
  | output escaped is evaluates => exact .output escaped is (evaluates.earlier leads)
  | captured escaped temp is evaluates => exact .captured escaped temp is (evaluates.earlier leads)
  | suite is opens => exact .suite is opens
  | statement is plain => exact .statement is plain
  | escape => exact .escape _ _
  | trim => exact .trim _ _
  | attr => exact .attr _ _ _ _
  | shortcut => exact .shortcut _ _ _ _
  | comment => exact .comment _ _ _
  | condComment => exact .condComment _ _ _ _
  | capture => exact .capture _ _

theorem Frame.Wraps.inside {phase : Phase} {f : Frame} (wraps : f.Wraps phase is js) {i : Item}
    (inside : Item.Inside i is) : Item.Inside i js := by
  cases wraps with
  | escape | trim => exact inside
  | attr | shortcut | comment | condComment => exact inside.mono fun i mem => by simp [mem]
  | suite => exact .suite (mem_singleton_self _) inside
  | statement | output => exact inside.mono (subset_cons_self _ _)
  | captured => exact .kept (.head _) inside
  | capture => exact .kept (mem_singleton_self _) inside

namespace Node

mutual

/-- The items that a tree can give. -/
inductive Lowers (phase : Phase) : Node → List Item → Prop where
  | leaf {l : Leaf} {is : List Item} : l.Gives phase is → Lowers phase (.leaf l) is
  | text {text : Text} {n : Node} {is : List Item} :
    ofInterpolated text = .ok n → Lowers phase n is →
    Lowers phase (.interpolate text) is
  | frame {f : Frame} {inner : Node} {is js : List Item} :
    Lowers phase inner is → f.Wraps phase is js →
    Lowers phase (.frame f inner) js
  | embedded {name : Text} {body : Node} {is : List Item} : is.all Item.isShallow →
    Lowers phase (.embedded name body) is
  | seq {children : List Node} {is : List Item} :
    LowersAll phase children is → Lowers phase (.seq children) is
  | closed {name : Text} {entries : List Node} {is : List Item} (start stop : Text) :
    LowersList phase entries is →
    Lowers phase (.tag name entries none) (ofText start ++ is ++ ofText stop)
  | tag {name : Text} {entries : List Node} {body : Node} {is js : List Item}
    (start middle stop : Text) :
    LowersList phase entries is → Lowers phase body js →
    Lowers phase (.tag name entries (some body))
      (ofText start ++ is ++ ofText middle ++ js ++ ofText stop)

/-- The items that several trees can give. -/
inductive LowersAll (phase : Phase) : List Node → List Item → Prop where
  | nil : LowersAll phase [] []
  | suite {header : Text} {body : Node} {ns : List Node} {is js : List Item} :
    Lowers phase body is →
    LowersAll phase ns js → LowersAll phase (.code header :: .block body :: ns)
    (.suite header is :: js)
  | cons {n : Node} {ns : List Node} {is js : List Item} :
    Lowers phase n is → LowersAll phase ns js →
    LowersAll phase (n :: ns) (is ++ js)

/-- The items that an attribute list can give; only their shape is known before merging. -/
inductive LowersList (phase : Phase) : List Node → List Item → Prop where
  | read {entries : List Node} {is : List Item} : phase = .read → is.all Item.isShallow →
    LowersList phase entries is
  | merged {entries : List Node} {is : List Item} : phase ≠ .read → LowersAll phase entries is →
    LowersList phase entries is

end

/-- A step has made a tree with attached blocks of a node, with items that the node has. -/
structure Becomes (phase phase' : Phase) (list : List Node → Prop) (n n' : Node) : Prop where
  attached : Attached false list n'
  isBlock : n'.isBlock = n.isBlock
  code : ∀ header, n = .code header → n' = .code header
  inside : ∀ body body', n = .block body → n' = .block body' → ∀ is, Lowers phase' body' is →
    Lowers phase body is
  lowers : ∀ is, Lowers phase' n' is → Lowers phase n is

section Becomes

variable {phase phase' : Phase} {list : List Node → Prop}

variable {body : Node} {is : List Item} {ns entries entries' : List Node} {name text : Text}

theorem not_lowers_block : ¬Lowers phase (.block body) is := by
  intro lowers
  cases lowers with
  | frame _ wraps => nomatch wraps

theorem LowersAll.of_cons {n : Node} (lowers : LowersAll phase (n :: ns) is) (chain : chained ns) :
    ∃ js ks, is = js ++ ks ∧ Lowers phase n js ∧ LowersAll phase ns ks := by
  cases lowers with
  | suite => nomatch chain
  | cons first rest => exact ⟨_, _, rfl, first, rest⟩

theorem LowersAll.of_singleton {n : Node} (lowers : LowersAll phase [n] is) :
    Lowers phase n is := by
  obtain ⟨js, ks, rfl, here, rest⟩ := lowers.of_cons rfl
  cases rest
  rwa [append_nil]

theorem LowersAll.of_suite {header : Text}
    (lowers : LowersAll phase (.code header :: .block body :: ns) is) :
    ∃ js ks, is = .suite header js :: ks ∧ Lowers phase body js ∧ LowersAll phase ns ks := by
  cases lowers with
  | suite inside rest => exact ⟨_, _, rfl, inside, rest⟩
  | cons _ rest =>
    cases rest with
    | cons block _ => exact absurd block not_lowers_block

theorem LowersAll.of_append {ms : List Node} (chain : chained ms) :
    ∀ {ns : List Node} {is : List Item},
    LowersAll phase (ns ++ ms) is → ∃ js ks, is = js ++ ks ∧ LowersAll phase ns js ∧
    LowersAll phase ms ks
  | [], is, lowers => ⟨[], is, rfl, .nil, lowers⟩
  | n :: ns, _, lowers => by
    generalize whole : n :: ns ++ ms = all at lowers
    cases lowers with
    | nil => nomatch whole
    | suite body rest =>
      cases ns with
      | nil =>
        cases whole
        nomatch chain
      | cons m ns =>
        cases whole
        obtain ⟨js, ks, rfl, first, second⟩ := LowersAll.of_append chain rest
        exact ⟨_ :: js, ks, rfl, .suite body first, second⟩
    | cons here rest =>
      cases whole
      obtain ⟨js, ks, rfl, first, second⟩ := LowersAll.of_append chain rest
      exact ⟨_ ++ js, ks, (append_assoc ..).symm, .cons here first, second⟩

theorem Becomes.all :
    ∀ {ns ns' : List Node}, chained ns → List.Forall₂ (Becomes phase phase' list) ns ns' →
    chained ns' ∧ (∀ n ∈ ns', Attached false list n) ∧ ∀ is, LowersAll phase' ns' is →
    LowersAll phase ns is
  | [], _, _, each => by
    cases each
    refine ⟨rfl, nofun, ?_⟩
    rintro _ ⟨⟩
    exact .nil
  | n :: ns, n' :: ns', chain, each => by
    rw [forall₂_cons] at each
    rcases chained_cases chain with ⟨header, body, rest, rfl, rfl, ends, chain⟩ | ⟨other, chain⟩
    · cases ns' with
      | nil => nomatch each.2
      | cons m ns' =>
        obtain ⟨first, rest⟩ := each
        rw [forall₂_cons] at rest
        obtain ⟨second, rest⟩ := rest
        obtain ⟨chain', each, lowers⟩ := Becomes.all chain rest
        cases first.code header rfl
        obtain ⟨body', rfl⟩ := exists_of_isBlock second.isBlock
        refine ⟨?_, ?_, ?_⟩
        · rw [chained, ends, chain']
          rfl
        · exact forall_mem_cons.mpr ⟨first.attached, forall_mem_cons.mpr ⟨second.attached, each⟩⟩
        · intro is below
          obtain ⟨js, ks, rfl, inside, behind⟩ := below.of_suite
          exact .suite (second.inside body body' rfl rfl js inside) (lowers ks behind)
    · obtain ⟨chain', attached, lowers⟩ := Becomes.all chain each.2
      have first := each.1.isBlock.trans other
      refine ⟨chained_cons first chain', forall_mem_cons.mpr ⟨each.1.attached, attached⟩, ?_⟩
      intro is below
      obtain ⟨js, ks, rfl, here, behind⟩ := below.of_cons chain'
      exact .cons (each.1.lowers js here) (lowers ks behind)

theorem Becomes.trans {phase'' : Phase} {list' : List Node → Prop} {n m n' : Node}
    (first : Becomes phase phase' list n m) (rest : Becomes phase' phase'' list' m n') :
    Becomes phase phase'' list' n n' where
  attached := rest.attached
  isBlock := rest.isBlock.trans first.isBlock
  code header same := rest.code header (first.code header same)
  inside := by
    rintro body body' rfl rfl is lowers
    obtain ⟨middle, rfl⟩ := exists_of_isBlock first.isBlock
    exact first.inside body middle rfl rfl is (rest.inside middle body' rfl rfl is lowers)
  lowers is lowers := first.lowers is (rest.lowers is lowers)

variable (leads : phase.LeadsTo phase') {n n' : Node}

include leads

theorem Becomes.frame {f : Frame} (other : ∀ name, f ≠ .embedded name) (nested : n.isBlock = false)
    (inside : Becomes phase phase' list n n') :
    Becomes phase phase' list (.frame f n) (.frame f n') where
  attached := .frame other (inside.isBlock.trans nested) inside.attached
  isBlock := by
    cases f with
    | block => rfl
    | _ => rfl
  code := nofun
  inside := by
    rintro body body' ⟨⟩ ⟨⟩
    exact inside.lowers
  lowers := by
    intro is lowers
    cases lowers with
    | frame lowers wraps => exact .frame (inside.lowers _ lowers) (wraps.earlier leads)
    | embedded => exact absurd rfl (other _)

omit leads in
theorem Becomes.seq {ns' : List Node} (chain : chained ns)
    (each : List.Forall₂ (Becomes phase phase' list) ns ns') :
    Becomes phase phase' list (.seq ns) (.seq ns') where
  attached := .seq (Becomes.all chain each).1 (Becomes.all chain each).2.1
  isBlock := rfl
  code := nofun
  inside := nofun
  lowers := by
    intro is lowers
    cases lowers with
    | seq lowers => exact .seq ((Becomes.all chain each).2.2 is lowers)

omit leads in
theorem Becomes.closed (kept : list entries')
    (lists : ∀ is, LowersList phase' entries' is → LowersList phase entries is) :
    Becomes phase phase' list (.tag name entries none) (.tag name entries' none) where
  attached := .closed kept
  isBlock := rfl
  code := nofun
  inside := nofun
  lowers := by
    intro is lowers
    cases lowers with
    | closed start stop lowers => exact .closed start stop (lists _ lowers)

omit leads in
theorem Becomes.tag (kept : list entries')
    (lists : ∀ is, LowersList phase' entries' is → LowersList phase entries is)
    (nested : n.isBlock = false) (inside : Becomes phase phase' list n n') :
    Becomes phase phase' list (.tag name entries (some n)) (.tag name entries' (some n')) where
  attached := .tag kept (inside.isBlock.trans nested) inside.attached
  isBlock := rfl
  code := nofun
  inside := nofun
  lowers := by
    intro is lowers
    cases lowers with
    | tag start middle stop entries body =>
      exact .tag start middle stop (lists _ entries) (inside.lowers _ body)

theorem Becomes.plain {l : Leaf} (known : l ≠ .unknown) (plain : ∀ text, l ≠ .interpolate text) :
    Becomes phase phase' list (.leaf l) (.leaf l) where
  attached := .leaf known
  isBlock := rfl
  code := fun _ same => same
  inside := nofun
  lowers := by
    intro is lowers
    cases lowers with
    | leaf gives => exact .leaf (gives.earlier leads)
    | text => exact absurd rfl (plain _)

theorem Becomes.segment (segment : Interpolation.Segment) :
    Becomes phase phase' list segment.node segment.node := by
  cases segment with
  | literal text => exact .plain leads nofun nofun
  | code source =>
    obtain ⟨escaped, inside, same⟩ := Interpolation.node_code source
    rw [same]
    exact .frame leads nofun rfl (.seq rfl .nil)

omit leads in
theorem exists_of_ofInterpolated {n : Node} (expanded : ofInterpolated text = .ok n) :
    ∃ segments :
    List Interpolation.Segment, n = .seq (segments.map Interpolation.Segment.node) := by
  unfold ofInterpolated at expanded
  split at expanded
  next segments _ =>
    cases expanded
    exact ⟨segments, rfl⟩
  next => nomatch expanded

theorem Becomes.expanded (expanded : ofInterpolated text = .ok n) :
    Becomes phase phase' list n n := by
  obtain ⟨segments, rfl⟩ := exists_of_ofInterpolated expanded
  refine .seq (chained_of_forall ?_) (forall₂_same.mpr ?_)
  · intro n mem
    obtain ⟨segment, _, rfl⟩ := mem_map.mp mem
    cases segment with
    | literal text => rfl
    | code source =>
      obtain ⟨escaped, inside, same⟩ := Interpolation.node_code source
      rw [same]
      rfl
  · intro n mem
    obtain ⟨segment, _, rfl⟩ := mem_map.mp mem
    exact .segment leads segment

theorem expanded_lowers (expanded : ofInterpolated text = .ok n) (lowers : Lowers phase' n is) :
    Lowers phase n is :=
  have becomes : Becomes phase phase' (fun _ => True) n n := .expanded leads expanded
  becomes.lowers is lowers

theorem Becomes.leaf {l : Leaf} (known : l ≠ .unknown) :
    Becomes phase phase' list (.leaf l) (.leaf l) where
  attached := .leaf known
  isBlock := rfl
  code := fun _ same => same
  inside := nofun
  lowers := by
    intro is lowers
    cases lowers with
    | leaf gives => exact .leaf (gives.earlier leads)
    | text expanded lowers => exact .text expanded (expanded_lowers leads expanded lowers)

end Becomes

/-! ## Trees with only some items -/

/-- A tree that is no block and gives only items of some kind. -/
structure Shaped (phase : Phase) (list : List Node → Prop) (good : Item → Bool) (n : Node) :
    Prop where
  attached : Attached false list n
  isBlock : n.isBlock = false
  items : ∀ is, Lowers phase n is → is.all good

structure ShapedAll (phase : Phase) (list : List Node → Prop) (good : Item → Bool)
    (ns : List Node) : Prop where
  chain : chained ns
  attached : ∀ n ∈ ns, Attached false list n
  items : ∀ is, LowersAll phase ns is → is.all good

section Shaped

variable {phase : Phase} {list : List Node → Prop} {good : Item → Bool}

theorem ShapedAll.nil : ShapedAll phase list good [] where
  chain := rfl
  attached := nofun
  items := by
    rintro _ ⟨⟩
    rfl

variable {ns : List Node}

theorem ShapedAll.cons {n : Node} (here : Shaped phase list good n)
    (rest : ShapedAll phase list good ns) : ShapedAll phase list good (n :: ns) where
  chain := chained_cons here.isBlock rest.chain
  attached := forall_mem_cons.mpr ⟨here.attached, rest.attached⟩
  items := by
    intro is lowers
    obtain ⟨js, ks, rfl, first, behind⟩ := lowers.of_cons rest.chain
    rw [all_append, here.items js first, rest.items ks behind]
    rfl

theorem ShapedAll.of_forall (each : ∀ n ∈ ns, Shaped phase list good n) :
    ShapedAll phase list good ns := by
  induction ns with
  | nil => exact .nil
  | cons n ns ih =>
    rw [forall_mem_cons] at each
    exact .cons each.1 (ih each.2)

theorem ShapedAll.append {ms : List Node} (first : ShapedAll phase list good ns)
    (rest : ShapedAll phase list good ms) : ShapedAll phase list good (ns ++ ms) where
  chain := chained_append first.chain rest.chain
  attached := forall_mem_append.mpr ⟨first.attached, rest.attached⟩
  items := by
    intro is lowers
    obtain ⟨js, ks, rfl, here, behind⟩ := lowers.of_append rest.chain
    rw [all_append, first.items js here, rest.items ks behind]
    rfl

theorem ShapedAll.suite {header : Text} {body : Node} (ends : Text.endsWith ':' header)
    (inside : Shaped phase list Item.isPlain body) (rest : ShapedAll phase list Item.isShallow ns) :
    ShapedAll phase list Item.isShallow (.code header :: .block body :: ns) where
  chain := by
    rw [chained, ends, rest.chain]
    rfl
  attached := forall_mem_cons.mpr ⟨.leaf nofun,
    forall_mem_cons.mpr ⟨.frame nofun inside.isBlock inside.attached, rest.attached⟩⟩
  items := by
    intro is lowers
    obtain ⟨js, ks, rfl, here, behind⟩ := lowers.of_suite
    rw [all_cons, Item.isShallow, inside.items js here, rest.items ks behind]
    rfl

theorem Shaped.seq {children : List Node} (each : ShapedAll phase list good children) :
    Shaped phase list good (.seq children) where
  attached := .seq each.chain each.attached
  isBlock := rfl
  items := by
    intro is lowers
    cases lowers with
    | seq lowers => exact each.items is lowers

theorem Shaped.escape (on : Bool) {n : Node} (inside : Shaped phase list good n) :
    Shaped phase list good (.escape on n) where
  attached := .frame nofun inside.isBlock inside.attached
  isBlock := rfl
  items := by
    intro is lowers
    cases lowers with
    | frame lowers wraps =>
      cases wraps
      exact inside.items is lowers

theorem Shaped.leaf {l : Leaf} (known : l ≠ .unknown) (plain : ∀ text, l ≠ .interpolate text)
    (gives : ∀ is, l.Gives phase is → is.all good) : Shaped phase list good (.leaf l) where
  attached := .leaf known
  isBlock := rfl
  items := by
    intro is lowers
    cases lowers with
    | leaf here => exact gives is here
    | text => exact absurd rfl (plain _)

end Shaped

theorem all_isPlain_ofText (text : Text) : (ofText text).all Item.isPlain := by
  simp [ofText, Item.isPlain]

theorem Shaped.shallow {phase : Phase} {list : List Node → Prop} {n : Node}
    (shaped : Shaped phase list Item.isPlain n) : Shaped phase list Item.isShallow n where
  attached := shaped.attached
  isBlock := shaped.isBlock
  items := by
    intro is lowers
    refine all_eq_true.mpr fun i mem => ?_
    have plain := all_eq_true.mp (shaped.items is lowers) i mem
    cases i with
    | char | output => rfl
    | _ => nomatch plain

end Node

end MarkupTemplate
