import MarkupTemplate.Text.Basic

/-!
# Template trees

A template is held as one tree from the moment its lines are read until program statements are
written for it. Reading produces nodes for what the template says: tags, attributes, comments,
text with interpolated code, control lines, embedded blocks. Each later step replaces some of
these kinds by simpler ones, until only the *core* kinds are left: sequences, static text, dynamic
output, code, line marks, indented blocks and captures.

The kinds fall into four shapes, and most steps treat a whole shape alike:

* a `Leaf` has no node inside it;
* a `Frame` stands around exactly one node;
* a `Group` holds a list of nodes;
* a tag holds a list of attribute entries and perhaps a body.

Line marks (`Node.newline`) carry no output. They stand where a line of the template ended, so
that every statement of the generated program can be traced to its line.
-/

namespace MarkupTemplate

/-! ## The kinds of nodes -/

/-- Which blanks around a tag are left out when markup is laid out over several lines. -/
inductive Trim where
  | inner
  | outer
  /-- Any other word; it acts like `outer`. -/
  | other (word : Text)
deriving DecidableEq, Repr

/-- Nodes without a node inside. -/
inductive Leaf where
  /-- A node no step knows how to handle. -/
  | unknown
  /-- The end of a template line. -/
  | newline
  | static (text : Text)
  | dynamic (code : Text)
  | code (text : Text)
  | doctype (kind : Text)
  | interpolate (text : Text)
  | value (escape : Bool) (code : Text)
  | trim (side : Trim)
deriving DecidableEq, Repr

/-- What may stand around a node. -/
inductive Frame where
  | escape (on : Bool)
  | attr (name : Text)
  /-- An attribute given by a shortcut such as `#main`. -/
  | shortcut (name : Text)
  | comment
  /-- A comment in the markup that some readers take as markup. -/
  | condComment (condition : Text)
  | control (code : Text)
  /-- Code whose value is put out, and the lines nested below it. -/
  | output (escape : Bool) (code : Text)
  | embedded (name : Text)
  /-- The indented statements below a statement that needs some. -/
  | block
  /-- Output that is kept in a variable. -/
  | capture (name : Text)
  | trim (side : Trim)
deriving DecidableEq, Repr

/-- What may hold a list of nodes. -/
inductive Group where
  | seq
  | attrs
deriving DecidableEq, Repr

/-- A template tree. -/
inductive Node where
  | leaf (l : Leaf)
  | frame (f : Frame) (inner : Node)
  | group (g : Group) (children : List Node)
  /-- An element with its attribute entries; without a body it is closed in the template. -/
  | tag (name : Text) (entries : List Node) (body : Option Node)
deriving Repr, Inhabited

namespace Node

/-! ## Kinds by name -/

/-- A node without a rule. -/
@[match_pattern] abbrev unknown : Node := .leaf .unknown

/-- A line mark. -/
@[match_pattern] abbrev newline : Node := .leaf .newline

/-- Text that is put out as it is. -/
@[match_pattern] abbrev static (text : Text) : Node := .leaf (.static text)

/-- The value of a code. -/
@[match_pattern] abbrev dynamic (code : Text) : Node := .leaf (.dynamic code)

/-- A statement. -/
@[match_pattern] abbrev code (text : Text) : Node := .leaf (.code text)

/-- A document type. -/
@[match_pattern] abbrev doctype (kind : Text) : Node := .leaf (.doctype kind)

/-- Text that may hold code. -/
@[match_pattern] abbrev interpolate (text : Text) : Node := .leaf (.interpolate text)

/-- The value of an attribute given by code. -/
@[match_pattern] abbrev value (escape : Bool) (code : Text) : Node := .leaf (.value escape code)

/-- A switch of escaping. -/
@[match_pattern] abbrev escape (on : Bool) (inner : Node) : Node := .frame (.escape on) inner

/-- An attribute. -/
@[match_pattern] abbrev attr (name : Text) (value : Node) : Node := .frame (.attr name) value

/-- An attribute given by a shortcut. -/
@[match_pattern] abbrev shortcut (name : Text) (value : Node) : Node :=
  .frame (.shortcut name) value

/-- A comment. -/
@[match_pattern] abbrev comment (inner : Node) : Node := .frame .comment inner

/-- A conditional comment. -/
@[match_pattern] abbrev condComment (condition : Text) (inner : Node) : Node :=
  .frame (.condComment condition) inner

/-- A control line. -/
@[match_pattern] abbrev control (code : Text) (body : Node) : Node := .frame (.control code) body

/-- An output line. -/
@[match_pattern] abbrev output (escape : Bool) (code : Text) (body : Node) : Node :=
  .frame (.output escape code) body

/-- An embedded block. -/
@[match_pattern] abbrev embedded (name : Text) (body : Node) : Node := .frame (.embedded name) body

/-- Indented statements. -/
@[match_pattern] abbrev block (body : Node) : Node := .frame .block body

/-- Output kept under a name. -/
@[match_pattern] abbrev capture (name : Text) (body : Node) : Node := .frame (.capture name) body

/-- A tag with trimmed line breaks. -/
@[match_pattern] abbrev trim (side : Trim) (inner : Node) : Node := .frame (.trim side) inner

/-- Nodes one after the other. -/
@[match_pattern] abbrev seq (children : List Node) : Node := .group .seq children

/-- An attribute list. -/
@[match_pattern] abbrev attrs (entries : List Node) : Node := .group .attrs entries

/-! ## Equality -/

mutual

/-- Decides whether trees are equal. -/
def decEq : (a b : Node) → Decidable (a = b)
  | .leaf l, .leaf m =>
    if h : l = m then isTrue (h ▸ rfl) else isFalse fun e => h (Node.leaf.inj e)
  | .frame f m, .frame g n =>
    if h : f = g then
      match decEq m n with
      | isTrue hn => isTrue (h ▸ hn ▸ rfl)
      | isFalse hn => isFalse fun e => hn (Node.frame.inj e).2
    else isFalse fun e => h (Node.frame.inj e).1
  | .group g ms, .group k ns =>
    if h : g = k then
      match decEqList ms ns with
      | isTrue hs => isTrue (h ▸ hs ▸ rfl)
      | isFalse hs => isFalse fun e => hs (Node.group.inj e).2
    else isFalse fun e => h (Node.group.inj e).1
  | .tag n ms none, .tag k ns none =>
    if h : n = k then
      match decEqList ms ns with
      | isTrue hs => isTrue (h ▸ hs ▸ rfl)
      | isFalse hs => isFalse fun e => hs (Node.tag.inj e).2.1
    else isFalse fun e => h (Node.tag.inj e).1
  | .tag n ms (some a), .tag k ns (some b) =>
    if h : n = k then
      match decEqList ms ns, decEq a b with
      | isTrue hs, isTrue hb => isTrue (h ▸ hs ▸ hb ▸ rfl)
      | isFalse hs, _ => isFalse fun e => hs (Node.tag.inj e).2.1
      | _, isFalse hb => isFalse fun e => hb (Option.some.inj (Node.tag.inj e).2.2)
    else isFalse fun e => h (Node.tag.inj e).1
  | .tag _ _ none, .tag _ _ (some _) => isFalse fun e => nomatch (Node.tag.inj e).2.2
  | .tag _ _ (some _), .tag _ _ none => isFalse fun e => nomatch (Node.tag.inj e).2.2
  | .leaf _, .frame _ _ => isFalse fun e => nomatch e
  | .leaf _, .group _ _ => isFalse fun e => nomatch e
  | .leaf _, .tag _ _ _ => isFalse fun e => nomatch e
  | .frame _ _, .leaf _ => isFalse fun e => nomatch e
  | .frame _ _, .group _ _ => isFalse fun e => nomatch e
  | .frame _ _, .tag _ _ _ => isFalse fun e => nomatch e
  | .group _ _, .leaf _ => isFalse fun e => nomatch e
  | .group _ _, .frame _ _ => isFalse fun e => nomatch e
  | .group _ _, .tag _ _ _ => isFalse fun e => nomatch e
  | .tag _ _ _, .leaf _ => isFalse fun e => nomatch e
  | .tag _ _ _, .frame _ _ => isFalse fun e => nomatch e
  | .tag _ _ _, .group _ _ => isFalse fun e => nomatch e

/-- The same for lists of trees. -/
def decEqList : (as bs : List Node) → Decidable (as = bs)
  | [], [] => isTrue rfl
  | [], _ :: _ => isFalse fun e => nomatch e
  | _ :: _, [] => isFalse fun e => nomatch e
  | a :: as, b :: bs =>
    match decEq a b, decEqList as bs with
    | isTrue h, isTrue hs => isTrue (h ▸ hs ▸ rfl)
    | isFalse h, _ => isFalse fun e => h (List.cons.inj e).1
    | _, isFalse hs => isFalse fun e => hs (List.cons.inj e).2

end

/-- Trees can be compared. -/
instance : DecidableEq Node := decEq

/-! ## Emptiness -/

mutual

/-- Whether a node produces nothing but line marks. -/
def isEmpty : Node → Bool
  | .leaf l => l == .newline
  | .frame _ _ => false
  | .group .seq children => allEmpty children
  | .group .attrs _ => false
  | .tag _ _ _ => false

/-- Whether all nodes are empty. -/
def allEmpty : List Node → Bool
  | [] => true
  | n :: ns => isEmpty n && allEmpty ns

end

end Node

end MarkupTemplate
