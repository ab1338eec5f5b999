import MarkupTemplate.Node.Basic
import MarkupTemplate.Text.Quoted

/-!
# Kinds and fields

Outside the library a node is known by the name of its kind and by labelled fields, in error
messages and in tree dumps.
-/

namespace MarkupTemplate

/-- A field that is no node. -/
inductive Scalar where
  | text (t : Text)
  | flag (b : Bool)
  | nothing
deriving DecidableEq, Repr

/-- The word for a trim. -/
def Trim.word : Trim → Text
  | .inner => "inner"
  | .outer => "outer"
  | .other word => word

/-- The trim for a word. -/
def Trim.ofWord (word : Text) : Trim :=
  if word = "inner" then .inner
  else if word = "outer" then .outer
  else .other word

/-- The name of a kind of leaf. -/
def Leaf.kind : Leaf → Text
  | .unknown => "Node"
  | .newline => "Newline"
  | .static _ => "Static"
  | .dynamic _ => "Dynamic"
  | .code _ => "Code"
  | .doctype _ => "HtmlDoctype"
  | .interpolate _ => "Interpolate"
  | .value _ _ => "AttrValue"
  | .trim _ => "Whitespace"

/-- The fields of a leaf. -/
def Leaf.scalars : Leaf → List (Text × Scalar)
  | .unknown => []
  | .newline => []
  | .static text => [("text", .text text)]
  | .dynamic source => [("code", .text source)]
  | .code source => [("code", .text source)]
  | .doctype word => [("kind", .text word)]
  | .interpolate text => [("text", .text text)]
  | .value escaped source => [("escape", .flag escaped), ("code", .text source)]
  | .trim side => [("kind", .text side.word), ("inner", .nothing)]

namespace Frame

/-- The name of a kind of frame. -/
def kind : Frame → Text
  | .escape _ => "Escape"
  | .attr _ => "HtmlAttr"
  | .shortcut _ => "ShortAttr"
  | .comment => "HtmlComment"
  | .condComment _ => "HtmlCondComment"
  | .control _ => "Control"
  | .output _ _ => "Output"
  | .embedded _ => "Embedded"
  | .block => "Block"
  | .capture _ => "Capture"
  | .trim _ => "Whitespace"

/-- The fields of a frame. -/
def scalars : Frame → List (Text × Scalar)
  | .escape on => [("flag", .flag on)]
  | .attr name => [("name", .text name)]
  | .shortcut name => [("name", .text name)]
  | .comment => []
  | .condComment condition => [("condition", .text condition)]
  | .control source => [("code", .text source)]
  | .output escaped source => [("escape", .flag escaped), ("code", .text source)]
  | .embedded name => [("name", .text name)]
  | .block => []
  | .capture name => [("name", .text name)]
  | .trim side => [("kind", .text side.word)]

/-- The label of what is inside a frame. -/
def label : Frame → Text
  | .escape _ | .comment | .condComment _ | .trim _ => "inner"
  | .attr _ | .shortcut _ => "value"
  | .control _ | .output _ _ | .embedded _ | .block | .capture _ => "body"

end Frame

/-- The name of a kind of group. -/
def Group.kind : Group → Text
  | .seq => "Multi"
  | .attrs => "HtmlAttrs"

/-- The label of the nodes of a group. -/
def Group.label : Group → Text
  | .seq => "children"
  | .attrs => "entries"

/-! ## Descriptions

An error about a node shows the whole node: texts as string literals, lists between square brackets.
-/

/-- Describes a field. -/
def Scalar.describe : Scalar → Text
  | .text t => Text.quote t
  | .flag true => "True"
  | .flag false => "False"
  | .nothing => "None"

namespace Node

/-- Describes a node by its fields. -/
def describeWith (kind : Text) (fields : List (Text × Text)) : Text :=
  kind ++ "("
    ++ Text.joinWith ", " (fields.map fun (label, field) => label ++ "=" ++ field)
    ++ ")"

/-- Describes a list. -/
def describeList (items : List Text) : Text :=
  "[" ++ Text.joinWith ", " items ++ "]"

/-- Describes fields. -/
def describeScalars (fields : List (Text × Scalar)) : List (Text × Text) :=
  fields.map fun (label, field) => (label, field.describe)

/-- Describes a tag. -/
def describeTag (name : Text) (entries : List Text) (body : Text) : Text :=
  describeWith "HtmlTag"
    [("name", Text.quote name),
     ("attrs",
      describeWith Group.attrs.kind [(Group.attrs.label, describeList entries)]),
     ("body", body)]

mutual

/-- Describes a node. -/
def describe : Node → Text
  | .leaf l => describeWith l.kind (describeScalars l.scalars)
  | .frame f inner =>
    describeWith f.kind (describeScalars f.scalars ++ [(f.label, describe inner)])
  | .group g children =>
    describeWith g.kind [(g.label, describeList (describeAll children))]
  | .tag name entries none => describeTag name (describeAll entries) "None"
  | .tag name entries (some body) => describeTag name (describeAll entries) (describe body)

/-- Describes nodes. -/
def describeAll : List Node → List Text
  | [] => []
  | n :: ns => describe n :: describeAll ns

end

end Node

/-! ## Tree dumps

A tree is dumped as one line of JSON without blanks: every node is an object whose first member
names its kind. Characters outside ASCII stand as themselves.
-/

namespace Json

/-- A character in a JSON string. -/
def stringChar (c : Char) : Text :=
  if c = '"' || c = '\\' then ['\\', c]
  else if c = '\n' then ['\\', 'n']
  else if c = '\r' then ['\\', 'r']
  else if c = '\t' then ['\\', 't']
  else if c = '\x08' then ['\\', 'b']
  else if c = '\x0c' then ['\\', 'f']
  else if c.toNat < 0x20 then ['\\', 'u'] ++ Text.hex 4 c.toNat
  else [c]

/-- A JSON string. -/
def string (t : Text) : Text :=
  "\"" ++ t.flatMap stringChar ++ "\""

/-- A JSON array. -/
def array (items : List Text) : Text :=
  "[" ++ Text.joinWith "," items ++ "]"

/-- A JSON object. -/
def object (members : List (Text × Text)) : Text :=
  "\x7b"
    ++ Text.joinWith "," (members.map fun (key, value) => string key ++ ":" ++ value)
    ++ "\x7d"

end Json

/-- Dumps a field. -/
def Scalar.json : Scalar → Text
  | .text t => Json.string t
  | .flag true => "true"
  | .flag false => "false"
  | .nothing => "null"

namespace Node

/-- Dumps a node by its fields. -/
def jsonWith (kind : Text) (members : List (Text × Text)) : Text :=
  Json.object (("type", Json.string kind) :: members)

/-- Dumps fields. -/
def jsonScalars (fields : List (Text × Scalar)) : List (Text × Text) :=
  fields.map fun (label, field) => (label, field.json)

/-- Dumps a tag. -/
def jsonTag (name : Text) (entries : List Text) (body : Text) : Text :=
  jsonWith "HtmlTag"
    [("name", Json.string name),
     ("attrs", jsonWith Group.attrs.kind [(Group.attrs.label, Json.array entries)]),
     ("body", body)]

mutual

/-- Dumps a tree. -/
def json : Node → Text
  | .leaf l => jsonWith l.kind (jsonScalars l.scalars)
  | .frame f inner => jsonWith f.kind (jsonScalars f.scalars ++ [(f.label, json inner)])
  | .group g children => jsonWith g.kind [(g.label, Json.array (jsonAll children))]
  | .tag name entries none => jsonTag name (jsonAll entries) "null"
  | .tag name entries (some body) => jsonTag name (jsonAll entries) (json body)

/-- Dumps trees. -/
def jsonAll : List Node → List Text
  | [] => []
  | n :: ns => json n :: jsonAll ns

end

end Node

end MarkupTemplate
