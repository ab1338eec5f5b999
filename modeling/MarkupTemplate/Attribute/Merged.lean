import MarkupTemplate.Attribute.Entry

/-!
# Merged attributes

Values of some attributes are joined into one, with a delimiter between those that are not empty; an
attribute without any such value is left out. If all values are known in advance the joined text is
written into the tree, otherwise the program joins them.

A code that is the only value of any other attribute decides whether the attribute is there: if it
is true the value is the attribute's own name, if it is false or nothing the attribute is left out.
-/

namespace MarkupTemplate

namespace Attribute

/-- The words for an attribute that is there. -/
def trueWords : List Text :=
  ["True", "true"]

/-- The words for one that is not. -/
def falseWords : List Text :=
  ["False", "false", "None", "nil"]

/-- The name of a temporary. -/
def tempName (n : Nat) : Text :=
  "_hamlc_codeattributes" ++ Text.ofNat n

/-- The header that tests a variable for words. -/
def wordTest (keyword temp : Text) (words : List Text) : Text :=
  keyword ++ " str(" ++ temp ++ ") in ("
    ++ Text.joinWith ", " (words.map Text.quote) ++ "):"

/-- Decides about an attribute while running. -/
def decided (name : Text) (escaped : Bool) (source temp : Text) : Node :=
  .seq [
    .code (temp ++ " = " ++ source),
    .code (wordTest "if" temp trueWords),
    .block (.attr name (.static name)),
    .code (wordTest "elif" temp falseWords),
    .block (.seq []),
    .code "else:",
    .block (.attr name (.escape escaped (.dynamic temp)))]

/-- The node for a value that is not joined. -/
def single (name : Text) (used : Nat) : Node → Node × Nat
  | .leaf (.value escaped source) =>
    let word := Text.trim source
    if trueWords.contains word then (.attr name (.static name), used)
    else if falseWords.contains word then (.seq [], used)
    else (decided name escaped source (tempName (used + 1)), used + 1)
  | value => (.attr name value, used)

/-- The nodes for values that are not joined. -/
def singles (name : Text) : (used : Nat) → List Node → List Node × Nat
  | used, [] => ([], used)
  | used, value :: values =>
    let (n, used) := single name used value
    let (ns, used) := singles name used values
    (n :: ns, used)

/-- The texts of values, if all are known. -/
def staticTextsOf? : List Node → Option (List Text)
  | [] => some []
  | value :: values =>
    match staticText? value, staticTextsOf? values with
    | some text, some texts => some (text :: texts)
    | _, _ => none

/-- Texts joined with a delimiter between those that are not empty. -/
def joinTexts (delimiter : Text) (texts : List Text) : Text :=
  Text.joinWith delimiter (texts.filter (!·.isEmpty))

/-- The captures and arguments for values to join. -/
def mergeParts : (used : Nat) → List Node → List Node × List Text × Nat
  | used, [] => ([], [], used)
  | used, value :: values =>
    match staticText? value, value with
    | some text, _ =>
      let (captures, parts, last) := mergeParts used values
      (captures, ("_hamlc_markup(" ++ Text.quote text ++ ")") :: parts, last)
    | none, .leaf (.value _ source) =>
      let (captures, parts, last) := mergeParts used values
      (captures, ("(" ++ source ++ ")") :: parts, last)
    | none, value =>
      let temp := tempName (used + 1)
      let (captures, parts, last) := mergeParts (used + 1) values
      (.capture temp value :: captures, temp :: parts, last)

/-- The statement that joins values. -/
def joinStatement (temp delimiter : Text) (parts : List Text) : Text :=
  temp ++ " = _hamlc_join_attr(" ++ Text.quote delimiter ++ ", ["
    ++ Text.joinWith ", " parts ++ "])"

/-- Joins values while running. -/
def joined (name delimiter : Text) (used : Nat) (values : List Node) : Node × Nat :=
  let (captures, parts, last) := mergeParts used values
  let temp := tempName (last + 1)
  (.seq (captures ++ [
    .code (joinStatement temp delimiter parts),
    .code ("if " ++ temp ++ ":"),
    .block (.attr name (.escape false (.dynamic temp)))]), last + 1)

/-- The node for values that are joined. -/
def merge (name delimiter : Text) (used : Nat) (values : List Node) : Node × Nat :=
  match staticTextsOf? values with
  | some texts =>
    let text := joinTexts delimiter texts
    (if text.isEmpty then .seq [] else .attr name (.static text), used)
  | none => joined name delimiter used values

/-- The delimiter of a name that is joined. -/
def delimiterFor? (o : Options) (entries : List Entry) (name : Text) : Option Text :=
  match o.delimiter? name with
  | some delimiter => some delimiter
  | none => if entries.any fun e => e.isShortcut && e.name == name then some [] else none

/-- Merges the values of each name. -/
def mergeGroups (delimiter? : Text → Option Text) :
    (used : Nat) → List (Text × List Node) → List Node × Nat
  | used, [] => ([], used)
  | used, (name, values) :: groups =>
    let (first, used) := match delimiter? name with
      | some delimiter => let (n, used) := merge name delimiter used values; ([n], used)
      | none => singles name used values
    let (rest, used) := mergeGroups delimiter? used groups
    (first ++ rest, used)

/-- Merges attributes. -/
def mergeEntries (o : Options) (used : Nat) (entries : List Entry) : List Node × Nat :=
  mergeGroups (delimiterFor? o entries) used (groups entries)

/-- Merges the nodes of an attribute list. -/
def mergeList (o : Options) (used : Nat) (entries : List Node) :
    Except Failure (List Node × Nat) := do
  let entries ← Entry.ofNodes entries
  return mergeEntries o used entries

end Attribute

namespace Node

mutual

/-- The tree with its attributes merged. -/
def attributed (o : Options) : (used : Nat) → Node → Except Failure (Node × Nat)
  | _, .leaf .unknown => .error .unknownNode
  | used, .leaf l => .ok (.leaf l, used)
  | used, .frame f inner => do
    let (inner, used) ← attributed o used inner
    return (.frame f inner, used)
  | used, .group .seq children => do
    let (children, used) ← attributedAll o used children
    return (.group .seq children, used)
  | used, .group .attrs entries => do
    let (entries, used) ← Attribute.mergeList o used entries
    return (.group .attrs entries, used)
  | used, .tag name entries none => do
    let (entries, used) ← Attribute.mergeList o used entries
    return (.tag name entries none, used)
  | used, .tag name entries (some body) => do
    let (entries, used) ← Attribute.mergeList o used entries
    let (body, used) ← attributed o used body
    return (.tag name entries (some body), used)

/-- The same for a list of trees. -/
def attributedAll (o : Options) : (used : Nat) → List Node → Except Failure (List Node × Nat)
  | used, [] => .ok ([], used)
  | used, n :: ns => do
    let (n, used) ← attributed o used n
    let (ns, used) ← attributedAll o used ns
    return (n :: ns, used)

end

end Node

end MarkupTemplate
