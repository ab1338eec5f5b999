import MarkupTemplate.Failure
import MarkupTemplate.Text.Word

/-!
# Trees with control lines as statements

A control line becomes a statement. If the statement introduces indented ones, it is completed by a
colon and what is nested below the line becomes its block; otherwise that simply follows.

An output line becomes a dynamic output. If lines are nested below it, they are captured first and
the capture is bound to the name `block`, so that the code of the line can use it, unless captures
are switched off.
-/

namespace MarkupTemplate

namespace Control

/-- The words that start a header. -/
def keywords : List Text :=
  ["async", "class", "case", "def", "elif", "else", "except", "finally", "for", "if", "match",
   "try", "while", "with"].map String.toList

/-- The first word of a code. -/
def firstWord (code : Text) : Text :=
  (Text.trimLeft code).takeWhile Text.isWord

/-- Whether a code needs statements below it. -/
def opensBlock (code : Text) : Bool :=
  Text.endsWith ':' (Text.trimRight code) || keywords.contains (firstWord code)

/-- A code as a header. -/
def suiteHeader (code : Text) : Text :=
  let code := Text.trimRight code
  if Text.endsWith ':' code then code else code ++ [':']

/-- The name that the lines nested below an output line are bound to. -/
def captureName : Text := "block"

/-- The name of a temporary. -/
def tempName (n : Nat) : Text :=
  "_hamlc_controlstructures" ++ Text.ofNat n

end Control

namespace Node

/-- The dynamic output of a code; without escaping it is marked so. -/
def putOut (escaped : Bool) (source : Text) : Node :=
  if escaped then .dynamic source else .escape false (.dynamic source)

/-- The parts of a control line whose nested lines are already dealt with. -/
def statement (source : Text) (body : Node) : Node :=
  if Control.opensBlock source then
    .seq [.code (Control.suiteHeader source), .block body]
  else .seq [.code source, body]

/-- An output with a captured block. -/
def captured (escaped : Bool) (source temp : Text) (body : Node) : Node :=
  .seq [.capture temp body, .code (Control.captureName ++ " = " ++ temp),
    putOut escaped source]

mutual

/-- The tree with its control and output lines as statements. `used` is the number of variables
used so far; a variable is numbered before those inside its capture. -/
def controlled (noCapture : Bool) : (used : Nat) → Node → Except Failure (Node × Nat)
  | _, .leaf .unknown => .error .unknownNode
  | used, .leaf l => .ok (.leaf l, used)
  | used, .frame (.control source) body => do
    let (body, used) ← controlled noCapture used body
    return (statement source body, used)
  | used, .frame (.output escaped source) body =>
    if body.isEmpty || noCapture then do
      let (body, used) ← controlled noCapture used body
      return (.seq [putOut escaped source, body], used)
    else do
      let (body, last) ← controlled noCapture (used + 1) body
      return (captured escaped source (Control.tempName (used + 1)) body, last)
  | used, .frame f inner => do
    let (inner, used) ← controlled noCapture used inner
    return (.frame f inner, used)
  | used, .group g children => do
    let (children, used) ← controlledAll noCapture used children
    return (.group g children, used)
  | used, .tag name entries none => do
    let (entries, used) ← controlledAll noCapture used entries
    return (.tag name entries none, used)
  | used, .tag name entries (some body) => do
    let (entries, used) ← controlledAll noCapture used entries
    let (body, used) ← controlled noCapture used body
    return (.tag name entries (some body), used)

/-- The same for a list of trees. -/
def controlledAll (noCapture : Bool) : (used : Nat) → List Node → Except Failure (List Node × Nat)
  | used, [] => .ok ([], used)
  | used, n :: ns => do
    let (n, used) ← controlled noCapture used n
    let (ns, used) ← controlledAll noCapture used ns
    return (n :: ns, used)

end

end Node

end MarkupTemplate
