import MarkupTemplate.Node.Fields
import MarkupTemplate.Options.Basic

/-!
# Failures of a step

A step on a template tree can fail because of a node it has no rule for, because of text it cannot
take apart, or because of an embedded block it cannot render.
-/

namespace MarkupTemplate

/-- Why a step fails. -/
inductive Failure where
  | unknownNode
  /-- Program statements are written for core nodes only; this is another one, or none. -/
  | notCore (node? : Option Node)
  | notAttribute (node : Node)
  | unclosedInterpolation
  /-- The stand-in with this number for interpolated output is missing from rendered text. -/
  | lostOutput (index : Nat)
  | invalidDoctype (format : Format) (kind : Text)
  | engineDisabled (name : Text)
  | engineNotFound (name : Text)
  | engineAbstract
  /-- The embedded engine is to write an element but has no name for it. -/
  | engineWithoutTag
deriving DecidableEq

/-- The stand-in for an output. -/
def Failure.standIn (index : Nat) : Text :=
  "pro" ++ Text.ofNat index ++ "tect"

/-- The message for a failure. -/
def Failure.message : Failure → Text
  | .unknownNode => "Unknown expression " ++ Node.unknown.describe
  | .notCore node? =>
    "Generator supports only core expressions, got "
      ++ node?.elim "None".toList Node.describe
  | .notAttribute node => "Attribute is not an html attribute: " ++ node.describe
  | .unclosedInterpolation => "Text interpolation: Expected closing \x7d"
  | .lostOutput index => "Embedded engine lost interpolated output " ++ standIn index
  | .invalidDoctype format kind =>
    "Invalid " ++ format.word ++ " doctype " ++ kind
  | .engineDisabled name => "Embedded engine " ++ name ++ " is disabled"
  | .engineNotFound name => "Embedded engine " ++ name ++ " not found"
  | .engineAbstract => []
  | .engineWithoutTag => []

end MarkupTemplate
