import MarkupTemplate.Failure
import MarkupTemplate.Line.Fault
import MarkupTemplate.Options.Build
import MarkupTemplate.Text.Decode

/-!
# Errors

All that can go wrong from reading options and a template to running its program.
-/

namespace MarkupTemplate

/-- Why a program stops. -/
inductive RunError where
  | unbound (name : Text)
  | wrongType
  | notRunnable (code : Text)
deriving DecidableEq, Repr

/-- The files beside a template. -/
inductive SideFile where
  | options
  | locals
deriving DecidableEq, Repr

/-- The word for a file. -/
def SideFile.word : SideFile → Text
  | .options => "Options"
  | .locals => "Locals"

/-- All that can go wrong. -/
inductive Error where
  | template (report : Report)
  | step (failure : Failure)
  | options (faults : List OptionFault)
  | unknownEncoding (name : Text)
  | undecodable (encoding : Text) (refusal : Encoding.Refusal)
  | fileNotFound (file : SideFile) (path : Text)
  | notMapping (file : SideFile) (path : Text)
  /-- A file names something by a value that is not a text. -/
  | badName
  | directory (path : Text)
  | notText (path : Text)
  /-- Tab stops are too far apart for the indentation of a line to be measured. -/
  | tabOverflow
  | run (error : RunError)
deriving DecidableEq

/-- The message for a stopped program. -/
def RunError.message : RunError → Text
  | .unbound name => "name '" ++ name ++ "' is not defined"
  | .wrongType => "wrong type of value"
  | .notRunnable code => "cannot run " ++ code

/-- The message for an error. -/
def Error.message : Error → Text
  | .template report => report.text
  | .step failure => failure.message
  | .options faults =>
    "Invalid options: " ++ Text.joinWith "; "
      (faults.map fun fault => fault.location ++ ' ' :: fault.kind.word)
  | .unknownEncoding name => "Unknown encoding " ++ name
  | .undecodable encoding refusal =>
    "Template source is not valid " ++ encoding ++ ": " ++ refusal.reason.message
      ++ " at byte " ++ Text.ofNat refusal.offset
  | .fileNotFound file path => file.word ++ " file not found: " ++ path
  | .notMapping file path => file.word ++ " file must contain a mapping: " ++ path
  | .badName => "a name is not a text"
  | .directory path => "Is a directory: " ++ path
  | .notText path => "Not a text: " ++ path
  | .tabOverflow => "tab stops are too far apart"
  | .run error => error.message

end MarkupTemplate
