import MarkupTemplate.Error
import MarkupTemplate.Yaml

/-!
# Options and variables from files

Files beside a template give options and variables by name. A file that is missing, or that is no
mapping, is an error that names the file.
-/

namespace MarkupTemplate

/-- The entries of a file. -/
def SideFile.entries (file : SideFile) (path : Text) (content? : Option Text) :
    Except Error (List (Value × Value)) :=
  match content? with
  | none => .error (.fileNotFound file path)
  | some content =>
    match (Yaml.read content).mapping? with
    | some entries => .ok entries
    | none => .error (.notMapping file path)

/-- Values under names that are all texts; the last value of a name counts. -/
def Options.Given.ofEntries (entries : List (Value × Value)) : Except Error Given :=
  match entries.mapM fun (key, v) => key.asText?.map fun name => (name, v) with
  | some given => .ok (Given.update [] given)
  | none => .error .badName

/-- Loads options from a file. -/
def Options.load (path : Text) (content? : Option Text) (overrides : Given) :
    Except Error Options := do
  let entries ← SideFile.options.entries path content?
  let given ← Given.ofEntries entries
  match build given with
  | .error faults => .error (.options faults)
  | .ok o =>
    if overrides.isEmpty then return o
    else
      match o.merged overrides with
      | .ok o => return o
      | .error faults => .error (.options faults)

/-- Loads variables from a file. -/
def loadLocals (path : Text) (content? : Option Text) : Except Error (List (Text × Value)) := do
  let entries ← SideFile.locals.entries path content?
  return entries.filterMap fun (key, v) => key.asText?.map fun name => (name, v)

end MarkupTemplate
