import MarkupTemplate.Host.Expr
import MarkupTemplate.Error

/-!
# Values of expressions

The code of a program is run by a host. An `Interpretation` says what a host makes of expressions
and values; how statements bind names, and what headers do with the statements below them, is the
same for all of them. `Interpretation.standard` is the host for the expressions that this library
reads. It leaves templates between double braces to a function that it is given.
-/

namespace MarkupTemplate

/-! ## Environments

The names of a running program are kept in the order in which they were first bound. A name without
a value is an error, and so is the call of a helper whose name has been given a value.
-/

namespace Host

/-- The names of a running program and their values. No name stands twice. -/
structure Env where
  entries : List (Text × Value) := []
  distinct : (entries.map Prod.fst).Nodup := by simp

namespace Env

/-- Entries with a new value for a name; a new name comes last. -/
def bind (name : Text) (v : Value) : List (Text × Value) → List (Text × Value)
  | [] => [(name, v)]
  | (key, old) :: entries =>
    if key = name then (name, v) :: entries else (key, old) :: bind name v entries

theorem map_bind (name : Text) (v : Value) (entries : List (Text × Value)) :
    (bind name v entries).map Prod.fst =
      if name ∈ entries.map Prod.fst then entries.map Prod.fst
      else entries.map Prod.fst ++ [name] := by
  induction entries with
  | nil => rfl
  | cons entry entries ih =>
    rw [bind]
    split
    next same => simp [same]
    next other =>
      rw [List.map_cons, ih, List.map_cons]
      have apart : name ≠ entry.1 := fun same => other same.symm
      simp only [List.mem_cons, apart, false_or]
      split
      · rfl
      · rfl

/-- Gives a name a value. -/
def set (env : Env) (name : Text) (v : Value) : Env where
  entries := bind name v env.entries
  distinct := by
    rw [map_bind]
    split
    next => exact env.distinct
    next fresh =>
      refine List.nodup_append.mpr ⟨env.distinct,
        List.nodup_cons.mpr ⟨List.not_mem_nil, List.nodup_nil⟩, ?_⟩
      intro key member other here same
      rw [List.mem_singleton.mp here] at same
      exact fresh (same ▸ member)

/-- Gives several names values, one after another. -/
def update (env : Env) (more : List (Text × Value)) : Env :=
  more.foldl (fun env (name, v) => env.set name v) env

/-- The value that a name has, if any. -/
def lookup (env : Env) (name : Text) : Option Value :=
  env.entries.lookup name

/-- The value of a name. -/
def get (env : Env) (name : Text) : Except RunError Value :=
  match env.lookup name with
  | some v => .ok v
  | none => .error (.unbound name)

/-- Refuses the call of a function whose name has been given a value. -/
def checkCall (env : Env) (function : Text) : Except RunError Unit :=
  if (env.lookup function).isSome then .error .wrongType else .ok ()

end Env

/-! ## Functions -/

/-- The names of the functions that programs bring along. -/
def helperNames : List Text :=
  ["_hamlc_escape", "_hamlc_join_attr", "_hamlc_markup",
   "_hamlc_render_jinja", "_hamlc_str"]

/-- The names of all functions that can be called. -/
def functions : List Text :=
  helperNames ++ ["str".toList, "globals".toList]

/-- Whether a template between double braces may see a variable. -/
def isVisible (name : Text) : Bool :=
  (Text.after? "__" name).isNone && (Text.after? "_hamlc_" name).isNone

/-- What fills in a template between double braces from the variables it may see. -/
abbrev Filler := List (Text × Value) → (template : Text) → Except RunError Text

/-- What the call of a function gives. -/
def apply (fill : Filler) (env : Env) (function : Text) (arguments : List Value) :
    Except RunError Value :=
  if function = "_hamlc_str" then
    match arguments with
    | [v] => .ok (.text v.outputText)
    | _ => .error .wrongType
  else if function = "_hamlc_escape" then
    match arguments with
    | [v] => .ok (.markup v.escapedOutput)
    | _ => .error .wrongType
  else if function = "_hamlc_markup" then
    match arguments with
    | [v] => .ok (.markup v.markupText)
    | _ => .error .wrongType
  else if function = "_hamlc_join_attr" then
    match arguments with
    | [delimiter, values] =>
      match values.items? with
      | some values => .ok (.markup (Value.joinAttr delimiter values))
      | none => .error .wrongType
    | _ => .error .wrongType
  else if function = "_hamlc_render_jinja" then
    match arguments with
    | [template, .dict scope] =>
      (fill (scope.filter fun entry => isVisible entry.1) template.toText).map .markup
    | _ => .error .wrongType
  else if function = "str" then
    match arguments with
    | [v] => .ok (.text v.toText)
    | [] => .ok (.text [])
    | _ => .error .wrongType
  else
    match arguments with
    | [] => .ok (.dict env.entries)
    | _ => .error .wrongType

/-- Whether a value stands in another: a text in a text, or one of the items. -/
def contains (v whole : Value) : Except RunError Bool :=
  match whole.asText?, v.asText? with
  | some t, some part => .ok (Text.cut? part t).isSome
  | some _, none => .error .wrongType
  | none, _ =>
    match whole.items? with
    | some items => .ok (items.any fun item => item.equal v)
    | none => .error .wrongType

/-! ## Expressions -/

mutual

/-- The value of an expression. -/
def eval (fill : Filler) (env : Env) : Expr → Except RunError Value
  | .name n => env.get n
  | .number n => .ok (.int n)
  | .string t => .ok (.text t)
  | .rich t html => do
    env.checkCall "type"
    env.checkCall "str"
    return .rich t html
  | .nothing => .ok .none
  | .truth b => .ok (.bool b)
  | .list items => do
    let items ← evalAll fill env items
    return .list items
  | .tuple items => do
    let items ← evalAll fill env items
    return .tuple items
  | .call function arguments =>
    if (env.lookup function).isSome || functions.contains function then do
      let arguments ← evalAll fill env arguments
      env.checkCall function
      apply fill env function arguments
    else .error (.unbound function)
  | .negate e => do
    let v ← eval fill env e
    return .bool (!v.isTrue)
  | .equals a b => do
    let a ← eval fill env a
    let b ← eval fill env b
    return .bool (a.equal b)
  | .member a b => do
    let a ← eval fill env a
    let b ← eval fill env b
    let found ← contains a b
    return .bool found

/-- The values of several expressions. -/
def evalAll (fill : Filler) (env : Env) : List Expr → Except RunError (List Value)
  | [] => .ok []
  | e :: es => do
    let v ← eval fill env e
    let vs ← evalAll fill env es
    return v :: vs

end

end Host

/-! ## Hosts -/

open Host

/-- What a host makes of expressions and values. -/
structure Interpretation where
  value : Env → Expr → Except RunError Value
  isTrue : Value → Except RunError Bool
  /-- The values that a loop goes through. -/
  items : Value → Except RunError (List Value)
  /-- What is put out for a value. -/
  text : Value → Except RunError Text

namespace Interpretation

/-- The host for the expressions that are read here. -/
def standard (fill : Filler) : Interpretation where
  value := eval fill
  isTrue v := .ok v.isTrue
  items v := match v.items? with
    | some values => .ok values
    | none => .error .wrongType
  text v := .ok v.outputText

variable (host : Interpretation)

/-- The value of a code. -/
def evalCode (env : Env) (code : Text) : Except RunError Value :=
  match wholeExpr? code with
  | some e => host.value env e
  | none => .error (.notRunnable code)

/-- Runs statements that need none below them. -/
def runLines : List Line → Env → Except RunError Env
  | [], env => .ok env
  | .assign name e :: rest, env => do
    let v ← host.value env e
    runLines rest (env.set name v)
  | _ :: rest, env => runLines rest env

/-- Runs a code that needs no statements below it. -/
def runCode (env : Env) (code : Text) : Except RunError Env :=
  match simples? code with
  | some lines => host.runLines lines env
  | none => .error (.notRunnable code)

end Interpretation

end MarkupTemplate
