import MarkupTemplate.Host.Eval
import MarkupTemplate.Program.Basic

/-!
# Running programs

A program is run by a host, statement by statement, in one environment. Its buffers are variables: a
list of texts under the one strategy, a text under the other.

A suite belongs to the statement in front of it, which must be the header of a condition or a loop.
What a header of a condition does also depends on whether one of the conditions in front of it was
met.
-/

namespace MarkupTemplate

open Host

namespace Program

/-- An empty buffer. -/
def noOutput : Strategy → Value
  | .array => .list []
  | .string => .text []

/-- A buffer with more text. -/
def withOutput (strategy : Strategy) (t : Text) (v : Value) : Except RunError Value :=
  match strategy, v with
  | .array, .list parts => .ok (.list (parts ++ [.text t]))
  | .string, .text whole => .ok (.text (whole ++ t))
  | _, _ => .error .wrongType

/-- Texts and markup joined. -/
def joinedText : List Value → Except RunError Text
  | [] => .ok []
  | .text t :: vs => do
    let rest ← joinedText vs
    return t ++ rest
  | .markup t :: vs => do
    let rest ← joinedText vs
    return t ++ rest
  | .rich t _ :: vs => do
    let rest ← joinedText vs
    return t ++ rest
  | _ :: _ => .error .wrongType

/-- The text in a buffer. -/
def allOutput (strategy : Strategy) (v : Value) : Except RunError Text :=
  match strategy, v with
  | .array, .list parts => joinedText parts
  | .string, .text whole => .ok whole
  | _, _ => .error .wrongType

/-- Puts text into the buffer of a name. -/
def putText (strategy : Strategy) (buffer t : Text) (env : Env) : Except RunError Env := do
  let v ← env.get buffer
  let v ← withOutput strategy t v
  return env.set buffer v

/-- What a header does with the statements below it. -/
inductive Plan where
  /-- Runs them, or not, and tells whether one of the conditions so far was met. -/
  | branch (taken met : Bool)
  /-- Runs them for each value in turn. -/
  | loop (name : Text) (values : List Value)

/-- Binds a name to values in turn and takes a step for each. -/
def forEach (name : Text) (step : Env → Except RunError Env) :
    List Value → Env → Except RunError Env
  | [], env => .ok env
  | v :: vs, env => do
    let env ← step (env.set name v)
    forEach name step vs env

/-- The variables a program starts with: the names of a context, or the context itself under the
name `self`, then further names in order. -/
def startEnv (context : Value) (locals more : List (Text × Value)) : Env :=
  let env : Env := match context with
    | .dict entries => Env.update {} entries
    | .none => {}
    | v => Env.set {} "self" v
  (env.update locals).update more

end Program

namespace Interpretation

open Program

variable (host : Interpretation)

/-- Runs a statement that is no header. -/
def runForm (strategy : Strategy) (env : Env) : Form → Except RunError Env
  | .literal buffer t => putText strategy buffer t env
  | .output buffer code => do
    let v ← host.evalCode env code
    env.checkCall Form.textHelper
    let t ← host.text v
    putText strategy buffer t env
  | .host code => host.runCode env code
  | .begin name => .ok (env.set name (noOutput strategy))
  | .finish name => do
    let v ← env.get name
    let t ← allOutput strategy v
    env.checkCall Form.markupHelper
    return env.set name (.markup t)
  | .pass => .ok env

/-- What a header does; `met?` tells whether a condition in front of it was met, if there is one. -/
def planOf (env : Env) (met? : Option Bool) (code : Text) : Except RunError Plan :=
  match header? code, met? with
  | some (.ifTrue e), _ => do
    let v ← host.value env e
    let met ← host.isTrue v
    return .branch met met
  | some (.elseIf e), some false => do
    let v ← host.value env e
    let met ← host.isTrue v
    return .branch met met
  | some (.elseIf _), some true => .ok (.branch false true)
  | some .otherwise, some met => .ok (.branch (!met) true)
  | some (.loop name e), _ => do
    let v ← host.value env e
    let values ← host.items v
    return .loop name values
  | _, _ => .error (.notRunnable code)

/-- Runs statements. `met?` tells whether a condition right in front of them was met; there is none
if no condition stands there. -/
def runAll (strategy : Strategy) :
    (met? : Option Bool) → List Stmt → Env → Except RunError Env
  | _, [], env => .ok env
  | met?, .plain (.host code) _ :: .suite body :: rest, env => do
    match ← host.planOf env met? code with
    | .branch taken met =>
      let env ← if taken then runAll strategy none body env else .ok env
      runAll strategy (some met) rest env
    | .loop name values =>
      let env ← forEach name (runAll strategy none body) values env
      runAll strategy (some false) rest env
  | _, .plain form _ :: rest, env => do
    let env ← host.runForm strategy env form
    runAll strategy none rest env
  | _, .suite _ :: _, _ => .error (.notRunnable [])

end Interpretation

/-- The variables that a program ends with on a host, and its output. -/
def Program.run (p : Program) (host : Interpretation) (env : Env) :
    Except RunError (Env × Text) := do
  let env ← host.runAll p.strategy none p.body (env.set buffer (noOutput p.strategy))
  let v ← env.get buffer
  let t ← allOutput p.strategy v
  return (env, t)

end MarkupTemplate
