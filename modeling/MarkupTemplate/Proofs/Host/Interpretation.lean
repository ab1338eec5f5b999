import MarkupTemplate.Proofs.Host.Unread

/-!
# Hosts that look at variables by known functions

The value of an expression may depend on variables that it does not mention, since a function can
look at all of them. A host *looks by* some functions if only they do so. Code that calls none of
them and spares the names in which two environments differ does the same in both (`evalCode_eq`,
`planOf_concur`, `runCode_concur`).
-/

namespace MarkupTemplate.Interpretation

open Host

/-- Whether expressions see variables they do not mention only by calling the given functions. -/
def LooksBy (host : Interpretation) (looking : Lookers) : Prop :=
  ∀ {names : List Text} {env env' : Env} {e : Expr}, e.spares looking names false →
    env.AgreeBut (fun _ _ => True) names env' → host.value env e = host.value env' e

theorem standard_looksBy (fill : Filler) {looking : Lookers} (all : allVariables ∈ looking.names) :
    (standard fill).LooksBy looking :=
  fun spares agree => eval_eq all agree spares

/-! ## Code that leaves some names alone -/

variable {host : Interpretation} {related : Value → Value → Prop} {looking : Lookers}
  {names : List Text} {env env' : Env}
  {code : Text}

theorem runLines_keeps {lines : List Line} (spares : lines.all (Line.spares looking names))
    (env : Env) :
    Yields (fun env' => ∀ name ∈ names, env'.lookup name = env.lookup name) (fun _ => True)
      (host.runLines lines env) := by
  induction lines generalizing env with
  | nil => exact fun _ _ => rfl
  | cons line lines ih =>
    obtain ⟨first, rest⟩ : line.spares looking names = true ∧
        lines.all (Line.spares looking names) = true := by
      simpa using spares
    cases line with
    | assign name e =>
      obtain ⟨other, -⟩ : name ∉ names ∧ e.spares looking names false = true := by
        simpa [Line.spares] using first
      rw [runLines]
      cases host.value env e with
      | error e => trivial
      | ok v =>
        refine (ih rest (env.set name v)).mono ?_ fun _ _ => trivial
        intro env' kept key mem
        have apart : key ≠ name := fun same => other (same ▸ mem)
        rw [kept key mem, Env.lookup_set, if_neg apart]
    | _ => exact ih rest env

theorem runCode_keeps (host : Interpretation) (spares : codeSpares looking names code) (env : Env) :
    Yields (fun env' => ∀ name ∈ names, env'.lookup name = env.lookup name) (fun _ => True)
      (host.runCode env code) := by
  rw [codeSpares, Bool.and_eq_true] at spares
  rw [runCode]
  cases read : simples? code with
  | none => trivial
  | some lines => exact runLines_keeps (by simpa [read] using spares.2) env

variable (looks : host.LooksBy looking)

include looks

section

variable (agree : env.AgreeBut related names env')

include agree

theorem value_agree {e : Expr} (spares : e.spares looking names false) :
    host.value env e = host.value env' e :=
  looks spares (agree.imp fun _ _ here => ⟨here.1, here.2.1, fun _ => trivial⟩)

theorem evalCode_eq (spares : exprSpares looking names code) :
    host.evalCode env code = host.evalCode env' code := by
  rw [exprSpares] at spares
  rw [evalCode, evalCode]
  cases read : wholeExpr? code with
  | none => rfl
  | some e => exact value_agree looks agree (by simpa [read] using spares)

theorem runLines_concur {lines : List Line}
    (spares : lines.all (Line.spares looking names)) :
    Concur (Env.AgreeBut related names) (host.runLines lines env) (host.runLines lines env') := by
  induction lines generalizing env env' with
  | nil => exact .ok agree
  | cons line lines ih =>
    obtain ⟨first, rest⟩ : line.spares looking names = true ∧
        lines.all (Line.spares looking names) = true := by
      simpa using spares
    cases line with
    | assign name e =>
      obtain ⟨other, reads⟩ : name ∉ names ∧ e.spares looking names false = true := by
        simpa [Line.spares] using first
      rw [runLines, runLines, value_agree looks agree reads]
      exact .same fun v => ih (agree.set other v) rest
    | _ => exact ih agree rest

theorem runCode_concur (spares : codeSpares looking names code) :
    Concur (Env.AgreeBut related names) (host.runCode env code) (host.runCode env' code) := by
  rw [codeSpares, Bool.and_eq_true] at spares
  rw [runCode, runCode]
  cases read : simples? code with
  | none => exact .error _
  | some lines => exact runLines_concur looks agree (by simpa [read] using spares.2)

/-- A header plans the same, and a loop binds another name. -/
theorem planOf_concur (spares : codeSpares looking names code) (met? : Option Bool) :
    Concur (fun plan plan' => plan = plan' ∧ ∀ name values, plan = .loop name values → name ∉ names)
      (host.planOf env met? code) (host.planOf env' met? code) := by
  rw [codeSpares, Bool.and_eq_true] at spares
  have branches : ∀ b b' : Bool, ∀ name values, Program.Plan.branch b b' = .loop name values →
    name ∉ names :=
    nofun
  unfold planOf
  cases read : header? code with
  | none => exact .error _
  | some line =>
    have here : line.spares looking names = true := by simpa [read] using spares.1
    cases line with
    | ifTrue e =>
      simp only [value_agree looks agree here]
      exact .same fun v => .same fun met => .ok ⟨rfl, branches _ _⟩
    | elseIf e =>
      cases met? with
      | none => exact .error _
      | some met =>
        cases met with
        | true => exact .ok ⟨rfl, branches _ _⟩
        | false =>
          simp only [value_agree looks agree here]
          exact .same fun v => .same fun met => .ok ⟨rfl, branches _ _⟩
    | otherwise =>
      cases met? with
      | none => exact .error _
      | some met => exact .ok ⟨rfl, branches _ _⟩
    | loop name e =>
      obtain ⟨other, reads⟩ : name ∉ names ∧ e.spares looking names false = true := by
        simpa [Line.spares] using here
      simp only [value_agree looks agree reads]
      refine .same fun v => .same fun values => .ok ⟨rfl, ?_⟩
      rintro _ _ ⟨⟩
      exact other
    | assign | skip => exact .error _

end

end MarkupTemplate.Interpretation
