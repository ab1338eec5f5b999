import MarkupTemplate.Proofs.Host.Phrases
import MarkupTemplate.Proofs.Node.Scoped
import MarkupTemplate.Proofs.Program.Simulation

/-!
# What programs render

A tree of core nodes stands for some acts (`Node.acts`), which put out text, run code and keep
rendered text under a name; `Act.renderAll` says what text they render and what they leave in the
environment. A program does what the acts of its tree say, whatever its strategy and its host, if no
code looks at a buffer that is being filled (`Program.run_concur`). Events in scope do not
(`discreet_of_scoped`).
-/

namespace MarkupTemplate

open List
open Interpretation (runAll runForm evalCode_eq)

open Host

/-! ## Acts -/

/-- Something that a tree does when it is rendered. -/
inductive Act where
  | put (text : Text)
  | eval (code : Text)
  | exec (code : Text)
  | suite (body : List Act)
  | keep (name : Text) (body : List Act)
deriving Repr, Inhabited

namespace Node

mutual

def acts : Node → List Act
  | .leaf (.static text) => if text.isEmpty then [] else [.put text]
  | .leaf (.dynamic source) => [.eval source]
  | .leaf (.code source) => [.exec source]
  | .leaf _ => []
  | .frame .block body => [.suite (acts body)]
  | .frame (.capture name) body => [.keep name (acts body)]
  | .frame _ _ => []
  | .group .seq children => actsOf children
  | .group .attrs _ => []
  | .tag _ _ _ => []

def actsOf : List Node → List Act
  | [] => []
  | n :: ns => acts n ++ actsOf ns

end

end Node

def Act.renderEach (name : Text) (step : Env → Except RunError (Env × Text)) :
    List Value → Env → Except RunError (Env × Text)
  | [], env => .ok (env, [])
  | v :: vs, env => do
    let (env, t) ← step (env.set name v)
    let (env, ts) ← renderEach name step vs env
    return (env, t ++ ts)

/-- The variables that acts end with on a host, and what they render. -/
def Act.renderAll (host : Interpretation) :
    (met? : Option Bool) → List Act → Env → Except RunError (Env × Text)
  | _, [], env => .ok (env, [])
  | met?, .exec code :: .suite body :: rest, env => do
    match ← host.planOf env met? code with
    | .branch taken met =>
      let (env, t) ← if taken then renderAll host none body env else .ok (env, [])
      let (env, ts) ← renderAll host (some met) rest env
      return (env, t ++ ts)
    | .loop name values =>
      let (env, t) ← renderEach name (renderAll host none body) values env
      let (env, ts) ← renderAll host (some false) rest env
      return (env, t ++ ts)
  | _, .put t :: rest, env => do
    let (env, ts) ← renderAll host none rest env
    return (env, t ++ ts)
  | _, .eval code :: rest, env => do
    let v ← host.evalCode env code
    env.checkCall Form.textHelper
    let t ← host.text v
    let (env, ts) ← renderAll host none rest env
    return (env, t ++ ts)
  | _, .exec code :: rest, env => do
    let env ← host.runCode env code
    renderAll host none rest env
  | _, .keep name body :: rest, env => do
    -- While its text is being rendered, the name has a value that no code may look at.
    let (env, t) ← renderAll host none body (env.set name .none)
    env.checkCall Form.markupHelper
    renderAll host none rest (env.set name (.markup t))
  | _, .suite _ :: _, _ => .error (.notRunnable [])

/-! ## Statements for acts -/

namespace Program

/-- The statements of a program for acts whose output goes to a buffer, whatever their lines. -/
inductive Writes : (buffer : Text) → List Act → List Stmt → Prop where
  | nil (buffer : Text) : Writes buffer [] []
  | put {buffer text : Text} {line : Nat} {as : List Act} {ss : List Stmt} :
    Writes buffer as ss → Writes buffer (.put text :: as) (.plain (.literal buffer text) line :: ss)
  | eval {buffer code : Text} {line : Nat} {as : List Act} {ss : List Stmt} :
    Writes buffer as ss → Writes buffer (.eval code :: as) (.plain (.output buffer code) line :: ss)
  | exec {buffer code : Text} {line : Nat} {as : List Act} {ss : List Stmt} :
    Writes buffer as ss → Writes buffer (.exec code :: as) (.plain (.host code) line :: ss)
  | suite {buffer : Text} {line : Nat} {body as : List Act} {inner ss : List Stmt} :
    Writes buffer body inner → Writes buffer as ss →
    Writes buffer (.suite body :: as)
    (.suite (if inner.isEmpty then [.plain .pass line] else inner) :: ss)
  | keep {buffer name : Text} {line line' : Nat} {body as : List Act} {inner ss : List Stmt} :
    Writes name body inner → Writes buffer as ss →
    Writes buffer (.keep name body :: as)
      (.plain (.begin name) line :: (inner ++ .plain (.finish name) line' :: ss))

variable {as as' : List Act}

theorem Writes.append {buffer : Text} {ss ss' : List Stmt} (first : Writes buffer as ss)
    (rest : Writes buffer as' ss') : Writes buffer (as ++ as') (ss ++ ss') := by
  induction first with
  | nil => exact rest
  | put _ ih => exact .put (ih rest)
  | eval _ ih => exact .eval (ih rest)
  | exec _ ih => exact .exec (ih rest)
  | suite inside _ _ ih => exact .suite inside (ih rest)
  | keep inside _ _ ih =>
    rw [cons_append, cons_append, append_assoc]
    exact .keep inside (ih rest)

theorem writes_statements (n : Node) (t : Target) (line : Nat) :
    Yields (fun r => Writes t.buffer n.acts r.1) (fun _ => True) (statements t line n) := by
  induction n using Node.induction generalizing t line with
  | leaf l =>
    cases l with
    | newline => exact .nil _
    | static text =>
      rw [statements, Node.acts]
      by_cases empty : text.isEmpty
      · rw [if_pos empty, if_pos empty]
        exact .nil _
      · rw [if_neg empty, if_neg empty]
        exact .put (.nil _)
    | dynamic source => exact .eval (.nil _)
    | code source => exact .exec (.nil _)
    | _ => trivial
  | frame f inner ih =>
    cases f with
    | block => exact (ih t line).bind fun r writes => .suite writes (.nil _)
    | capture name =>
      refine (ih { t with buffer := name } _).bind ?_
      rintro ⟨body, line⟩ writes
      exact .keep writes (.nil _)
    | _ => trivial
  | group g children ih =>
    cases g with
    | attrs => trivial
    | seq =>
      rw [statements, Node.acts]
      induction children generalizing line with
      | nil => exact .nil _
      | cons n ns ihRest =>
        rw [forall_mem_cons] at ih
        rw [statementsOf, Node.actsOf]
        refine (ih.1 t line).bind ?_
        rintro ⟨first, line⟩ writes
        refine (ihRest ih.2 line).bind ?_
        rintro ⟨rest, line⟩ others
        exact writes.append others
  | closed | tag => trivial

/-! ## Acts that leave open buffers alone -/

/-- Acts whose code leaves names alone, and the name of a text while it is being kept. -/
inductive Discreet (looking : Lookers) : (names : List Text) → List Act → Prop where
  | nil (names : List Text) : Discreet looking names []
  | put {names : List Text} (text : Text) {as : List Act} :
    Discreet looking names as → Discreet looking names (.put text :: as)
  | eval {names : List Text} {code : Text} {as : List Act} :
    exprSpares looking names code → Discreet looking names as →
    Discreet looking names (.eval code :: as)
  | exec {names : List Text} {code : Text} {as : List Act} :
    codeSpares looking names code → Discreet looking names as →
    Discreet looking names (.exec code :: as)
  | suite {names : List Text} {body as : List Act} :
    Discreet looking names body → Discreet looking names as →
    Discreet looking names (.suite body :: as)
  | keep {names : List Text} {name : Text} {body as : List Act} : name ∉ names →
    Discreet looking (name :: names) body → Discreet looking names as →
    Discreet looking names (.keep name body :: as)

theorem Discreet.append {looking : Lookers} {names : List Text} (first : Discreet looking names as)
    (rest : Discreet looking names as') : Discreet looking names (as ++ as') := by
  induction first with
  | nil => exact rest
  | put text _ ih => exact .put text (ih rest)
  | eval spares _ ih => exact .eval spares (ih rest)
  | exec spares _ ih => exact .exec spares (ih rest)
  | suite inside _ _ ih => exact .suite inside (ih rest)
  | keep other inside _ _ ih => exact .keep other inside (ih rest)

/-- Events in scope leave those reserved names alone that do not become known. -/
theorem discreet_of_scoped {looking : Lookers} {n : Node} {known after names : List Text}
    {on? : Option Bool} {origin : Origin}
    (inScope : Scoped looking known ((n.eventsBy (fun _ source => source) on? origin).map Prod.snd)
      after)
    (reserved : ∀ name ∈ names, isReserved name) (other : ∀ name ∈ names, name ∉ after) :
    Discreet looking names n.acts := by
  induction n using Node.induction generalizing known after names on? origin with
  | leaf l =>
    cases l with
    | static text =>
      rw [Node.acts]
      split
      · exact .nil names
      · exact .put text (.nil names)
    | dynamic source =>
      rw [Node.eventsBy_dynamic] at inScope
      rw [Node.acts]
      refine .eval ?_ (.nil names)
      cases inScope with
      | output keeps rest =>
        cases rest
        exact exprSpares_of_quiet (keeps.quiet reserved other)
      | deferred text => exact exprSpares_deferredCode reserved text
    | code source =>
      rw [Node.eventsBy_code] at inScope
      rw [Node.acts]
      refine .exec ?_ (.nil names)
      cases inScope with
      | statement keeps rest | assign _ keeps rest =>
        cases rest
        exact codeSpares_of_quiet (keeps.quiet reserved other)
    | _ => exact .nil names
  | frame f inner ih =>
    cases f with
    | block =>
      rw [Node.eventsBy_frame (by simp) (by simp)] at inScope
      rw [Node.acts]
      exact .suite (ih inScope reserved other) (.nil names)
    | capture name =>
      rw [Node.eventsBy_capture, map_append] at inScope
      obtain ⟨mid, inside, last⟩ := inScope.of_append
      cases last with
      | capture fresh rest =>
        cases rest
        have outside : name ∉ names := fun mem => other name mem (.head _)
        refine .keep outside (ih inside ?_ ?_) (.nil names)
        · exact forall_mem_cons.mpr ⟨fresh.1, reserved⟩
        · refine forall_mem_cons.mpr ⟨fresh.2.1, fun name mem found => ?_⟩
          exact other name mem (.tail _ found)
    | _ => exact .nil names
  | group g children ih =>
    cases g with
    | attrs => exact .nil names
    | seq =>
      rw [Node.eventsBy_seq] at inScope
      rw [Node.acts]
      induction children generalizing known with
      | nil => exact .nil names
      | cons n ns ihRest =>
        rw [forall_mem_cons] at ih
        rw [flatMap_cons, map_append] at inScope
        obtain ⟨mid, first, rest⟩ := inScope.of_append
        rw [Node.actsOf]
        refine Discreet.append (ih.1 first reserved ?_) (ihRest ih.2 rest)
        exact fun name mem found => other name mem (rest.subset found)
  | closed | tag => exact .nil names

/-! ## Runs and renderings -/

/-- A variable is a buffer that holds a text. -/
def Holds (s : Strategy) (env : Env) (buffer t : Text) : Prop :=
  ∃ v, env.lookup buffer = some v ∧ allOutput s v = .ok t

theorem allOutput_noOutput (s : Strategy) : allOutput s (noOutput s) = .ok [] := by
  cases s with
  | array | string => rfl

theorem withOutput_of_allOutput {s : Strategy} {v : Value} {t : Text}
    (whole : allOutput s v = .ok t) (more : Text) :
    ∃ v', withOutput s more v = .ok v' ∧ allOutput s v' = .ok (t ++ more) := by
  cases s with
  | array =>
    cases v with
    | list parts =>
      have one : joinedText [.text more] = .ok more := by
        have all := joinedText_texts [more]
        rw [flatten_cons, flatten_nil, append_nil] at all
        exact all
      refine ⟨.list (parts ++ [.text more]), rfl, ?_⟩
      have whole : joinedText parts = .ok t := whole
      show joinedText (parts ++ [.text more]) = _
      rw [joinedText_append, whole, one]
      rfl
    | _ => nomatch whole
  | string =>
    cases v with
    | text whole' =>
      cases whole
      exact ⟨_, rfl, rfl⟩
    | _ => nomatch whole

/-- The variables of a run and those of a rendering agree but for the open buffers: the current one
holds a text, and the others hold what they held at the start. -/
structure Follows (s : Strategy) (names : List Text) (buffer : Text) (start : Env) (t : Text)
    (env env' : Env) : Prop where
  agree : env.AgreeBut (fun _ _ => True) names env'
  filled : Holds s env buffer t
  others {name : Text} : name ∈ names → name ≠ buffer → env.lookup name = start.lookup name

/-- A run that ends as a rendering does, with more in the current buffer. -/
def Renders (s : Strategy) (names : List Text) (buffer : Text) (start : Env) (t : Text) :
    Except RunError Env → Except RunError (Env × Text) → Prop :=
  Concur fun env r => Follows s names buffer start (t ++ r.2) env r.1

section Follows

variable {s : Strategy} {names : List Text} {buffer : Text} {start env env' : Env} {t : Text}

variable {env₁ env₁' : Env} {name : Text} {x : Except RunError Env}
  {y : Except RunError (Env × Text)}

theorem Follows.begin (agree : env.AgreeBut (fun _ _ => True) names env') (name : Text) :
    Follows s (name :: names) name (env.set name (noOutput s)) [] (env.set name (noOutput s))
      (env'.set name .none) where
  agree := agree.set_related trivial
  filled := ⟨_, by rw [Env.lookup_set, if_pos rfl], allOutput_noOutput s⟩
  others _ _ := rfl

theorem Renders.behind {more : Text} (renders : Renders s names buffer start (t ++ more) x y) :
    Renders s names buffer start t x (y >>= fun r => .ok (r.1, more ++ r.2)) := by
  unfold Renders at renders
  cases renders with
  | error e => exact .error e
  | ok follows =>
    rw [append_assoc] at follows
    exact .ok follows

theorem Renders.bind (renders : Renders s names buffer start t x y) {f : Env → Except RunError Env}
    {g : Env → Except RunError (Env × Text)}
    (next : ∀ env env' t, Follows s names buffer start t env env' →
      Renders s names buffer start t (f env) (g env')) :
    Renders s names buffer start t (x >>= f)
    (y >>= fun r => g r.1 >>= fun r' => .ok (r'.1, r.2 ++ r'.2)) :=
  Concur.bind renders fun env r follows => (next env r.1 _ follows).behind

variable (follows : Follows s names buffer start t env env') (mem : buffer ∈ names)

include follows

theorem Follows.renders : Renders s names buffer start t (.ok env) (.ok (env', [])) := by
  refine .ok ?_
  rw [append_nil]
  exact follows

include mem

theorem Follows.put (more : Text) :
    ∃ env₁, putText s buffer more env = .ok env₁ ∧
    Follows s names buffer start (t ++ more) env₁ env' := by
  obtain ⟨v, found, whole⟩ := follows.filled
  obtain ⟨v', added, whole⟩ := withOutput_of_allOutput whole more
  refine ⟨env.set buffer v', ?_, ?_, ?_, ?_⟩
  · rw [putText, Env.get, found]
    show (withOutput s more v >>= _) = _
    rw [added]
    rfl
  · exact follows.agree.set_left mem (by rw [found]; rfl) v'
  · exact ⟨v', by rw [Env.lookup_set, if_pos rfl], whole⟩
  · intro name here other
    rw [Env.lookup_set, if_neg other]
    exact follows.others here other

theorem Follows.kept
    (agree : env₁.AgreeBut (fun _ _ => True) names env₁')
    (kept : ∀ key ∈ names, env₁.lookup key = env.lookup key) :
    Follows s names buffer start t env₁ env₁' := by
  obtain ⟨v, found, whole⟩ := follows.filled
  refine ⟨agree, ⟨v, by rw [kept buffer mem, found], whole⟩, fun here other => ?_⟩
  rw [kept _ here, follows.others here other]

theorem Follows.set
    (other : name ∉ names) (v : Value) :
    Follows s names buffer start t (env.set name v) (env'.set name v) := by
  refine follows.kept mem (follows.agree.set other v) ?_
  intro key here
  have apart : key ≠ name := fun same => other (same ▸ here)
  rw [Env.lookup_set, if_neg apart]

theorem Follows.runCode {host : Interpretation} {looking : Lookers} (looks : host.LooksBy looking)
    {code : Text} (spares : codeSpares looking names code) :
    Concur (Follows s names buffer start t) (host.runCode env code) (host.runCode env' code) := by
  have concur := Interpretation.runCode_concur looks follows.agree spares
  have keeps := Interpretation.runCode_keeps host spares env
  generalize host.runCode env code = x, host.runCode env' code = y at concur keeps
  cases concur with
  | error e => exact .error e
  | ok agree => exact .ok (follows.kept mem agree keeps)

theorem Follows.finish (other : name ∉ names) {inner : Text}
    (inside : Follows s (name :: names) name (env.set name (noOutput s)) inner env₁ env₁') :
    Follows s names buffer start t (env₁.set name (.markup inner))
    (env₁'.set name (.markup inner)) := by
  refine follows.kept mem ?_ ?_
  · refine (inside.agree.set_closed name (.markup inner)).of_same_names fun key => ?_
    have same : key ∈ names → key ≠ name := fun here same => other (same ▸ here)
    simp only [ne_eq, decide_not, mem_filter, mem_cons, Bool.not_eq_eq_eq_not, Bool.not_true,
      decide_eq_false_iff_not]
    tauto
  · intro key here
    have apart : key ≠ name := fun same => other (same ▸ here)
    rw [Env.lookup_set, if_neg apart, inside.others (.tail _ here) apart, Env.lookup_set,
      if_neg apart]

omit follows mem

theorem renders_each {step : Env → Except RunError Env} {step' : Env → Except RunError (Env × Text)}
    (mem : buffer ∈ names) (other : name ∉ names)
    (each : ∀ env env' t, Follows s names buffer start t env env' →
      Renders s names buffer start t (step env) (step' env')) (values : List Value)
    (follows : Follows s names buffer start t env env') :
    Renders s names buffer start t (forEach name step values env)
    (Act.renderEach name step' values env') := by
  induction values generalizing env env' t with
  | nil => exact follows.renders
  | cons v values ih =>
    have first := each _ _ _ (follows.set mem other v)
    exact first.bind fun _ _ _ follows => ih follows

end Follows

/-! ### Runs on a host -/

section Runs

variable {host : Interpretation} {looking : Lookers} {s : Strategy} {ss : List Stmt}

theorem runAll_pass (line : Nat) (ss : List Stmt) :
    host.runAll s none (if ss.isEmpty then [.plain .pass line] else ss) =
      host.runAll s none ss := by
  funext env
  cases ss with
  | nil =>
    show host.runAll s none [.plain .pass line] env = _
    rw [runAll_own none (by simp)]
    rfl
  | cons => rfl

theorem runAll_append (met? : Option Bool) (inner : List Stmt) (name : Text) (line : Nat)
    (ss : List Stmt) (env : Env) :
    host.runAll s met? (inner ++ .plain (.finish name) line :: ss) env =
      (host.runAll s met? inner env >>= fun env =>
        host.runAll s none (.plain (.finish name) line :: ss) env) := by
  have any : ∀ met? env, host.runAll s met? (.plain (.finish name) line :: ss) env =
      host.runAll s none (.plain (.finish name) line :: ss) env := by
    intro met? env
    rw [runAll_own met? (by simp), runAll_own none (by simp)]
  fun_induction host.runAll s met? inner env with
  | case1 met? env => exact any met? env
  | case2 met? code line' body rest env ihRest ihBody ihEach ihBehind =>
    rw [cons_append, cons_append, runAll, bind_assoc]
    refine bind_congr fun plan => ?_
    cases plan with
    | branch taken met =>
      cases taken with
      | true =>
        show (host.runAll s none body env >>= _) = ((host.runAll s none body env >>= _) >>= _)
        rw [bind_assoc]
        exact bind_congr (ihRest met)
      | false => exact ihRest met env
    | loop key values =>
      show (forEach key (host.runAll s none body) values env >>= _) =
        ((forEach key (host.runAll s none body) values env >>= _) >>= _)
      rw [bind_assoc]
      exact bind_congr ihBehind
  | case3 met? form line' rest env alone ih =>
    have alone' : ∀ code, form = .host code →
        startsSuite (rest ++ .plain (.finish name) line :: ss) = false := by
      rintro code rfl
      cases rest with
      | nil => rfl
      | cons first rest =>
        cases first with
        | plain => rfl
        | suite body => exact (alone code body rest rfl rfl).elim
    rw [cons_append, runAll_plain _ _ alone', bind_assoc]
    exact bind_congr ih
  | case4 =>
    rw [cons_append, runAll]
    rfl

theorem renders_of_writes (looks : host.LooksBy looking) (met? : Option Bool) (as : List Act)
    (env' : Env)
    {names : List Text} {buffer : Text} {start env : Env} {t : Text} (writes : Writes buffer as ss)
    (discreet : Discreet looking names as) (mem : buffer ∈ names)
    (follows : Follows s names buffer start t env env') :
    Renders s names buffer start t (host.runAll s met? ss env)
    (Act.renderAll host met? as env') := by
  -- The rendering takes a header together with its suite, as the run does.
  fun_induction Act.renderAll host met? as env' generalizing names buffer ss start env t with
  | case1 met? env' =>
    cases writes
    rw [runAll]
    exact follows.renders
  | case2 met? code body rest env' ihRest ihBody ihEach ihBehind =>
    cases writes with
    | exec writes =>
    cases writes with
    | suite inner writes =>
    cases discreet with
    | exec spares discreet =>
    cases discreet with
    | suite inside discreet =>
    rw [runAll, runAll_pass]
    refine (Interpretation.planOf_concur looks follows.agree spares met?).bind ?_
    rintro plan _ ⟨rfl, binds⟩
    cases plan with
    | branch taken met =>
      cases taken with
      | true =>
        exact (ihBody inner inside mem follows).bind fun _ env' _ follows =>
          ihRest met env' writes discreet mem follows
      | false =>
        exact follows.renders.bind fun _ env' _ follows =>
          ihRest met env' writes discreet mem follows
    | loop name values =>
      have rounds := renders_each mem (binds name values rfl)
        (fun _ env' _ follows => ihEach env' inner inside mem follows) values follows
      exact rounds.bind fun _ env' _ follows => ihBehind env' writes discreet mem follows
  | case3 met? text rest env' ih =>
    cases writes with
    | put writes =>
    cases discreet with
    | put _ discreet =>
    obtain ⟨env₁, added, follows⟩ := follows.put mem text
    rw [runAll_own met? (by simp), runForm, added]
    exact (ih writes discreet mem follows).behind
  | case4 met? code rest env' ih =>
    cases writes with
    | eval writes =>
    cases discreet with
    | eval spares discreet =>
    rw [runAll_own met? (by simp), runForm, evalCode_eq looks follows.agree spares,
      follows.agree.checkCall_eq]
    simp only [bind_assoc]
    refine .same fun v => .same fun _ => .same fun text => ?_
    obtain ⟨env₁, added, follows⟩ := follows.put mem text
    rw [added]
    exact (ih writes discreet mem follows).behind
  | case5 met? code rest env' alone ih =>
    cases writes with
    | @exec _ _ _ _ ss writes =>
    cases discreet with
    | exec spares discreet =>
    have alone' : ∀ code', Form.host code = .host code' → startsSuite ss = false := by
      intro code' _
      cases writes with
      | suite => exact (alone _ _ rfl).elim
      | _ => rfl
    rw [runAll_plain met? _ alone']
    exact (follows.runCode mem looks spares).bind fun _ env' follows =>
      ih env' writes discreet mem follows
  | case6 met? name body rest env' ihBody ih =>
    cases writes with
    | keep inner writes =>
    cases discreet with
    | keep other inside discreet =>
    rw [runAll_own met? (by simp), runForm]
    show Renders _ _ _ _ _ (host.runAll s none _ (env.set name (noOutput s))) _
    rw [runAll_append]
    -- Inside, the text is collected in a buffer of its own, which is open in addition to the
    -- others.
    refine Concur.bind (ihBody inner inside (.head _) (.begin follows.agree name)) ?_
    rintro env₁ ⟨env₁', text⟩ inside
    rw [nil_append] at inside
    obtain ⟨v, found, whole⟩ := inside.filled
    rw [runAll_own none (by simp), runForm, Env.get, found]
    show Renders _ _ _ _ _ ((allOutput s v >>= _) >>= _) _
    rw [whole]
    show Renders _ _ _ _ _ ((env₁.checkCall Form.markupHelper >>= _) >>= _) _
    rw [inside.agree.checkCall_eq, bind_assoc]
    refine .same fun _ => ?_
    exact ih _ _ writes discreet mem (follows.finish mem other inside)
  | case7 =>
    cases writes
    rw [runAll]
    exact .error _

end Runs

/-- What a tree of core nodes renders on a host, and the variables that it leaves. No code may look
at the value of the main buffer. -/
def render (host : Interpretation) (n : Node) (env : Env) : Except RunError (Env × Text) :=
  Act.renderAll host none n.acts (env.set buffer .none)

/-- The same output, and the same variables apart from the main buffer. -/
def EndsAlike (r r' : Env × Text) : Prop :=
  r.2 = r'.2 ∧ r.1.AgreeBut (fun _ _ => True) [buffer] r'.1

theorem run_concur {o : Options} {n : Node} {p : Program} (written : ofTree o n = .ok p)
    {looking : Lookers}
    (discreet : Discreet looking [buffer] n.acts) {host : Interpretation}
    (looks : host.LooksBy looking) (env : Env) :
    Concur EndsAlike (p.run host env) (render host n env) := by
  obtain ⟨⟨body, line⟩, statements, same⟩ := exists_of_bind written
  cases same
  have writes := (writes_statements n ⟨o.generator, buffer⟩ 1).of_ok statements
  have renders : Renders o.generator [buffer] buffer _ [] _ _ :=
    renders_of_writes looks none n.acts _ writes discreet (mem_singleton_self _)
      (.begin (env.agreeBut_refl _) buffer)
  rw [run, render]
  unfold Renders at renders
  generalize host.runAll o.generator none body (env.set buffer (noOutput o.generator)) = x,
    Act.renderAll host none n.acts (env.set buffer .none) = y at renders
  cases renders with
  | error e => exact .error e
  | @ok env r follows =>
    obtain ⟨v, found, whole⟩ := follows.filled
    show Concur _ (env.get buffer >>= _) _
    rw [Env.get, found]
    show Concur _ (allOutput o.generator v >>= _) _
    rw [whole]
    exact .ok ⟨nil_append _, follows.agree⟩

end Program

end MarkupTemplate
