import MarkupTemplate.Proofs.Host.Interpretation
import MarkupTemplate.Proofs.Program.Joined

/-!
# Running joined statements

Two lists of statements of which the second joins texts of the first are run side by side. A
`Simulation` names a relation on environments, and each statement takes related environments to
related ones (`Simulation.runAll`). If buffers are texts, the environments are equal
(`Simulation.ofTexts`). If they are lists of texts, only their joined texts agree; so code must not
look at a buffer that is being filled (`Simulation.ofBuffers`). Which buffers these are is known at
each statement (`Form.opened`), and `Stmt.watchedAll` checks all code.
-/

namespace MarkupTemplate

open List
open Interpretation (runAll runForm evalCode_eq)

open Host

/-! ## Buffers that are being filled -/

/-- The buffers being filled after a statement, if it leaves those in front of it alone. -/
def Form.opened (looking : Lookers) (names : List Text) : Form → Option (List Text)
  | .literal buffer _ => if names.contains buffer then some names else none
  | .output buffer code =>
    if names.contains buffer && exprSpares looking names code then some names else none
  | .host code => if codeSpares looking names code then some names else none
  | .begin name => some (name :: names)
  | .finish name => if names.contains name then some (names.filter (· ≠ name)) else none
  | .pass => some names

namespace Stmt

mutual

/-- Takes a list of names through a statement, which changes or refuses it. A suite must leave the
list as it is, since it may be skipped or run again. -/
def watched (watch : List Text → Form → Option (List Text)) : List Text → Stmt → Option (List Text)
  | names, .plain form _ => watch names form
  | names, .suite body => if watchedAll watch names body = some names then some names else none

def watchedAll (watch : List Text → Form → Option (List Text)) :
    List Text → List Stmt → Option (List Text)
  | names, [] => some names
  | names, s :: ss => (watched watch names s).bind fun names => watchedAll watch names ss

end

end Stmt

/-- Whether no code of a program looks at a buffer while it is being filled. -/
def Program.isDiscreet (looking : Lookers) (p : Program) : Bool :=
  Stmt.watchedAll (Form.opened looking) [Program.buffer] p.body = some [Program.buffer]

namespace Program

/-! ## Runs of statements -/

def startsSuite : List Stmt → Bool
  | .suite _ :: _ => true
  | _ => false

section Runs

variable {host : Interpretation} {strategy : Strategy} (met? : Option Bool)

theorem runAll_plain {form : Form} (line : Nat) {ss : List Stmt}
    (alone : ∀ code, form = .host code → startsSuite ss = false) (env : Env) :
    host.runAll strategy met? (.plain form line :: ss) env =
      (host.runForm strategy env form >>= fun env => host.runAll strategy none ss env) := by
  rw [runAll]
  rintro code body rest rfl same
  cases alone code same

theorem runAll_own {form : Form} (own : ∀ code, form ≠ .host code) (line : Nat) (ss : List Stmt)
    (env : Env) : host.runAll strategy met? (.plain form line :: ss) env =
      (host.runForm strategy env form >>= fun env => host.runAll strategy none ss env) :=
  runAll_plain met? line (fun code same => absurd same (own code)) env

theorem runAll_literal (buffer text : Text) (line : Nat) (ss : List Stmt) (env : Env) :
    host.runAll strategy met? (.plain (.literal buffer text) line :: ss) env =
      (putText strategy buffer text env >>= fun env => host.runAll strategy none ss env) :=
  runAll_own met? (by simp) line ss env

theorem runAll_texts (buffer text : Text) (line : Nat) (more : List (Text × Nat)) (ss : List Stmt)
    (env : Env) :
    host.runAll strategy met?
      (.plain (.literal buffer text) line :: (Stmt.textsOf buffer more ++ ss)) env =
      ((text :: more.map (·.1)).foldlM (fun env t => putText strategy buffer t env) env >>=
        fun env => host.runAll strategy none ss env) := by
  induction more generalizing met? text line env with
  | nil =>
    rw [runAll_literal, map_nil, foldlM_cons]
    simp only [foldlM_nil, bind_pure]
    rfl
  | cons part more ih =>
    rw [runAll_literal, foldlM_cons, bind_assoc]
    show (putText strategy buffer text env >>= fun env => host.runAll strategy none
      (.plain (.literal buffer part.1) part.2 :: (Stmt.textsOf buffer more ++ ss)) env) = _
    simp only [ih]
    rfl

end Runs

/-! ## Simulations -/

/-- Statements take related environments to related ones, where the relation may depend on a list of
names, which statements change or refuse. -/
structure Simulation (host : Interpretation) (s s' : Strategy)
    (watch : List Text → Form → Option (List Text))
    (agree : List Text → Env → Env → Prop) : Prop where
  kept {names after : List Text} {buffer text : Text} :
    watch names (.literal buffer text) = some after → after = names
  form {names after : List Text} {form : Form} {env env' : Env} : watch names form = some after →
    agree names env env' →
      Concur (agree after) (host.runForm s env form) (host.runForm s' env' form)
  texts {names : List Text} {buffer text : Text} (more : List Text) {env env' : Env} :
    watch names (.literal buffer text) = some names → agree names env env' →
      Concur (agree names) ((text :: more).foldlM (fun env t => putText s buffer t env) env)
        (putText s' buffer (text ++ more.flatten) env')
  plan {names after : List Text} {code : Text} {env env' : Env} (met? : Option Bool) :
    watch names (.host code) = some after → agree names env env' →
      Concur (fun plan plan' => plan = plan' ∧ ∀ name values, plan = .loop name values →
          ∀ env env' v, agree names env env' → agree names (env.set name v) (env'.set name v))
        (host.planOf env met? code) (host.planOf env' met? code)
  header {names after : List Text} {code : Text} : watch names (.host code) = some after →
    after = names

namespace Simulation

variable {host : Interpretation} {s s' : Strategy} {watch : List Text → Form → Option (List Text)}
  {agree : List Text → Env → Env → Prop}

/-- Two lists of statements take related environments to related ones. -/
def Runs (host : Interpretation) (s s' : Strategy) (watch : List Text → Form → Option (List Text))
    (agree : List Text → Env → Env → Prop) (ss ss' : List Stmt) : Prop :=
  ∀ names after, Stmt.watchedAll watch names ss = some after → ∀ met? env env',
    agree names env env' →
    Concur (agree after) (host.runAll s met? ss env) (host.runAll s' met? ss' env')

/-- What holds of a suite at the start and of what follows it. -/
def RunsSuite (host : Interpretation) (s s' : Strategy)
    (watch : List Text → Form → Option (List Text))
    (agree : List Text → Env → Env → Prop) (ss ss' : List Stmt) : Prop :=
  ∀ body rest, ss = .suite body :: rest → ∃ body' rest', ss' = .suite body' :: rest' ∧
    Runs host s s' watch agree body body' ∧ Runs host s s' watch agree rest rest'

variable {ss ss' body body' : List Stmt} {line : Nat}

theorem startsSuite_eq (joins : Stmt.Joins ss ss') : startsSuite ss = startsSuite ss' := by
  cases joins with
  | _ => rfl

theorem forEach {names : List Text} (runs : Runs host s s' watch agree body body')
    (watched : Stmt.watchedAll watch names body = some names) {name : Text}
    (binds : ∀ env env' v, agree names env env' → agree names (env.set name v) (env'.set name v))
    (values : List Value) {env env' : Env} (agrees : agree names env env') :
    Concur (agree names) (Program.forEach name (host.runAll s none body) values env)
      (Program.forEach name (host.runAll s' none body') values env') := by
  induction values generalizing env env' with
  | nil => exact .ok agrees
  | cons v values ih =>
    refine (runs names names watched none _ _ (binds env env' v agrees)).bind fun env env' agrees =>
      ?_
    exact ih agrees

variable (sim : Simulation host s s' watch agree)

include sim

theorem runs_header {code : Text} {rest rest' : List Stmt}
    (inside : Runs host s s' watch agree body body')
    (behind : Runs host s s' watch agree rest rest') :
    Runs host s s' watch agree (.plain (.host code) line :: .suite body :: rest)
      (.plain (.host code) line :: .suite body' :: rest') := by
  intro names after watched met? env env' agrees
  obtain ⟨_, here, watched⟩ := Option.bind_eq_some_iff.mp watched
  cases sim.header here
  obtain ⟨_, suite, watched⟩ := Option.bind_eq_some_iff.mp watched
  rw [Stmt.watched] at suite
  split at suite
  next kept =>
    cases suite
    rw [runAll, runAll]
    refine (sim.plan met? here agrees).bind ?_
    rintro plan _ ⟨rfl, binds⟩
    cases plan with
    | branch taken met =>
      cases taken with
      | true =>
        refine (inside names names kept none _ _ agrees).bind fun env env' agrees => ?_
        exact behind names after watched _ _ _ agrees
      | false => exact behind names after watched _ _ _ agrees
    | loop name values =>
      refine (forEach inside kept (binds name values rfl) values agrees).bind fun env env' agrees =>
        ?_
      exact behind names after watched _ _ _ agrees
  next => cases suite

theorem runs_plain {form : Form}
    (alone : ∀ code, form = .host code → startsSuite ss = false)
    (same : startsSuite ss = startsSuite ss') (behind : Runs host s s' watch agree ss ss') :
    Runs host s s' watch agree (.plain form line :: ss) (.plain form line :: ss') := by
  intro names after watched met? env env' agrees
  obtain ⟨between, here, watched⟩ := Option.bind_eq_some_iff.mp watched
  rw [runAll_plain met? line alone, runAll_plain met? line (same ▸ alone)]
  refine (sim.form here agrees).bind fun env env' agrees => ?_
  exact behind between after watched none _ _ agrees

theorem watched_texts {names after : List Text} {buffer : Text}
    {more : List (Text × Nat)}
    (watched : Stmt.watchedAll watch names (Stmt.textsOf buffer more ++ ss) = some after) :
    Stmt.watchedAll watch names ss = some after := by
  induction more with
  | nil => exact watched
  | cons part more ih =>
    obtain ⟨between, here, watched⟩ := Option.bind_eq_some_iff.mp watched
    cases sim.kept here
    exact ih watched

theorem runs_texts (buffer text : Text) (line : Nat) (more : List (Text × Nat))
    (line' : Nat) (behind : Runs host s s' watch agree ss ss') :
    Runs host s s' watch agree
      (.plain (.literal buffer text) line :: (Stmt.textsOf buffer more ++ ss))
      (.plain (.literal buffer (text ++ more.flatMap (·.1))) line' :: ss') := by
  intro names after watched met? env env' agrees
  obtain ⟨_, here, watched⟩ := Option.bind_eq_some_iff.mp watched
  cases sim.kept here
  rw [runAll_texts, runAll_literal, flatMap_def]
  refine (sim.texts _ here agrees).bind fun env env' agrees => ?_
  exact behind names after (sim.watched_texts watched) none _ _ agrees

theorem runs_joins (joins : Stmt.Joins ss ss') :
    Runs host s s' watch agree ss ss' ∧ RunsSuite host s s' watch agree ss ss' := by
  induction joins with
  | nil =>
    refine ⟨?_, by rintro _ _ ⟨⟩⟩
    intro names after watched met? env env' agrees
    cases watched
    rw [runAll, runAll]
    exact .ok agrees
  | @plain form line ss ss' joins ih =>
    refine ⟨?_, by rintro _ _ ⟨⟩⟩
    by_cases pair : (∃ code, form = .host code) ∧ ∃ body rest, ss = .suite body :: rest
    · obtain ⟨⟨code, rfl⟩, body, rest, rfl⟩ := pair
      obtain ⟨body', rest', rfl, inside, behind⟩ := ih.2 body rest rfl
      exact sim.runs_header inside behind
    · refine sim.runs_plain ?_ (startsSuite_eq joins) ih.1
      intro code host
      cases ss with
      | nil => rfl
      | cons first ss =>
        cases first with
        | plain => rfl
        | suite body => exact absurd ⟨⟨code, host⟩, body, ss, rfl⟩ pair
  | texts buffer text line more line' _ ih =>
    exact ⟨sim.runs_texts buffer text line more line' ih.1, by rintro _ _ ⟨⟩⟩
  | @suite body body' ss ss' _ _ ihBody ih =>
    constructor
    · intro names after watched met? env env' agrees
      rw [runAll, runAll]
      exact .error _
    · rintro _ _ ⟨⟩
      exact ⟨body', ss', rfl, ihBody.1, ih.1⟩

end Simulation

/-! ## Several texts for one buffer -/

/-- Texts that go to a buffer one after the other: the buffer is read once and bound once. -/
theorem foldlM_putText (s : Strategy) (buffer text : Text) (more : List Text) (env : Env) :
    (text :: more).foldlM (fun env t => putText s buffer t env) env =
      (env.get buffer >>= fun v => (text :: more).foldlM (fun v t => withOutput s t v) v >>=
        fun v => .ok (env.set buffer v)) := by
  induction more generalizing text env with
  | nil =>
    simp only [foldlM_cons, foldlM_nil, bind_pure]
    rfl
  | cons next more ih =>
    rw [foldlM_cons, putText]
    cases env.get buffer with
    | error e => rfl
    | ok v =>
      show ((withOutput s text v >>= fun v => .ok (env.set buffer v)) >>= _) =
        ((withOutput s text v >>= _) >>= _)
      cases withOutput s text v with
      | error e => rfl
      | ok w =>
        show (next :: more).foldlM (fun env t => putText s buffer t env) (env.set buffer w) = _
        rw [ih, Env.get_set]
        show ((next :: more).foldlM (fun v t => withOutput s t v) w >>= _) = _
        simp only [Env.set_set]
        rfl

theorem foldlM_string (whole text : Text) (more : List Text) :
    (text :: more).foldlM (fun v t => withOutput .string t v) (.text whole) =
      .ok (.text (whole ++ (text ++ more.flatten))) := by
  induction more generalizing whole text with
  | nil => simp [withOutput, pure, Except.pure, bind, Except.bind]
  | cons next more ih =>
    rw [foldlM_cons]
    show (next :: more).foldlM (fun v t => withOutput .string t v) (.text (whole ++ text)) = _
    rw [ih]
    simp

theorem foldlM_array (parts : List Value) (text : Text) (more : List Text) :
    (text :: more).foldlM (fun v t => withOutput .array t v) (.list parts) =
      .ok (.list (parts ++ (text :: more).map .text)) := by
  induction more generalizing parts text with
  | nil => rfl
  | cons next more ih =>
    rw [foldlM_cons]
    show (next :: more).foldlM (fun v t => withOutput .array t v) (.list (parts ++ [.text text])) =
      _
    rw [ih]
    simp

theorem joinedText_append (parts parts' : List Value) :
    joinedText (parts ++ parts') =
      (joinedText parts >>= fun t => joinedText parts' >>= fun t' => .ok (t ++ t')) := by
  induction parts with
  | nil =>
    show joinedText parts' = (joinedText parts' >>= fun t' => .ok ([] ++ t'))
    cases joinedText parts' with
    | error e | ok t => rfl
  | cons v parts ih =>
    cases v with
    | text t | markup t | rich t =>
      rw [cons_append, joinedText, joinedText, ih]
      cases joinedText parts with
      | error e => rfl
      | ok front =>
        cases joinedText parts' with
        | error e => rfl
        | ok back => simp [bind, Except.bind, pure, Except.pure]
    | _ => rfl

theorem joinedText_texts (texts : List Text) :
    joinedText (texts.map .text) = .ok texts.flatten := by
  induction texts with
  | nil => rfl
  | cons t texts ih =>
    rw [map_cons, joinedText, ih]
    rfl

theorem Simulation.ofTexts (host : Interpretation) :
    Simulation host .string .string (fun names _ => some names) (fun _ => Eq) where
  kept := by
    rintro names after buffer text ⟨⟩
    rfl
  form := by
    rintro names after form env _ ⟨⟩ rfl
    exact .refl _ fun _ => rfl
  texts := by
    rintro names buffer text more env _ - rfl
    rw [foldlM_putText, putText]
    refine .same fun v => ?_
    cases v with
    | text whole =>
      rw [foldlM_string]
      exact .ok rfl
    | _ => exact .error _
  plan := by
    rintro names after code env _ met? - rfl
    refine .refl _ fun plan => ⟨rfl, ?_⟩
    rintro name values - env _ v rfl
    rfl
  header := by
    rintro names after code ⟨⟩
    rfl

/-! ## Buffers that code leaves alone -/

/-- Ways to keep output: `related` buffers stay so if texts are put out, and end the same. -/
structure Buffers (s s' : Strategy) (related : Value → Value → Prop) : Prop where
  empty : related (noOutput s) (noOutput s')
  texts {v v' : Value} (text : Text) (more : List Text) : related v v' →
    Concur related ((text :: more).foldlM (fun v t => withOutput s t v) v)
      (withOutput s' (text ++ more.flatten) v')
  whole {v v' : Value} : related v v' → allOutput s v = allOutput s' v'

section Lists

variable {s s' : Strategy} {related : Value → Value → Prop}

theorem of_guard {α : Type} {b : Bool} {a c : α} (guard : (if b then some a else none) = some c) :
    b = true ∧ c = a := by
  cases b with
  | true => cases guard; exact ⟨rfl, rfl⟩
  | false => nomatch guard

variable {names : List Text} {env env' : Env} {buffer : Text}

theorem agreeBut_cons {name : Text} (mem : name ∈ names)
    (agrees : Env.AgreeBut related (name :: names) env env') :
    Env.AgreeBut related names env env' := by
  refine agrees.of_same_names fun other => ⟨mem_cons_of_mem _, fun found => ?_⟩
  rcases mem_cons.mp found with rfl | found
  · exact mem
  · exact found

section

variable (buffers : Buffers s s' related) (mem : buffer ∈ names) (text : Text)

include buffers mem

theorem Buffers.putTexts (more : List Text)
    (agrees : env.AgreeBut related names env') :
    Concur (Env.AgreeBut related names)
    ((text :: more).foldlM (fun env t => putText s buffer t env) env)
      (putText s' buffer (text ++ more.flatten) env') := by
  rw [foldlM_putText, putText]
  refine (agrees.get_concur mem).bind fun v v' here => ?_
  refine (buffers.texts text more here).bind fun v v' here => ?_
  exact .ok (agreeBut_cons mem (agrees.set_related here))

theorem Buffers.putText
    (agrees : env.AgreeBut related names env') :
    Concur (Env.AgreeBut related names) (putText s buffer text env)
    (Program.putText s' buffer text env') := by
  have one := buffers.putTexts mem text [] agrees
  simpa only [flatten_nil, append_nil, foldlM_cons, foldlM_nil, bind_pure] using one

end

/-- Code that leaves the buffers being filled alone does not see how output is kept. -/
theorem Simulation.ofBuffers {host : Interpretation} {looking : Lookers}
    (looks : host.LooksBy looking)
    (buffers : Buffers s s' related) :
    Simulation host s s' (Form.opened looking) (Env.AgreeBut related) where
  kept := by
    intro names after buffer text watched
    exact (of_guard watched).2
  form := by
    intro names after form env env' watched agrees
    cases form with
    | literal buffer text =>
      obtain ⟨mem, rfl⟩ := of_guard watched
      exact buffers.putText (by simpa using mem) text agrees
    | output buffer code =>
      obtain ⟨allowed, rfl⟩ := of_guard watched
      rw [Bool.and_eq_true] at allowed
      rw [runForm, runForm, evalCode_eq looks agrees allowed.2,
        agrees.checkCall_eq]
      refine .same fun v => .same fun _ => .same fun t => ?_
      exact buffers.putText (by simpa using allowed.1) _ agrees
    | host code =>
      obtain ⟨spares, rfl⟩ := of_guard watched
      exact Interpretation.runCode_concur looks agrees spares
    | begin name =>
      cases watched
      exact .ok (agrees.set_related buffers.empty)
    | finish name =>
      obtain ⟨mem, rfl⟩ := of_guard watched
      rw [runForm, runForm]
      refine (agrees.get_concur (by simpa using mem)).bind fun v v' here => ?_
      rw [buffers.whole here, agrees.checkCall_eq]
      refine .same fun t => .same fun _ => ?_
      exact .ok (agrees.set_closed name _)
    | pass =>
      cases watched
      exact .ok agrees
  texts := by
    intro names buffer text more env env' watched agrees
    obtain ⟨mem, -⟩ := of_guard watched
    exact buffers.putTexts (by simpa using mem) text more agrees
  plan := by
    intro names after code env env' met? watched agrees
    obtain ⟨spares, -⟩ := of_guard watched
    refine (Interpretation.planOf_concur looks agrees spares met?).mono ?_
    rintro plan _ ⟨rfl, binds⟩
    exact ⟨rfl, fun name values same env env' v agrees => agrees.set (binds name values same) v⟩
  header := by
    intro names after code watched
    exact (of_guard watched).2

/-- Two lists with the same joined text. -/
def SameText (v v' : Value) : Prop :=
  ∃ parts parts', v = .list parts ∧ v' = .list parts' ∧ joinedText parts = joinedText parts'

theorem sameText_buffers : Buffers .array .array SameText where
  empty := ⟨[], [], rfl, rfl, rfl⟩
  texts := by
    rintro _ _ text more ⟨parts, parts', rfl, rfl, same⟩
    rw [foldlM_array]
    refine .ok ⟨_, _, rfl, rfl, ?_⟩
    rw [joinedText_append, joinedText_append, joinedText_texts, same]
    have one := joinedText_texts [text ++ more.flatten]
    rw [map_cons, map_nil] at one
    rw [one, flatten_cons, flatten_cons, flatten_nil, append_nil]
  whole := by
    rintro _ _ ⟨parts, parts', rfl, rfl, same⟩
    exact same

end Lists

/-! ## Output of programs -/

mutual

theorem watched_always (names : List Text) :
    ∀ s, Stmt.watched (fun names _ => some names) names s = some names
  | .plain _ _ => rfl
  | .suite body => by rw [Stmt.watched, if_pos (watchedAll_always names body)]

theorem watchedAll_always (names : List Text) :
    ∀ ss, Stmt.watchedAll (fun names _ => some names) names ss = some names
  | [] => rfl
  | s :: ss => by
    rw [Stmt.watchedAll, watched_always names s]
    exact watchedAll_always names ss

end

section Joined

variable {p p' : Program} (same : p'.strategy = p.strategy) (joins : Stmt.Joins p.body p'.body)
  (host : Interpretation)

include same joins

/-- Joining texts does not change what a program does if its buffers are texts. -/
theorem run_joins_of_string (kept : p.strategy = .string) (env : Env) :
    p'.run host env = p.run host env := by
  refine Eq.symm (Concur.eq ?_)
  rw [run, run, same, kept]
  have runs := ((Simulation.ofTexts host).runs_joins joins).1 [] [] (watchedAll_always [] _)
  refine (runs none _ _ rfl).bind ?_
  rintro env _ rfl
  exact .refl _ fun _ => rfl

/-- Joining texts does not change the output of a program whose code does not look at buffers. -/
theorem run_joins_of_isDiscreet {looking : Lookers} (looks : host.LooksBy looking)
    (discreet : p.isDiscreet looking)
    (env : Env) : (p'.run host env).map Prod.snd = (p.run host env).map Prod.snd := by
  cases kept : p.strategy with
  | string => rw [run_joins_of_string same joins host kept]
  | array =>
    have watched : Stmt.watchedAll (Form.opened looking) [buffer] p.body = some [buffer] := by
      simpa [isDiscreet] using discreet
    have runs := ((Simulation.ofBuffers looks sameText_buffers).runs_joins joins).1 _ _ watched
    have start := env.agreeBut_refl SameText
    have ends : Concur (fun r r' => r.2 = r'.2) (p.run host env) (p'.run host env) := by
      rw [run, run, same, kept]
      refine (runs none _ _ (start.set_related sameText_buffers.empty)).bind fun env env' agrees =>
        ?_
      refine (agrees.get_concur (mem_singleton_self buffer)).bind fun v v' here => ?_
      rw [sameText_buffers.whole here]
      exact .same fun t => .ok rfl
    exact (ends.map_eq fun _ _ alike => alike).symm

end Joined

end Program

end MarkupTemplate
