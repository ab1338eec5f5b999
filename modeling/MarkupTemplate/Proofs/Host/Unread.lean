import Mathlib.Data.Option.Basic
import MarkupTemplate.Program.Run
import MarkupTemplate.Proofs.Node.Walk

/-!
# Code that leaves some names alone

Code *spares* names if it mentions none of them and calls no function of a parameter `looking`:
those of the host through which code sees variables that it does not mention. A template between
double braces may be given all variables, since it does not see the program's own names. On the
library's own host, an expression that spares the names in which two environments differ has the
same value in both (`eval_eq`).
-/

namespace MarkupTemplate.Host

open List

/-! ## Sparing names -/

/-- The function that gives all variables. -/
def allVariables : Text := "globals"

/-- The function that fills in a template between double braces. -/
def filler : Text := "_hamlc_render_jinja"

/-- Functions by which code may see variables it does not mention; the library calls none. -/
structure Lookers where
  names : List Text
  foreign : ∀ name ∈ "str".toList :: helperNames, name ∉ names

mutual

/-- Whether an expression leaves names alone. `hidden`: it is a template scope without them. -/
def Expr.spares (looking : Lookers) (names : List Text) : (hidden : Bool) → Expr → Bool
  | _, .name n => !names.contains n
  | _, .number _ => true
  | _, .string _ => true
  | _, .rich _ _ => true
  | _, .nothing => true
  | _, .truth _ => true
  | _, .list items => sparesAll looking names false items
  | _, .tuple items => sparesAll looking names false items
  | hidden, .call function [] =>
    !looking.names.contains function || (hidden && function == allVariables)
  | _, .call function (first :: more) =>
    !looking.names.contains function && Expr.spares looking names false first
      && sparesAll looking names (function == filler && !names.any isVisible) more
  | _, .negate e => Expr.spares looking names false e
  | _, .equals a b => Expr.spares looking names false a && Expr.spares looking names false b
  | _, .member a b => Expr.spares looking names false a && Expr.spares looking names false b

/-- Whether expressions leave names alone. -/
def sparesAll (looking : Lookers) (names : List Text) (hidden : Bool) : List Expr → Bool
  | [] => true
  | e :: es => Expr.spares looking names hidden e && sparesAll looking names hidden es

end

/-! ## Environments that differ in some names -/

theorem Env.lookup_set (env : Env) (name key : Text) (v : Value) :
    (env.set name v).lookup key = if key = name then some v else env.lookup key := by
  show (Env.bind name v env.entries).lookup key = if key = name then some v
    else env.entries.lookup key
  induction env.entries with
  | nil =>
    rw [Env.bind, lookup_cons, lookup_nil]
    cases same : key == name with
    | true => simp [beq_iff_eq.mp same]
    | false => simp [beq_eq_false_iff_ne.mp same]
  | cons entry entries ih =>
    obtain ⟨old, w⟩ := entry
    rw [Env.bind]
    by_cases here : old = name
    · rw [if_pos here, lookup_cons, lookup_cons, here]
      cases same : key == name with
      | true => simp [beq_iff_eq.mp same]
      | false => simp [beq_eq_false_iff_ne.mp same]
    · rw [if_neg here, lookup_cons, lookup_cons, ih]
      cases same : key == old with
      | true => simp [beq_iff_eq.mp same, here]
      | false => rfl

theorem Env.get_set (env : Env) (name : Text) (v : Value) : (env.set name v).get name = .ok v := by
  rw [Env.get, Env.lookup_set, if_pos rfl]

theorem Env.set_set (env : Env) (name : Text) (v w : Value) :
    (env.set name v).set name w = env.set name w := by
  have entries : Env.bind name w (Env.bind name v env.entries) = Env.bind name w env.entries := by
    induction env.entries with
    | nil => simp [Env.bind]
    | cons entry entries ih =>
      by_cases here : entry.1 = name
      · simp [Env.bind, here]
      · simp [Env.bind, here, ih]
  unfold Env.set
  simp only [entries]

/-- Entries of one name with the same value, or related values if the name is one of the given. -/
def AgreeAt (related : Value → Value → Prop) (names : List Text) (entry entry' : Text × Value) :
    Prop :=
  entry.1 = entry'.1 ∧ (entry.1 ∉ names → entry.2 = entry'.2) ∧
    (entry.1 ∈ names → related entry.2 entry'.2)

/-- Environments with the same names in order and the same values, but related under some names. -/
def Env.AgreeBut (related : Value → Value → Prop) (names : List Text) (env env' : Env) : Prop :=
  Forall₂ (AgreeAt related names) env.entries env'.entries

theorem Env.agreeBut_refl (related : Value → Value → Prop) (env : Env) :
    env.AgreeBut related [] env :=
  List.forall₂_same.mpr fun _ _ => ⟨rfl, fun _ => rfl, fun mem => absurd mem not_mem_nil⟩

section Entries

variable {related : Value → Value → Prop} {names names' : List Text} {es es' : List (Text × Value)}
  {name : Text} {v v' : Value}

theorem forall₂_lookup (agree : Forall₂ (AgreeAt related names) es es') (name : Text) :
    (name ∉ names → es.lookup name = es'.lookup name) ∧
      (name ∈ names → Option.Rel related (es.lookup name) (es'.lookup name)) := by
  induction agree with
  | nil => exact ⟨fun _ => rfl, fun _ => .none⟩
  | @cons entry entry' es es' here _ ih =>
    obtain ⟨key, v⟩ := entry
    obtain ⟨key', v'⟩ := entry'
    obtain ⟨rfl, same, here⟩ : key = key' ∧ _ := here
    rw [lookup_cons, lookup_cons]
    cases found : name == key with
    | true =>
      obtain rfl := beq_iff_eq.mp found
      exact ⟨fun other => congrArg some (same other), fun mem => .some (here mem)⟩
    | false => exact ih

theorem agreeAt_of_iff {entry entry' : Text × Value} (agree : AgreeAt related names entry entry')
    (same : entry.1 ∈ names' ↔ entry.1 ∈ names) : AgreeAt related names' entry entry' :=
  ⟨agree.1, fun other => agree.2.1 fun mem => other (same.mpr mem),
    fun mem => agree.2.2 (same.mp mem)⟩

/-- Binding a name on both sides, after which it may be another one that matters. -/
theorem forall₂_bind (agree : Forall₂ (AgreeAt related names) es es')
    (distinct : (es.map Prod.fst).Nodup)
    (others : ∀ key, key ≠ name → (key ∈ names' ↔ key ∈ names))
    (here : AgreeAt related names' (name, v) (name, v')) :
    Forall₂ (AgreeAt related names') (Env.bind name v es) (Env.bind name v' es') := by
  induction agree with
  | nil => exact .cons here .nil
  | @cons entry entry' es es' first rest ih =>
    obtain ⟨key, w⟩ := entry
    obtain ⟨key', w'⟩ := entry'
    obtain rfl : key = key' := first.1
    obtain ⟨fresh, distinct⟩ := nodup_cons.mp distinct
    rw [Env.bind, Env.bind]
    by_cases same : key = name
    · rw [if_pos same, if_pos same]
      have apart : ∀ e ∈ es, e.1 ≠ name := by
        intro entry mem found
        have among : name ∈ es.map Prod.fst := found ▸ mem_map_of_mem mem
        exact fresh (same ▸ among)
      refine .cons here (((forall₂_and_left es es').mpr ⟨apart, rest⟩).imp ?_)
      exact fun _ _ both => agreeAt_of_iff both.2 (others _ both.1)
    · rw [if_neg same, if_neg same]
      exact .cons (agreeAt_of_iff first (others key same)) (ih distinct)

end Entries

namespace Env.AgreeBut

variable {related : Value → Value → Prop} {names : List Text} {env env' : Env}

variable (agree : AgreeBut related names env env')

include agree

theorem lookup_eq {name : Text} (other : name ∉ names) : env.lookup name = env'.lookup name :=
  (forall₂_lookup agree name).1 other

theorem lookup_rel {name : Text} (mem : name ∈ names) :
    Option.Rel related (env.lookup name) (env'.lookup name) :=
  (forall₂_lookup agree name).2 mem

theorem isSome_eq (name : Text) : (env.lookup name).isSome = (env'.lookup name).isSome := by
  by_cases mem : name ∈ names
  · have here := agree.lookup_rel mem
    generalize env.lookup name = found, env'.lookup name = found' at here ⊢
    cases here with
    | some _ | none => rfl
  · rw [agree.lookup_eq mem]

theorem get_eq {name : Text} (other : name ∉ names) : env.get name = env'.get name := by
  rw [Env.get, Env.get, agree.lookup_eq other]

theorem checkCall_eq (function : Text) : env.checkCall function = env'.checkCall function := by
  rw [Env.checkCall, Env.checkCall, agree.isSome_eq]

theorem get_concur {name : Text} (mem : name ∈ names) :
    Concur related (env.get name) (env'.get name) := by
  have here := agree.lookup_rel mem
  rw [Env.get, Env.get]
  generalize env.lookup name = found, env'.lookup name = found' at here ⊢
  cases here with
  | some here => exact .ok here
  | none => exact .error _

theorem set {name : Text} (other : name ∉ names) (v : Value) :
    AgreeBut related names (env.set name v) (env'.set name v) :=
  forall₂_bind agree env.distinct (fun _ _ => Iff.rfl) ⟨rfl, fun _ => rfl,
    fun mem => absurd mem other⟩

theorem set_related {name : Text} {v v' : Value} (here : related v v') :
    AgreeBut related (name :: names) (env.set name v) (env'.set name v') :=
  forall₂_bind agree env.distinct (fun _ apart => by simp [apart])
    ⟨rfl, fun other => absurd (.head _) other, fun _ => here⟩

theorem set_closed (name : Text) (v : Value) :
    AgreeBut related (names.filter (· ≠ name)) (env.set name v) (env'.set name v) :=
  forall₂_bind agree env.distinct (fun _ apart => by simp [apart])
    ⟨rfl, fun _ => rfl, fun mem => by simp at mem⟩

theorem of_same_names {names' : List Text} (same : ∀ name, name ∈ names' ↔ name ∈ names) :
    AgreeBut related names' env env' :=
  Forall₂.imp (fun _ _ here => agreeAt_of_iff here (same _)) agree

end Env.AgreeBut

/-- Where no values are told apart under some names, one of them may be bound again on one side. -/
theorem Env.AgreeBut.set_left {names : List Text} {env env' : Env}
    (agree : env.AgreeBut (fun _ _ => True) names env')
    {name : Text} (mem : name ∈ names) (bound : (env.lookup name).isSome) (v : Value) :
    (env.set name v).AgreeBut (fun _ _ => True) names env' := by
  unfold Env.AgreeBut at agree ⊢
  have found : (env.entries.lookup name).isSome := bound
  show Forall₂ _ (Env.bind name v env.entries) env'.entries
  generalize env.entries = es, env'.entries = es' at agree found
  induction agree with
  | nil => nomatch found
  | @cons entry entry' es es' first rest ih =>
    obtain ⟨key, w⟩ := entry
    rw [Env.bind]
    by_cases same : key = name
    · rw [if_pos same]
      exact .cons ⟨same ▸ first.1, fun other => absurd mem other, fun _ => trivial⟩ rest
    · rw [if_neg same]
      rw [lookup_cons, beq_eq_false_iff_ne.mpr (Ne.symm same)] at found
      exact .cons first (ih found)

/-! ## Values of code -/

section Eval

variable {fill : Filler} {related : Value → Value → Prop} {looking : Lookers} {names : List Text}
  {env env' : Env}

/-- A template between double braces is given the visible names only. -/
theorem filter_isVisible (agree : env.AgreeBut related names env')
    (hidden : ∀ name ∈ names, ¬isVisible name) :
    env.entries.filter (fun entry => isVisible entry.1) = env'.entries.filter fun entry =>
      isVisible entry.1 := by
  unfold Env.AgreeBut at agree
  generalize env.entries = es, env'.entries = es' at agree ⊢
  induction agree with
  | nil => rfl
  | @cons entry entry' es es' here _ ih =>
    obtain ⟨key, v⟩ := entry
    obtain ⟨key', v'⟩ := entry'
    obtain ⟨rfl, same, -⟩ : key = key' ∧ _ := here
    rw [filter_cons, filter_cons, ih]
    by_cases mem : key ∈ names
    · rw [if_neg (hidden key mem), if_neg (hidden key mem)]
    · rw [show v = v' from same mem]

/-- Two values of an expression: the same, or all variables of the two environments. -/
def Seen (hidden : Bool) (env env' : Env) (v v' : Value) : Prop :=
  v = v' ∨ hidden = true ∧ v = .dict env.entries ∧ v' = .dict env'.entries

theorem eq_of_seen {v v' : Value} (seen : Seen false env env' v v') : v = v' := by
  rcases seen with same | ⟨never, _⟩
  · exact same
  · nomatch never

theorem eq_of_forall_seen {vs vs' : List Value} (seen : Forall₂ (Seen false env env') vs vs') :
    vs = vs' := by
  induction seen with
  | nil => rfl
  | cons first _ ih => rw [eq_of_seen first, ih]

theorem apply_eq {function : Text} (known : function ∈ functions) (other : function ≠ allVariables)
    (arguments : List Value) :
    apply fill env function arguments = apply fill env' function arguments := by
  simp only [functions, helperNames, cons_append, nil_append, mem_cons,
    not_mem_nil, or_false] at known
  rcases known with rfl | rfl | rfl | rfl | rfl | rfl | rfl
  · rfl
  · rfl
  · rfl
  · rfl
  · rfl
  · rfl
  · exact absurd rfl other

theorem apply_filler_many (first second third : Value) (more : List Value) :
    apply fill env filler (first :: second :: third :: more) = .error .wrongType := by
  cases second with
  | _ => rfl

theorem apply_filler (agree : env.AgreeBut related names env')
    (hidden : ∀ name ∈ names, ¬isVisible name) {first : Value} {more more' : List Value}
    (seen : Forall₂ (Seen true env env') more more') :
    apply fill env filler (first :: more) = apply fill env' filler (first :: more') := by
  cases seen with
  | nil => rfl
  | cons second rest =>
    cases rest with
    | nil =>
      rcases second with rfl | ⟨-, rfl, rfl⟩
      · rfl
      · show (fill (env.entries.filter fun entry => isVisible entry.1) first.toText).map
          Value.markup =
          (fill (env'.entries.filter fun entry => isVisible entry.1) first.toText).map Value.markup
        rw [filter_isVisible agree hidden]
    | cons third rest => rw [apply_filler_many, apply_filler_many]

/-- A call does not get to a function whose name has been given a value. -/
theorem call_agree (agree : env.AgreeBut related names env') {function : Text}
    (known : ((env'.lookup function).isSome || functions.contains function) = true)
    {result : Value → Value → Prop} {arguments arguments' : List Value}
    (called : function ∈ functions →
      Concur result (apply fill env function arguments) (apply fill env' function arguments')) :
    Concur result (env.checkCall function >>= fun _ => apply fill env function arguments)
      (env'.checkCall function >>= fun _ => apply fill env' function arguments') := by
  rw [agree.checkCall_eq, Env.checkCall]
  cases bound : (env'.lookup function).isSome with
  | true => exact .error _
  | false => exact called (by simpa [bound] using known)

variable (looks : allVariables ∈ looking.names)

include looks

mutual

/-- An expression that spares the names two environments differ in has the same value in both. -/
theorem eval_agree (agree : env.AgreeBut related names env') :
    ∀ (e : Expr) {hidden : Bool}, e.spares looking names hidden →
      Concur (Seen hidden env env') (eval fill env e) (eval fill env' e)
  | .name n, _, spares => by
    have other : n ∉ names := by simpa [Expr.spares] using spares
    rw [eval, eval, agree.get_eq other]
    exact .refl _ fun _ => .inl rfl
  | .number _, _, _ | .string _, _, _ | .nothing, _, _ | .truth _, _, _ => .ok (.inl rfl)
  | .rich _ _, _, _ => by
    rw [eval, eval, agree.checkCall_eq, agree.checkCall_eq]
    exact .refl _ fun _ => .inl rfl
  | .list items, _, spares | .tuple items, _, spares => by
    rw [eval, eval]
    refine (evalAll_agree agree items (by simpa [Expr.spares] using spares)).bind fun vs vs' seen =>
      ?_
    exact .ok (.inl (by rw [eq_of_forall_seen seen]))
  | .call function [], hidden, spares => by
    rw [eval, eval, agree.isSome_eq]
    split
    next known =>
      refine call_agree agree known fun mem => ?_
      by_cases all : function = allVariables
      · have here : hidden = true := by simpa [Expr.spares, all, looks] using spares
        rw [all]
        exact .ok (.inr ⟨here, rfl, rfl⟩)
      · rw [apply_eq mem all]
        exact .refl _ fun _ => .inl rfl
    next => exact .error _
  | .call function (first :: more), _, spares => by
    have parts : (function ∉ looking.names ∧ first.spares looking names false) ∧
        sparesAll looking names (function == filler && !names.any isVisible) more := by
      simpa [Expr.spares] using spares
    have other : function ≠ allVariables := fun same => parts.1.1 (same ▸ looks)
    have arguments : Concur (fun vs vs' => ∃ v ws ws', vs = v :: ws ∧ vs' = v :: ws' ∧
        Forall₂ (Seen (function == filler && !names.any isVisible) env env') ws ws')
        (evalAll fill env (first :: more)) (evalAll fill env' (first :: more)) := by
      rw [evalAll, evalAll]
      refine (eval_agree agree first parts.1.2).bind fun v v' head => ?_
      refine (evalAll_agree agree more parts.2).bind fun ws ws' rest => ?_
      exact .ok ⟨v, ws, ws', rfl, by rw [eq_of_seen head], rest⟩
    rw [eval, eval, agree.isSome_eq]
    split
    next known =>
      refine arguments.bind ?_
      rintro _ _ ⟨v, ws, ws', rfl, rfl, seen⟩
      refine call_agree agree known fun mem => ?_
      have same : apply fill env function (v :: ws) = apply fill env' function (v :: ws') := by
        cases hides : function == filler && !names.any isVisible with
        | true =>
          rw [hides] at seen
          have both : function = filler ∧ ∀ name ∈ names, ¬isVisible name := by
            simpa using hides
          rw [both.1]
          exact apply_filler agree both.2 seen
        | false =>
          rw [hides] at seen
          rw [eq_of_forall_seen seen]
          exact apply_eq mem other _
      rw [same]
      exact .refl _ fun _ => .inl rfl
    next => exact .error _
  | .negate e, _, spares => by
    rw [eval, eval]
    refine (eval_agree agree e (by simpa [Expr.spares] using spares)).bind fun v v' seen => ?_
    exact .ok (.inl (by rw [eq_of_seen seen]))
  | .equals a b, _, spares => by
    have both : a.spares looking names false ∧ b.spares looking names false := by
      simpa [Expr.spares] using spares
    rw [eval, eval]
    refine (eval_agree agree a both.1).bind fun v v' left => ?_
    refine (eval_agree agree b both.2).bind fun w w' right => ?_
    exact .ok (.inl (by rw [eq_of_seen left, eq_of_seen right]))
  | .member a b, _, spares => by
    have both : a.spares looking names false ∧ b.spares looking names false := by
      simpa [Expr.spares] using spares
    rw [eval, eval]
    refine (eval_agree agree a both.1).bind fun v v' left => ?_
    refine (eval_agree agree b both.2).bind fun w w' right => ?_
    rw [eq_of_seen left, eq_of_seen right]
    exact .same fun found => .ok (.inl rfl)

theorem evalAll_agree (agree : env.AgreeBut related names env') :
    ∀ (es : List Expr) {hidden : Bool}, sparesAll looking names hidden es →
      Concur (Forall₂ (Seen hidden env env')) (evalAll fill env es) (evalAll fill env' es)
  | [], _, _ => .ok .nil
  | e :: es, hidden, spares => by
    have both : e.spares looking names hidden ∧ sparesAll looking names hidden es := by
      simpa [sparesAll] using spares
    rw [evalAll, evalAll]
    refine (eval_agree agree e both.1).bind fun v v' first => ?_
    refine (evalAll_agree agree es both.2).bind fun vs vs' rest => ?_
    exact .ok (.cons first rest)

end

theorem eval_eq (agree : env.AgreeBut related names env') {e : Expr}
    (spares : e.spares looking names false) : eval fill env e = eval fill env' e :=
  ((eval_agree looks agree e spares).mono fun _ _ seen => eq_of_seen seen).eq

end Eval

/-! ## Code of a program -/

/-- Whether a statement leaves names alone: it reads and binds none of them. -/
def Line.spares (looking : Lookers) (names : List Text) : Line → Bool
  | .assign name e => !names.contains name && e.spares looking names false
  | .ifTrue e => e.spares looking names false
  | .elseIf e => e.spares looking names false
  | .otherwise => true
  | .loop name e => !names.contains name && e.spares looking names false
  | .skip => true

/-- Whether the code of an expression leaves names alone. -/
def exprSpares (looking : Lookers) (names : List Text) (code : Text) : Bool :=
  (wholeExpr? code).all (Expr.spares looking names false)

/-- Whether the code of a statement leaves names alone, taken as a header and by itself. -/
def codeSpares (looking : Lookers) (names : List Text) (code : Text) : Bool :=
  (header? code).all (Line.spares looking names) &&
    (simples? code).all fun lines => lines.all (Line.spares looking names)

end MarkupTemplate.Host
