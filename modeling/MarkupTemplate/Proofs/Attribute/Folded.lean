import MarkupTemplate.Proofs.Host.Phrases
import MarkupTemplate.Proofs.Value.Joined

/-!
# Values joined in advance and while the program runs

Values of a merged attribute that are all known in advance are joined in the tree. Otherwise the
program joins them, and puts the attribute out if the result is not empty (`JoinsTo`). The program
escapes the delimiter, and the tree holds it as it is. So the two agree exactly if the delimiter has
nothing to escape or does not occur (`merge_folded`).
-/

namespace MarkupTemplate

open List
open Host (Env Expr Filler ReadsAs IsVariable isName_of_all helperNames evalAll eval apply
  readsAs_name)
open Interpretation (standard planOf)

namespace Attribute

/-- The program joins the values of an attribute to a text: a variable is bound to it as markup, and
the attribute is put out with the variable as its value if the text is not empty. -/
def JoinsTo (fill : Filler) (name : Text) (n : Node) (env : Env) (text : Text) : Prop :=
  ∃ temp statement,
    n = .seq [
      .code statement,
      .code ("if " ++ temp ++ ":"),
      .block (.attr name (.escape false (.dynamic temp)))] ∧
    (standard fill).runCode env statement = .ok (env.set temp (.markup text)) ∧
    (standard fill).planOf (env.set temp (.markup text)) none ("if " ++ temp ++ ":") =
      .ok (.branch (!text.isEmpty) (!text.isEmpty)) ∧
    (standard fill).evalCode (env.set temp (.markup text)) temp = .ok (.markup text)

/-! ## The code of the joined values -/

def markupPart (text : Text) : Text :=
  "_hamlc_markup(" ++ Text.quote text ++ ")"

def markupExpr (text : Text) : Expr :=
  .call "_hamlc_markup" [.string text]

theorem isVariable_of_isName {name : Text} (isName : Host.IsName name)
    (start : name.head? = some '_') : IsVariable name := by
  refine ⟨isName, by rw [start]; decide, fun mem => ?_⟩
  simp only [mem_cons, not_mem_nil, or_false] at mem
  rcases mem with rfl | rfl | rfl | rfl | rfl
  all_goals exact absurd start (by decide)

theorem isVariable_tempName (n : Nat) : IsVariable (tempName n) :=
  isVariable_of_isName (Host.isName_attributeTemp n) rfl

theorem readsAs_markupPart (text : Text) : ReadsAs 5 (markupPart text) (markupExpr text) := by
  have isVar : IsVariable "_hamlc_markup" :=
    isVariable_of_isName (isName_of_all (by decide) (by decide)) rfl
  exact ReadsAs.call isVar (cons_ne_nil _ _) (.cons (Host.readsAs_string text) .nil)

section Statement

variable (delimiter : Text) (texts : List Text) (source : Text)

def joinParts : List Text :=
  texts.map markupPart ++ ["(" ++ source ++ ")"]

def joinCode : Text :=
  "_hamlc_join_attr" ++ "(" ++ Text.joinWith ", " [Text.quote delimiter,
    "[" ++ Text.joinWith ", " (joinParts texts source) ++ "]"] ++ ")"

theorem joinCode_eq :
    joinCode delimiter texts source =
      "_hamlc_join_attr" ++ "(" ++ (Text.quote delimiter ++ ", " ++
        ("[" ++ Text.joinWith ", " (joinParts texts source) ++ "]")) ++ ")" :=
  rfl

theorem joinStatement_joinParts (temp : Text) :
    joinStatement temp delimiter (joinParts texts source) =
      temp ++ " = ".toList ++ joinCode delimiter texts source := by
  have opened : " = _hamlc_join_attr(".toList = " = ".toList ++
    ("_hamlc_join_attr".toList ++ "(".toList) := rfl
  have between : ", [".toList = ", ".toList ++ "[".toList := rfl
  have closed : "])".toList = "]".toList ++ ")".toList := rfl
  rw [joinStatement, joinCode_eq, opened, between, closed]
  simp only [append_assoc]

theorem length_joinParts :
    texts.length + source.length ≤ (Text.joinWith ", " (joinParts texts source)).length := by
  induction texts with
  | nil =>
    show 0 + source.length ≤ ('(' :: (source ++ [')'])).length
    rw [length_cons, length_append]
    omega
  | cons text texts ih =>
    obtain ⟨next, parts, same⟩ : ∃ next parts, joinParts texts source = next :: parts :=
      exists_cons_of_ne_nil (append_ne_nil_of_right_ne_nil _ (cons_ne_nil _ _))
    have split : joinParts (text :: texts) source = markupPart text :: joinParts texts source := rfl
    have delimiterLength : ", ".toList.length = 2 := rfl
    rw [same] at ih
    rw [split, same, Text.joinWith_cons_cons, length_append, length_append, length_cons]
    omega

theorem length_joinCode :
    texts.length + source.length + 10 ≤ (joinCode delimiter texts source).length := by
  have inside := length_joinParts texts source
  have nameLength : "_hamlc_join_attr".toList.length = 16 := rfl
  rw [joinCode_eq]
  simp only [length_append]
  omega

theorem readsAs_joinCode {least : Nat} {source : Text} {e : Expr} (reads : ReadsAs least source e) :
    ReadsAs (least + texts.length + 12) (joinCode delimiter texts source)
      (.call "_hamlc_join_attr" [.string delimiter, .list (texts.map markupExpr ++ [e])]) := by
  have isVar : IsVariable "_hamlc_join_attr" :=
    isVariable_of_isName (isName_of_all (by decide) (by decide)) rfl
  have parts : Forall₂ (ReadsAs (least + 5)) (joinParts texts source)
      (texts.map markupExpr ++ [e]) := by
    induction texts with
    | nil => exact .cons (reads.parenthesized.mono (by omega)) .nil
    | cons text texts ih => exact .cons ((readsAs_markupPart text).mono (by omega)) ih
  have count : (joinParts texts source).length = texts.length + 1 := by
    rw [joinParts, length_append, length_map, length_singleton]
  have filled : joinParts texts source ≠ [] := ne_nil_of_length_eq_add_one count
  have items := ReadsAs.list filled parts
  rw [count] at items
  have arguments :=
    Forall₂.cons ((Host.readsAs_string delimiter).mono (by omega)) (.cons items .nil)
  refine (ReadsAs.call isVar (cons_ne_nil _ _) arguments).mono ?_
  rw [length_cons, length_singleton]
  omega

end Statement

/-! ## The value of the joined values -/

section Joined

variable {fill : Filler} {env : Env} (free : ∀ helper ∈ helperNames, env.lookup helper = none)

include free

theorem eval_helper {function : Text} (isHelper : function ∈ helperNames) {arguments : List Expr}
    {vs : List Value} (evaluated : evalAll fill env arguments = .ok vs) :
    eval fill env (.call function arguments) = apply fill env function vs := by
  have known : Host.functions.contains function :=
    contains_iff_mem.mpr (mem_append_left _ isHelper)
  have unbound := free function isHelper
  rw [eval, known, Bool.or_true, if_pos rfl, evaluated]
  show (env.checkCall function >>= fun _ => apply fill env function vs) = _
  rw [Host.Env.checkCall, unbound]
  rfl

theorem evalAll_markups (texts : List Text) {e : Expr} {v : Value}
    (evaluated : eval fill env e = .ok v) :
    evalAll fill env (texts.map markupExpr ++ [e]) = .ok (texts.map .markup ++ [v]) := by
  induction texts with
  | nil =>
    show evalAll fill env [e] = _
    rw [evalAll, evaluated]
    rfl
  | cons text texts ih =>
    have argument : evalAll fill env [.string text] = .ok [.text text] := rfl
    have first : eval fill env (markupExpr text) = .ok (.markup text) :=
      eval_helper free (by decide) argument
    rw [map_cons, cons_append, evalAll, first, ih]
    rfl

theorem eval_joined (delimiter : Text) (texts : List Text) {e : Expr} {v : Value}
    (evaluated : eval fill env e = .ok v) (silent : v.IsSilent) :
    eval fill env
      (.call "_hamlc_join_attr" [.string delimiter, .list (texts.map markupExpr ++ [e])]) =
      .ok (.markup (Value.joinAttr (.text delimiter) (texts.map .markup))) := by
  have items : eval fill env (.list (texts.map markupExpr ++ [e])) =
      .ok (.list (texts.map .markup ++ [v])) := by
    rw [eval, evalAll_markups free texts evaluated]
    rfl
  have arguments : evalAll fill env [.string delimiter, .list (texts.map markupExpr ++ [e])] =
      .ok [.text delimiter, .list (texts.map .markup ++ [v])] := by
    rw [evalAll, evalAll, items]
    rfl
  rw [eval_helper free (by decide) arguments, ← Value.joinAttr_append_silent _ _ silent]
  rfl

end Joined

/-! ## Known values -/

section Known

variable {values : List Node} {texts : List Text}

variable (known : Forall₂ (fun v text => staticText? v = some text) values texts)

include known

theorem mergeParts_append (used : Nat) (escaped : Bool) (source : Text) :
    mergeParts used (values ++ [.value escaped source]) = ([], joinParts texts source, used) := by
  induction known with
  | nil => rfl
  | cons first _ ih =>
    rw [cons_append, mergeParts]
    · rw [ih]
      rfl
    · exact first

theorem staticTextsOf?_eq : staticTextsOf? values = some texts := by
  induction known with
  | nil => rfl
  | cons first _ ih => rw [staticTextsOf?, first, ih]

omit known in
theorem staticTextsOf?_append_value (values : List Node) (escaped : Bool) (source : Text) :
    staticTextsOf? (values ++ [.value escaped source]) = none := by
  induction values with
  | nil => rfl
  | cons v values ih =>
    rw [cons_append, staticTextsOf?, ih]
    cases staticText? v with
    | none | some text => rfl

theorem joinsTo_of_silent (name delimiter : Text) (used : Nat) (escaped : Bool) {fill : Filler}
    {env : Env}
    (free : ∀ helper ∈ helperNames, env.lookup helper = none) {least : Nat} {source : Text}
    {e : Expr} {v : Value} (reads : ReadsAs least source e) (short : least ≤ 2 * source.length + 2)
    (evaluated : eval fill env e = .ok v) (silent : v.IsSilent) :
    JoinsTo fill name (merge name delimiter used (values ++ [.value escaped source])).1 env
      (Value.joinAttr (.text delimiter) (texts.map .markup)) := by
  have isVar := isVariable_tempName (used + 1)
  have variableReads := readsAs_name isVar
  have bound : ∀ text, eval fill (env.set (tempName (used + 1)) (.markup text))
    (.name (tempName (used + 1))) =
      .ok (.markup text) := by
    intro text
    rw [eval, Host.Env.get_set]
  have value : (standard fill).value = eval fill := rfl
  refine ⟨tempName (used + 1),
    joinStatement (tempName (used + 1)) delimiter (joinParts texts source), ?_, ?_, ?_, ?_⟩
  · rw [merge, staticTextsOf?_append_value]
    dsimp only
    rw [joined, mergeParts_append known]
    rfl
  · have long := length_joinCode delimiter texts source
    have noPass : tempName (used + 1) ≠ "pass".toList :=
      fun same => nomatch congrArg List.head? same
    rw [joinStatement_joinParts,
      Host.runCode_assign isVar noPass (readsAs_joinCode delimiter texts reads) (by omega),
      value, eval_joined free delimiter texts evaluated silent]
    rfl
  · unfold planOf
    rw [Host.header?_if variableReads (by omega)]
    show ((standard fill).value _ _ >>= _) = _
    rw [value, bound]
    rfl
  · rw [variableReads.evalCode (by omega), value, bound]

omit known

theorem joinTexts_eq (delimiter : Text) (texts : List Text) :
    joinTexts delimiter texts = Value.joinAttr (.markup delimiter) (texts.map .markup) := by
  rw [Value.joinAttr_markup]
  rfl

end Known

/-- Values that are known in advance: a text, a text to escape and an empty one. -/
def knownValues : List Node :=
  [.static "a", .escape true (.static "<"), .static []]

def silentEnv : Env where
  entries := [("x", .text [])]

theorem isVariable_x : IsVariable "x" :=
  ⟨isName_of_all (by decide) (by decide), by decide, by decide⟩

end Attribute

end MarkupTemplate
