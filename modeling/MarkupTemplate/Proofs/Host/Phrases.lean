import MarkupTemplate.Embedded.Engine
import MarkupTemplate.Proofs.Host.Mentions

/-!
# Phrases

The code that the library writes is put together from literals, names, calls, lists and parentheses.
Each reads as the expression it was written for, whatever follows that can end an expression
(`ReadsAs`). Reading takes fewer steps than the length of a code allows.
-/

namespace MarkupTemplate.Host

open List
open Text (isBlank isWord quote quoteFor joinWith trimLeft)

/-- What can follow an expression: nothing, a comma, a closing bracket or a colon. -/
def EndsExpr (t : Text) : Prop :=
  ∀ c ∈ t.head?, c = ',' ∨ c = ']' ∨ c = ')' ∨ c = ':'

/-- A code that reads as an expression if `least` steps are allowed. -/
structure ReadsAs (least : Nat) (code : Text) (e : Expr) : Prop where
  /-- It starts with neither a blank nor a closing bracket. -/
  start : ∃ c u, code = c :: u ∧ isBlank c = false ∧ c ≠ ']' ∧ c ≠ ')'
  /-- It ends where an expression can end. -/
  read {steps : Nat} (enough : least ≤ steps) (bracketed : Bool) {rest : Text}
    (ends : EndsExpr rest) :
    expr? steps bracketed (code ++ rest) = some (e, rest)

theorem comparison?_of_ends {steps : Nat} {bracketed : Bool} {rest : Text} (ends : EndsExpr rest)
    (a : Expr) : comparison? (steps + 1) bracketed a rest = some (a, rest) := by
  cases rest with
  | nil => rw [comparison?]; rfl
  | cons c rest =>
    have sign : isBlank c = false ∧ isWord c = false ∧ c ≠ '=' := by
      rcases ends c rfl with rfl | rfl | rfl | rfl
      all_goals decide
    exact comparison?_cons sign.1 sign.2.1 sign.2.2 a rest

theorem ReadsAs.of_atom {least : Nat} {code : Text} {e : Expr}
    (start : ∃ c u, code = c :: u ∧ isBlank c = false ∧ c ≠ ']' ∧ c ≠ ')')
    (noNot : ∀ {rest}, EndsExpr rest → ∀ left, word? (code ++ rest) ≠ some ("not".toList, left))
    (read : ∀ {steps}, least ≤ steps → ∀ (bracketed : Bool) {rest}, EndsExpr rest →
      atom? (steps + 1) bracketed (code ++ rest) = some (e, rest)) :
      ReadsAs (least + 2) code e := by
  refine ⟨start, fun {steps} enough bracketed {rest} ends => ?_⟩
  obtain ⟨steps, rfl⟩ := Nat.exists_eq_add_of_le' enough
  obtain ⟨c, u, rfl, ink, _⟩ := start
  have still : skipBlanks bracketed (c :: u ++ rest) = c :: u ++ rest :=
    skipBlanks_cons ink (u ++ rest)
  show expr? (steps + least + 1 + 1) bracketed _ = _
  rw [expr?_of_atom still (noNot ends), read (Nat.le_add_left ..) bracketed ends]
  exact comparison?_of_ends ends e

theorem readsAs_string (text : Text) : ReadsAs 2 (quote text) (.string text) := by
  have isQuote := Text.quoteFor_cases text
  obtain ⟨u, same⟩ : ∃ u, quote text = quoteFor text :: u := ⟨_, rfl⟩
  have sign : isBlank (quoteFor text) = false ∧ quoteFor text ≠ ']' ∧ quoteFor text ≠ ')' := by
    rcases isQuote with same | same
    · rw [same]; decide
    · rw [same]; decide
  refine ReadsAs.of_atom ⟨_, u, same, sign⟩ ?_ ?_
  · intro rest _ left word
    rw [same, cons_append, word?_quote isQuote] at word
    nomatch word
  · intro steps _ bracketed rest _
    have literal := Text.unquote?_quote text rest
    rw [same, cons_append] at literal ⊢
    rw [atom?_quote isQuote, literal]
    rfl

theorem EndsExpr.cons {c : Char} (sign : c = ',' ∨ c = ']' ∨ c = ')' ∨ c = ':') (t : Text) :
    EndsExpr (c :: t) := by
  rintro _ ⟨⟩
  exact sign

theorem EndsExpr.noWord {rest : Text} (ends : EndsExpr rest) :
    ∀ c ∈ rest.head?, isWord c = false := by
  intro c first
  rcases ends c first with rfl | rfl | rfl | rfl
  all_goals decide

/-! ## Names -/

/-- A name that stands for a value. -/
structure IsVariable (name : Text) : Prop where
  isName : IsName name
  start : name.head?.all isNameStart
  own : name ∉ ["not".toList, "None".toList, "True".toList, "False".toList, "type".toList]

theorem IsVariable.first {name : Text} (isVar : IsVariable name) :
    ∃ c u, name = c :: u ∧ isBlank c = false ∧ c ≠ ']' ∧ c ≠ ')' := by
  obtain ⟨c, u, rfl⟩ := exists_cons_of_ne_nil isVar.isName.1
  have word : isWord c := isVar.isName.2 c (.head _)
  refine ⟨c, u, rfl, ?_, ?_, ?_⟩
  · by_contra blank
    rw [Bool.not_eq_false] at blank
    rw [Text.isWord_of_isBlank blank] at word
    nomatch word
  · rintro rfl
    exact absurd word (by decide)
  · rintro rfl
    exact absurd word (by decide)

theorem IsVariable.noNot {name rest : Text} (isVar : IsVariable name)
    (noWord : ∀ c ∈ rest.head?, isWord c = false) (left : Text) :
    word? (name ++ rest) ≠ some ("not".toList, left) := by
  intro word
  rw [word?_append isVar.isName isVar.start noWord] at word
  exact isVar.own ((Prod.mk.inj (Option.some.inj word)).1 ▸ .head _)

theorem IsVariable.noClass {name : Text} (isVar : IsVariable name) : name ≠ "type" := by
  rintro rfl
  exact absurd isVar.own (by decide)

theorem readsAs_name {name : Text} (isVar : IsVariable name) : ReadsAs 2 name (.name name) := by
  refine ReadsAs.of_atom isVar.first (fun ends => isVar.noNot ends.noWord) ?_
  intro steps _ bracketed rest ends
  have word := word?_append isVar.isName isVar.start ends.noWord
  obtain ⟨noList, noTuple, noRich, noString, noNumber⟩ := other_of_word? word
  have own := isVar.own
  simp only [mem_cons, not_mem_nil, or_false, not_or] at own
  rw [atom?, noRich own.2.2.2.2, noString, noNumber, word]
  · dsimp only
    split
    next same => cases same
    next u same =>
      cases same
      rcases ends '(' rfl with same | same | same | same
      all_goals exact absurd same (by decide)
    next same =>
      cases same
      rw [if_neg own.2.1, if_neg own.2.2.1, if_neg own.2.2.2.1]
  · exact noList
  · exact noTuple

/-! ## Parts between commas -/

section Parts

variable {least : Nat} {part : Text} {e : Expr} {parts : List Text} {es : List Expr}

theorem ReadsAs.first (reads : ReadsAs least part e) {close : Char}
    (isClose : close = ']' ∨ close = ')') :
    ∃ c u, part = c :: u ∧ isBlank c = false ∧ c ≠ close := by
  obtain ⟨c, u, same, ink, noList, noTuple⟩ := reads.start
  refine ⟨c, u, same, ink, ?_⟩
  rcases isClose with rfl | rfl
  · exact noList
  · exact noTuple

theorem skipBlanks_joinWith (reads : ReadsAs least part e) (parts : List Text) (t : Text) :
    skipBlanks true (joinWith ", " (part :: parts) ++ t) =
      joinWith ", " (part :: parts) ++ t := by
  obtain ⟨c, u, rfl, ink, _⟩ := reads.start
  obtain ⟨v, same⟩ : ∃ v, joinWith ", " ((c :: u) :: parts) = c :: v := by
    cases parts with
    | nil => exact ⟨u, rfl⟩
    | cons next parts => exact ⟨_, rfl⟩
  rw [same]
  exact skipBlanks_cons ink (v ++ t)

theorem items?_joinWith {close : Char} (isClose : close = ']' ∨ close = ')')
    (reads : List.Forall₂ (ReadsAs least) (part :: parts) (e :: es)) {steps : Nat}
    (enough : least + parts.length + 1 ≤ steps) {t rest : Text}
    (start : skipBlanks true t = joinWith ", " (part :: parts) ++ close :: rest) :
    items? steps close t = some (e :: es, false, rest) := by
  have closing : isBlank close = false ∧ ',' ≠ close ∧
      (close = ',' ∨ close = ']' ∨ close = ')' ∨ close = ':') := by
    rcases isClose with rfl | rfl
    all_goals decide
  induction parts generalizing part e es steps t with
  | nil =>
    obtain ⟨steps, rfl⟩ : ∃ n, steps = n + 1 := ⟨steps - 1, by omega⟩
    obtain ⟨own, last⟩ := forall₂_cons.mp reads
    cases last
    obtain ⟨c, u, rfl, ink, other⟩ := own.first isClose
    refine items?_last start other ?_ (skipBlanks_cons closing.1 rest)
    exact own.read (by simpa using enough) true (.cons closing.2.2 rest)
  | cons next parts ih =>
    obtain ⟨steps, rfl⟩ : ∃ n, steps = n + 1 := ⟨steps - 1, by omega⟩
    rw [length_cons] at enough
    obtain ⟨own, others⟩ := forall₂_cons.mp reads
    cases others with
    | @cons _ e' _ es second others =>
      -- The blank behind the comma is left out.
      have more : items? steps close (' ' :: (joinWith ", " (next :: parts) ++ close :: rest)) =
          some (e' :: es, false, rest) :=
        ih (.cons second others) (by omega) (skipBlanks_joinWith second parts (close :: rest))
      obtain ⟨c, u, rfl, ink, other⟩ := own.first isClose
      have split : joinWith ", " ((c :: u) :: next :: parts) ++ close :: rest =
          c :: (u ++ ',' :: ' ' :: (joinWith ", " (next :: parts) ++ close :: rest)) := by
        simp [joinWith]
      refine items?_more (start.trans split) other ?_ (skipBlanks_cons (by decide) _) closing.2.1
        more
      exact own.read (by omega) true (.cons (.inl rfl) _)

theorem items?_of_reads {close : Char} (isClose : close = ']' ∨ close = ')') (filled : parts ≠ [])
    (reads : List.Forall₂ (ReadsAs least) parts es) {steps : Nat}
    (enough : least + parts.length ≤ steps)
    (rest : Text) :
    items? steps close (joinWith ", " parts ++ close :: rest) = .some (es, false, rest) := by
  cases reads with
  | nil => exact absurd rfl filled
  | cons first others =>
    exact items?_joinWith isClose (.cons first others) enough
      (skipBlanks_joinWith first _ (close :: rest))

theorem ReadsAs.list (filled : parts ≠ []) (reads : List.Forall₂ (ReadsAs least) parts es) :
    ReadsAs (least + parts.length + 2) ("[".toList ++ joinWith ", ".toList parts ++ "]".toList)
    (.list es) := by
  refine ReadsAs.of_atom ⟨_, _, rfl, by decide⟩ ?_ ?_
  · intro rest _ left word
    nomatch word
  · intro steps enough bracketed rest ends
    have split : "[".toList ++ joinWith ", ".toList parts ++ "]".toList ++ rest =
        '[' :: (joinWith ", ".toList parts ++ ']' :: rest) := by
      simp
    rw [split, atom?, items?_of_reads (.inl rfl) filled reads enough]

theorem ReadsAs.call {name : Text} (isVar : IsVariable name) (filled : parts ≠ [])
    (reads : List.Forall₂ (ReadsAs least) parts es) :
    ReadsAs (least + parts.length + 2) (name ++ "(" ++ joinWith ", " parts ++ ")")
      (.call name es) := by
  have split : ∀ rest, name ++ "(" ++ joinWith ", " parts ++ ")" ++ rest =
      name ++ '(' :: (joinWith ", " parts ++ ')' :: rest) := by
    simp
  have noWord : ∀ t c, c ∈ ('(' :: t : Text).head? → isWord c = false := by
    rintro t c ⟨⟩
    decide
  refine ReadsAs.of_atom ?_ ?_ ?_
  · obtain ⟨c, u, rfl, first⟩ := isVar.first
    exact ⟨c, _, rfl, first⟩
  · intro rest _ left
    rw [split]
    exact isVar.noNot (noWord _) left
  · intro steps enough bracketed rest ends
    rw [split, atom?_call (word?_append isVar.isName isVar.start (noWord _)) isVar.noClass,
      items?_of_reads (.inr rfl) filled reads enough]
    rfl

theorem ReadsAs.parenthesized (reads : ReadsAs least part e) :
    ReadsAs (least + 3) ("(".toList ++ part ++ ")".toList) e := by
  refine ReadsAs.of_atom ⟨_, _, rfl, by decide⟩ ?_ ?_
  · intro rest _ left word
    nomatch word
  · intro steps enough bracketed rest ends
    have inside : items? steps ')' (part ++ ')' :: rest) = .some ([e], false, rest) :=
      items?_of_reads (.inr rfl) (cons_ne_nil part []) (.cons reads .nil) enough rest
    have split : "(".toList ++ part ++ ")".toList ++ rest = '(' :: (part ++ ')' :: rest) := by simp
    rw [split, atom?, inside]

theorem ReadsAs.mono (reads : ReadsAs least part e) {more : Nat} (le : least ≤ more) :
    ReadsAs more part e :=
  ⟨reads.start, fun enough => reads.read (Nat.le_trans le enough)⟩

end Parts

/-! ## Statements -/

section Statements

variable {least : Nat} {name code : Text} {e : Expr}

theorem expr?_blank (steps : Nat) (t : Text) :
    expr? (steps + 1) false (' ' :: t) = expr? (steps + 1) false t := by
  have skipped : skipBlanks false (' ' :: t) = skipBlanks false t := rfl
  rw [expr?, expr?, skipped]

section

variable (reads : ReadsAs least code e) (short : least ≤ 2 * code.length + 2)

include reads short

theorem ReadsAs.readExpr? {rest : Text}
    (ends : EndsExpr rest) : readExpr? (' ' :: (code ++ rest)) = some (e, rest) := by
  obtain ⟨steps, same⟩ : ∃ n, 2 * (' ' :: (code ++ rest)).length + 2 = n + 1 := ⟨_, rfl⟩
  have enough : least ≤ steps + 1 := by
    rw [length_cons, length_append] at same
    omega
  rw [Host.readExpr?, same, expr?_blank, reads.read enough false ends]

theorem ReadsAs.wholeExpr? :
    wholeExpr? code = some e := by
  have read : expr? (2 * code.length + 2) true (code ++ []) = some (e, []) :=
    reads.read short true nofun
  rw [append_nil] at read
  rw [Host.wholeExpr?, read]
  rfl

theorem ReadsAs.evalCode
    (host : Interpretation) (env : Env) : host.evalCode env code = host.value env e := by
  rw [Interpretation.evalCode, reads.wholeExpr? short]

end

theorem runCode_assign (isVar : IsVariable name) (noPass : name ≠ "pass")
    (reads : ReadsAs least code e)
    (short : least ≤ 2 * code.length + 2) (host : Interpretation) (env : Env) :
    host.runCode env (name ++ " = " ++ code) = (host.value env e).map (env.set name) := by
  have split : name ++ " = " ++ code = name ++ ' ' :: '=' :: ' ' :: code := by simp
  have word : word? (name ++ ' ' :: '=' :: ' ' :: code) = some (name, ' ' :: '=' :: ' ' :: code) :=
    word?_append isVar.isName isVar.start (by rintro _ ⟨⟩; decide)
  have whole : Host.readExpr? (' ' :: code) = some (e, []) := by
    have read : Host.readExpr? (' ' :: (code ++ [])) = some (e, []) :=
      reads.readExpr? short nofun
    rwa [append_nil] at read
  have one : simple? (name ++ ' ' :: '=' :: ' ' :: code) = some (.assign name e, []) := by
    rw [simple?, word]
    split
    next same => nomatch same
    next same => exact absurd (Prod.mk.inj (Option.some.inj same)).1 noPass
    next same =>
      cases same
      have equal : skipBlanks false (' ' :: '=' :: ' ' :: code) = '=' :: ' ' :: code := rfl
      rw [equal]
      simp only [whole]
  have still : trimLeft (name ++ ' ' :: '=' :: ' ' :: code) = name ++ ' ' :: '=' :: ' ' ::
      code := by
    obtain ⟨c, u, rfl, ink, _⟩ := isVar.first
    rw [trimLeft, cons_append, dropWhile_cons, ink]
    rfl
  have lines : simples? (name ++ ' ' :: '=' :: ' ' :: code) = some [.assign name e] := by
    rw [simples?, simplesFrom?, still]
    split
    next same => exact absurd same (by simp)
    next =>
      rw [one]
      rfl
  rw [split, Interpretation.runCode, lines]
  show (host.value env e >>= fun v => host.runLines [] (env.set name v)) = _
  cases host.value env e with
  | error failure | ok v => rfl

theorem header?_if (reads : ReadsAs least code e) (short : least ≤ 2 * code.length + 2) :
    header? ("if " ++ code ++ ":") = some (.ifTrue e) := by
  have split : "if " ++ code ++ ":" = "if" ++ ' ' :: (code ++ [':']) := by simp
  have still : trimLeft ("if" ++ ' ' :: (code ++ [':'])) = ['i', 'f'] ++ ' ' :: (code ++ [':']) :=
    rfl
  have word : word? (['i', 'f'] ++ ' ' :: (code ++ [':'])) =
    some (['i', 'f'], ' ' :: (code ++ [':'])) :=
    word?_append (isName_of_all (by decide) (by decide)) (by decide) (by rintro _ ⟨⟩; decide)
  have colon : headerExpr? (' ' :: (code ++ [':'])) = some e := by
    rw [headerExpr?, reads.readExpr? short (.cons (by decide) [])]
    rfl
  rw [split, header?, still, word]
  simp only [colon, Option.map_some]

end Statements

/-! ## Templates between double braces -/

theorem readsAs_allVariables : ReadsAs (1 + 2) "globals()" (.call allVariables []) := by
  have isVar : IsVariable allVariables :=
    ⟨isName_of_all (by decide) (by decide), by decide, by decide⟩
  have noWord : ∀ t c, c ∈ ('(' :: t : Text).head? → isWord c = false := by
    rintro t c ⟨⟩
    decide
  refine ReadsAs.of_atom ⟨_, _, rfl, by decide⟩ (fun _ => isVar.noNot (noWord _)) ?_
  intro steps enough bracketed rest _
  obtain ⟨steps, rfl⟩ := Nat.exists_eq_add_of_le' enough
  have inside : items? (steps + 1) ')' (')' :: rest) = some ([], false, rest) := by
    rw [items?, skipBlanks_cons (by decide)]
    rfl
  have word : word? ("globals()" ++ rest) = some (allVariables, '(' :: ')' :: rest) :=
    word?_append isVar.isName isVar.start (noWord _)
  rw [atom?_call word isVar.noClass, inside]
  rfl

/-- The code that fills in a template is a call with the template and all variables. -/
theorem wholeExpr?_deferredCode (text : Text) :
    wholeExpr? (Embedded.deferredCode text) =
      some (.call filler [.string text, .call allVariables []]) := by
  have isVar : IsVariable filler := ⟨isName_of_all (by decide) (by decide), by decide, by decide⟩
  have parts : Forall₂ (ReadsAs (1 + 2)) [quote text, "globals()".toList]
    [.string text, .call allVariables []] :=
    .cons ((readsAs_string text).mono (by decide)) (.cons readsAs_allVariables .nil)
  have reads := ReadsAs.call isVar (by simp) parts
  have front : "_hamlc_render_jinja(".toList = filler ++ "(".toList := by decide
  have back : ", globals())".toList = ", ".toList ++ "globals()".toList ++ ")".toList := by decide
  have same := calc Embedded.deferredCode text
    _ = "_hamlc_render_jinja(".toList ++ (quote text ++ ", globals())".toList) := append_assoc ..
    _ = filler ++ "(".toList ++ (quote text ++ ", globals())".toList) := congrArg (· ++ _) front
    _ = filler ++ "(".toList ++ (quote text ++ (", ".toList ++ "globals()".toList ++ ")".toList)) :=
      congrArg (fun t => _ ++ (_ ++ t)) back
    _ = filler ++ "(".toList ++ (quote text ++ ", ".toList ++ "globals()".toList) ++
      ")".toList := by
      simp only [append_assoc]
  rw [same]
  refine reads.wholeExpr? ?_
  rw [length_append, length_append, length_append, show filler.length = 19 by decide]
  exact Nat.le_trans (by decide : 7 ≤ 2 * 19 + 2) (by omega)

/-- A template sees no reserved names, so the code that fills it in leaves them alone. -/
theorem exprSpares_deferredCode {looking : Lookers} {names : List Text}
    (reserved : ∀ name ∈ names, isReserved name)
    (text : Text) : exprSpares looking names (Embedded.deferredCode text) := by
  have hidden : names.any isVisible = false := by
    rw [any_eq_false]
    intro name mem
    rw [isVisible_of_isReserved (reserved name mem)]
    exact Bool.false_ne_true
  have other : filler ∉ looking.names := looking.foreign _ (by decide)
  rw [exprSpares, wholeExpr?_deferredCode]
  simp [Expr.spares, sparesAll, hidden, other]

end MarkupTemplate.Host
