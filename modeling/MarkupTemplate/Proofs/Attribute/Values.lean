import MarkupTemplate.Proofs.Attribute.Read
import MarkupTemplate.Proofs.Host.Words

/-!
# Values that are read as they are written

A quoted text without backslash and interpolated code ends at the first quote of its kind
(`quoted?_append_quote`). A code ends at the first terminator outside brackets and quotes. In a text
that is `Balanced stop` every bracket and quote is closed and no character of `stop` stands outside
of them. A reader goes over it with no change of what is open (`Balanced.passes`).
-/

namespace MarkupTemplate

open List

/-! ## Names and signs in front of a value -/

namespace Text

theorem trimRight_of_allBlank {t : Text} (blank : allBlank t) : trimRight t = [] := by
  induction t with
  | nil => rfl
  | cons c t ih =>
    rw [allBlank, List.all_cons, Bool.and_eq_true] at blank
    rw [trimRight, ih blank.2]
    exact if_pos blank.1

theorem trim_of_allBlank {t : Text} (blank : allBlank t) : trim t = [] := by
  rw [trim, trimLeft_of_allBlank blank]
  rfl

theorem allBlank_trimRight (t : Text) : allBlank (trimRight t) = allBlank t := by
  induction t with
  | nil => rfl
  | cons c t ih =>
    rw [trimRight]
    split
    next empty =>
      rw [empty] at ih
      split
      next blank => exact (Bool.and_eq_true_iff.mpr ⟨blank, ih.symm⟩).symm
      next ink => simp [allBlank, ink]
    next => exact congrArg (isBlank c && ·) ih

theorem allBlank_trim (t : Text) : allBlank (trim t) = allBlank t :=
  (allBlank_trimRight _).trans (allBlank_trimLeft t)

theorem isNameChar_of_isBlank {c : Char} (blank : isBlank c) : isNameChar c = false := by
  have colon : c ≠ ':' := by
    rintro rfl
    exact absurd blank (by decide)
  have dash : c ≠ '-' := by
    rintro rfl
    exact absurd blank (by decide)
  simp [isNameChar, isWord_of_isBlank blank, colon, dash]

theorem stops_of_gap {gap t : Text} (blank : allBlank gap) (stops : Stops isNameChar t) :
    Stops isNameChar (gap ++ t) := by
  cases gap with
  | nil => exact stops
  | cons c gap =>
    exact stops_cons.mpr (isNameChar_of_isBlank (List.all_eq_true.mp blank c List.mem_cons_self))

end Text

namespace Attribute

open CodeState (step)

/-- A name that an attribute can have. -/
structure IsAttrName (name : Text) : Prop where
  nonempty : name ≠ []
  all : ∀ c ∈ name, Text.isNameChar c

variable {t rest found mark : Text} {c : Char} {u : Unit}

theorem name_eq_some_iff : name t = some (found, rest) ↔
    t = found ++ rest ∧ IsAttrName found ∧ Text.Stops Text.isNameChar rest := by
  rw [name, Scan.run_eq_some_iff]
  exact ⟨fun ⟨whole, nonempty, all, stops⟩ => ⟨whole, ⟨nonempty, all⟩, stops⟩,
    fun ⟨whole, isName, stops⟩ => ⟨whole, isName.nonempty, isName.all, stops⟩⟩

theorem sign_eq_some_iff (ink : Text.isBlank c = false) : sign (c :: mark) t = some (u, rest) ↔
    ∃ gap gap', t = gap ++ (c :: mark ++ (gap' ++ rest)) ∧ Text.allBlank gap ∧ Text.allBlank gap' ∧
      Text.Stops Text.isBlank rest := by
  simp only [sign, Scan.map_eq_some_iff, Prod.exists, Scan.andThen_eq_some_iff,
    Scan.exactly_eq_some_iff,
    Scan.blanks_eq_some_iff]
  constructor
  · rintro ⟨-, -, -, ⟨_, ⟨gap, rfl, blank, -⟩, _, rfl, gap', rfl, blank', stops⟩, -⟩
    exact ⟨gap, gap', rfl, blank, blank', stops⟩
  · rintro ⟨gap, gap', rfl, blank, blank', stops⟩
    exact ⟨(), (), (), ⟨_, ⟨gap, rfl, blank, Text.stops_cons.mpr ink⟩, _, rfl, gap', rfl, blank',
      stops⟩,
      trivial⟩

/-- A name, a sign that starts with neither a blank nor a character of a name, and blanks around. -/
theorem name_sign_eq_some_iff (ink : Text.isBlank c = false) (other : Text.isNameChar c = false) :
    Scan.andThen name (sign (c :: mark)) t = some ((found, u), rest) ↔
      ∃ gap gap', t = found ++ (gap ++ (c :: mark ++ (gap' ++ rest))) ∧ IsAttrName found ∧
      Text.allBlank gap ∧ Text.allBlank gap' ∧ Text.Stops Text.isBlank rest := by
  simp only [Scan.andThen_eq_some_iff, name_eq_some_iff, sign_eq_some_iff ink]
  constructor
  · rintro ⟨_, ⟨rfl, isName, -⟩, gap, gap', rfl, blank, blank', stops⟩
    exact ⟨gap, gap', rfl, isName, blank, blank', stops⟩
  · rintro ⟨gap, gap', rfl, isName, blank, blank', stops⟩
    exact ⟨_, ⟨rfl, isName, Text.stops_of_gap blank (Text.stops_cons.mpr other)⟩, gap, gap', rfl,
      blank, blank', stops⟩

theorem assigned_eq_some_iff : assigned t = some (found, rest) ↔
    ∃ gap gap', t = found ++ (gap ++ ("=" ++ (gap' ++ rest))) ∧ IsAttrName found ∧
    Text.allBlank gap ∧ Text.allBlank gap' ∧ Text.Stops Text.isBlank rest := by
  have taken := @name_sign_eq_some_iff t rest found [] '=' () (by decide) (by decide)
  rw [assigned, Scan.map_eq_some_iff, Prod.exists]
  constructor
  · rintro ⟨_, u, read, rfl⟩
    exact taken.mp read
  · intro written
    exact ⟨found, (), taken.mpr written, rfl⟩

/-! ## Quoted texts -/

def isQuote (c : Char) : Bool :=
  c == '"' || c == '\''

theorem isQuote_iff {c : Char} : isQuote c ↔ c = '"' ∨ c = '\'' := by
  simp [isQuote]

theorem quoted?_append_quote {quote : Char} (isQuote : isQuote quote) {text : Text}
    (free : quote ∉ text)
    (noSlash : '\\' ∉ text) (noCode : ¬ ['#', '\x7b'] <:+: text) (rest : Text) :
    quoted? quote 0 (text ++ quote :: rest) = some (text, rest) := by
  induction text with
  | nil =>
    rcases isQuote_iff.mp isQuote with rfl | rfl
    · simp [quoted?]
    · simp [quoted?]
  | cons c text ih =>
    rw [mem_cons, not_or] at free noSlash
    have inner := ih free.2 noSlash.2 fun code => noCode (code.trans (suffix_cons c text).isInfix)
    rw [cons_append, quoted?, if_neg (Ne.symm free.1), inner]
    · rfl
    · rintro d u rfl
      exact absurd rfl noSlash.1
    · rintro u rfl whole
      cases text with
      | nil =>
        rcases isQuote_iff.mp isQuote with rfl | rfl
        · exact absurd (List.cons.inj whole).1 (by decide)
        · exact absurd (List.cons.inj whole).1 (by decide)
      | cons d text =>
        cases (List.cons.inj whole).1
        exact noCode (prefix_append ['#', '\x7b'] text).isInfix

/-! ## Codes -/

def brackets : List (Char × Char) :=
  [('(', ')'), ('[', ']'), ('\x7b', '\x7d')]

/-- What stands between two quotes: the quote occurs in it behind a backslash only. -/
inductive QuotedBody (quote : Char) : Text → Prop where
  | nil : QuotedBody quote []
  | escaped {c : Char} {t : Text} : QuotedBody quote t → QuotedBody quote ('\\' :: c :: t)
  | plain {c : Char} {t : Text} :
    c ≠ quote → c ≠ '\\' → QuotedBody quote t → QuotedBody quote (c :: t)

/-- A text whose brackets and quotes are closed, without a character of `stop` outside of them. -/
inductive Balanced : (stop : Char → Bool) → Text → Prop where
  | nil {stop : Char → Bool} : Balanced stop []
  | char {stop : Char → Bool} {c : Char} {t : Text} :
    isQuote c = false → c ∉ brackets.map Prod.fst → stop c = false →
    Balanced stop t → Balanced stop (c :: t)
  | quoted {stop : Char → Bool} {quote : Char} {body t : Text} :
    isQuote quote → QuotedBody quote body →
    Balanced stop t → Balanced stop (quote :: (body ++ quote :: t))
  | bracket {stop : Char → Bool} {opener closer : Char} {inner t : Text} :
    (opener, closer) ∈ brackets →
    Balanced (· == closer) inner → Balanced stop t →
    Balanced stop (opener :: (inner ++ closer :: t))

/-- A reader of a code goes over a text, from one state to another. -/
def Passes (form : ListForm) (s s' : CodeState) (t : Text) : Prop :=
  ∀ rest, code form.isTerminator s (t ++ rest) =
    (code form.isTerminator s' rest).map fun (text, left) => (t ++ text, left)

variable {form : ListForm} {stop : Char → Bool} {s s' s'' : CodeState} {t u : Text} {c : Char}

theorem Passes.nil : Passes form s s [] := by
  intro rest
  rw [nil_append]
  cases code form.isTerminator s rest with
  | error close | ok found => rfl

theorem Passes.append (first : Passes form s s' t) (second : Passes form s' s'' u) :
    Passes form s s'' (t ++ u) := by
  intro rest
  rw [append_assoc, first, second]
  cases code form.isTerminator s'' rest with
  | error close => rfl
  | ok found => simp [Except.map]

theorem Passes.char (goesOn : s.isOutside → form.isTerminator c = false) :
    Passes form s (s.step c) [c] := by
  intro rest
  rw [singleton_append, code, if_neg]
  · rfl
  · intro ends
    rw [Bool.and_eq_true] at ends
    exact Bool.false_ne_true ((goesOn ends.1).symm.trans ends.2)

theorem Passes.cons (goesOn : s.isOutside → form.isTerminator c = false)
    (rest : Passes form (s.step c) s' t) : Passes form s s' (c :: t) :=
  (Passes.char goesOn).append rest

/-! ### Steps of the reader -/

variable {closers : List Char} {quote : Char}

theorem step_quote (quoteChar : isQuote quote) :
    step { brackets := closers } quote = { brackets := closers, quote? := some quote } := by
  rw [isQuote_iff] at quoteChar
  simp [step, quoteChar]

theorem step_endQuote (quoteChar : isQuote quote) :
    step { brackets := closers, quote? := some quote } quote = { brackets := closers } := by
  rcases isQuote_iff.mp quoteChar with rfl | rfl
  · rfl
  · rfl

theorem step_other (noQuote : isQuote c = false) : step { brackets := closers } c =
    match closer? c with
    | some close => { brackets := close :: closers }
    | none =>
      if closers.head? = some c then { brackets := closers.tail } else { brackets := closers } := by
  have plain : ¬ (c = '"' ∨ c = '\'') := by
    rw [← isQuote_iff, noQuote]
    exact Bool.false_ne_true
  cases opens : closer? c with
  | some close | none => simp [step, plain, opens]

theorem QuotedBody.passes (quoted : QuotedBody quote t) :
    Passes form { brackets := closers, quote? := some quote }
    { brackets := closers, quote? := some quote } t := by
  have within : ∀ escaped, ¬ (CodeState.mk closers (some quote) escaped).isOutside := by
    simp [CodeState.isOutside]
  induction quoted with
  | nil => exact .nil
  | @escaped c t _ ih =>
    have slash : step ⟨closers, some quote, false⟩ '\\' = ⟨closers, some quote, true⟩ := by
      simp [step]
    have back : step ⟨closers, some quote, true⟩ c = ⟨closers, some quote, false⟩ := by
      simp [step]
    refine .cons (fun outside => absurd outside (within false)) ?_
    rw [slash]
    refine .cons (fun outside => absurd outside (within true)) ?_
    rw [back]
    exact ih
  | @plain c t other noSlash _ ih =>
    have same : step ⟨closers, some quote, false⟩ c = ⟨closers, some quote, false⟩ := by
      simp [step, other, noSlash]
    refine .cons (fun outside => absurd outside (within false)) ?_
    rw [same]
    exact ih

/-- With these brackets open, a character outside `stop` neither ends nor closes anything. -/
structure Watches (form : ListForm) (stop : Char → Bool) (closers : List Char) : Prop where
  goesOn {c : Char} : stop c = false → closers = [] → form.isTerminator c = false
  keeps {c : Char} : stop c = false → closers.head? ≠ some c

theorem bracket_cases {opener closer : Char} (pair : (opener, closer) ∈ brackets)
    (form : ListForm) :
    closer? opener = some closer ∧ closer? closer = none ∧ isQuote opener = false ∧
    isQuote closer = false ∧ form.isTerminator opener = false := by
  simp only [brackets, mem_cons, Prod.mk.injEq, not_mem_nil, or_false] at pair
  rcases pair with ⟨rfl, rfl⟩ | ⟨rfl, rfl⟩ | ⟨rfl, rfl⟩
  all_goals
    cases form with
    | markup | host => decide

theorem closer?_of_not_mem (other : c ∉ brackets.map Prod.fst) : closer? c = none := by
  unfold closer?
  split
  · exact absurd other (by decide)
  · exact absurd other (by decide)
  · exact absurd other (by decide)
  · rfl

/-- A balanced text is passed over without a change of what is open. -/
theorem Balanced.passes (balanced : Balanced stop t) (watches : Watches form stop closers) :
    Passes form { brackets := closers } { brackets := closers } t := by
  induction balanced generalizing closers with
  | nil => exact .nil
  | @char stop c t noQuote noBracket goesOn _ ih =>
    have same : step { brackets := closers } c = { brackets := closers } := by
      rw [step_other noQuote, closer?_of_not_mem noBracket]
      exact if_neg (watches.keeps goesOn)
    refine .cons
      (fun outside => watches.goesOn goesOn (by simpa [CodeState.isOutside] using outside)) ?_
    rw [same]
    exact ih watches
  | @quoted stop quote body t quoteChar quoted _ ih =>
    have goesOn : form.isTerminator quote = false := by
      rcases isQuote_iff.mp quoteChar with rfl | rfl
      all_goals
        cases form with
        | markup | host => decide
    refine .cons (fun _ => goesOn) ?_
    rw [step_quote quoteChar]
    refine quoted.passes.append (.cons (fun _ => goesOn) ?_)
    rw [step_endQuote quoteChar]
    exact ih watches
  | @bracket stop opener closer inner t pair _ _ ihInner ih =>
    obtain ⟨opens, closes, noQuote, noQuote', goesOn⟩ := bracket_cases pair form
    have inside : Watches form (· == closer) (closer :: closers) := by
      refine ⟨nofun, fun other same => ?_⟩
      cases same
      simp at other
    have back : step { brackets := closer :: closers } closer = { brackets := closers } := by
      rw [step_other noQuote', closes]
      exact if_pos rfl
    refine .cons (fun _ => goesOn) ?_
    rw [step_other noQuote, opens]
    refine (ihInner inside).append (.cons (fun outside => ?_) ?_)
    · simp [CodeState.isOutside] at outside
    · rw [back]
      exact ih watches

theorem watches_start (form : ListForm) : Watches form form.isTerminator [] :=
  ⟨fun goesOn _ => goesOn, fun _ => nofun⟩

/-- Where a value may end: behind blanks there is a terminator, or nothing. -/
def EndsValue (form : ListForm) (gap rest : Text) : Prop :=
  (∀ c ∈ gap, Text.isBlank c ∧ form.isTerminator c = false) ∧ ∀ c ∈ rest.head?, form.isTerminator c

theorem balanced_of_plain
    (plain : ∀ c ∈ t, isQuote c = false ∧ c ∉ brackets.map Prod.fst ∧ stop c = false) :
    Balanced stop t := by
  induction t with
  | nil => exact .nil
  | cons c t ih =>
    rw [forall_mem_cons] at plain
    exact .char plain.1.1 plain.1.2.1 plain.1.2.2 (ih plain.2)

theorem balanced_of_blank (blank : ∀ c ∈ t, Text.isBlank c ∧ form.isTerminator c = false) :
    Balanced form.isTerminator t := by
  refine balanced_of_plain fun c mem => ?_
  obtain ⟨blank, goesOn⟩ := blank c mem
  have ink : ∀ other, Text.isBlank other = false → c ≠ other := by
    rintro _ ink rfl
    exact Bool.false_ne_true (ink.symm.trans blank)
  refine ⟨?_, ?_, goesOn⟩
  · simp [isQuote, ink '"' (by decide), ink '\'' (by decide)]
  · simp [brackets, ink '(' (by decide), ink '[' (by decide), ink '\x7b' (by decide)]

/-- A balanced code is read up to where it may end, with the blanks in front of that place. -/
theorem code_of_balanced {text gap rest : Text} (balanced : Balanced form.isTerminator text)
    (ends : EndsValue form gap rest) :
    code form.isTerminator {} (text ++ (gap ++ rest)) = .ok (text ++ gap, rest) := by
  have stops : code form.isTerminator {} rest = .ok ([], rest) := by
    cases rest with
    | nil => rfl
    | cons c rest => rw [code, ends.2 c rfl]; rfl
  rw [← append_assoc]
  rw [(balanced.passes (watches_start form)).append
    ((balanced_of_blank ends.1).passes (watches_start form)), stops]
  simp [Except.map]

end Attribute

end MarkupTemplate
