import MarkupTemplate.Attribute.Merged
import MarkupTemplate.Node.Controlled
import MarkupTemplate.Node.Escaped
import MarkupTemplate.Proofs.Host.Words
import MarkupTemplate.Proofs.Text.Literal

/-!
# Reserved names in codes

Programs keep names for helpers, buffers and temporaries. A code *keeps to* some names if it
mentions no other reserved name and calls no function that sees variables it does not mention. For
each form of statement that the library writes, a lemma says to which names it keeps.
-/

namespace MarkupTemplate.Host

open List
open Text (isWord joinWith trimRight isBlank unquote?)
open Attribute (wordTest joinStatement)

/-- Whether a name is one that programs keep for themselves. -/
def isReserved (name : Text) : Bool :=
  (Text.after? "_hamlc_" name).isSome

/-- A code that mentions no reserved names but the given ones, and calls none of some functions. -/
def KeepsTo (looking : Lookers) (known : List Text) (code : Text) : Prop :=
  ∀ w ∈ words code, (isReserved w.1 → w.1 ∈ known) ∧ (w.2 → w.1 ∉ looking.names)

/-- Whether a code mentions no reserved name and calls none of some functions. -/
def isOwn (looking : Lookers) (code : Text) : Bool :=
  (words code).all fun w => !isReserved w.1 && !(w.2 && looking.names.contains w.1)

theorem isVisible_of_isReserved {name : Text} (reserved : isReserved name) :
    isVisible name = false := by
  rw [isReserved, ← Option.not_isNone, Bool.not_eq_true'] at reserved
  rw [isVisible, reserved, Bool.and_false]

theorem keepsTo_of_isOwn {looking : Lookers} {code : Text} (own : isOwn looking code)
    (known : List Text) : KeepsTo looking known code := by
  intro w mem
  obtain ⟨plain, noLook⟩ : isReserved w.1 = false ∧ (w.2 = false ∨ w.1 ∉ looking.names) := by
    simpa using all_eq_true.mp own w mem
  exact ⟨fun reserved => absurd reserved (by simp [plain]),
    fun called => noLook.resolve_left (by simp [called])⟩

namespace KeepsTo

variable {looking : Lookers} {known : List Text} {code : Text}

theorem quiet {names : List Text} (keeps : KeepsTo looking known code)
    (reserved : ∀ name ∈ names, isReserved name)
    (other : ∀ name ∈ names, name ∉ known) : Quiet looking names .apart code := by
  intro w mem
  refine ⟨fun named => ?_, (keeps w mem).2⟩
  exact other w.1 named ((keeps w mem).1 (reserved w.1 named))

end KeepsTo

/-! ## Words of joined texts -/

/-- A text that is a name or a keyword. -/
def IsName (t : Text) : Prop :=
  t ≠ [] ∧ ∀ c ∈ t, isWord c

theorem isName_of_all {t : Text} (filled : t ≠ []) (all : t.all isWord) : IsName t :=
  ⟨filled, all_eq_true.mp all⟩

/-- A text that does not go on with a word or call it. -/
def EndsWord (t : Text) : Prop :=
  ∀ c ∈ t.head?, isWord c = false ∧ c ≠ '('

section Joined

variable {s : Spell} {front t code : Text}

section

variable (ends : EndsWord t) (front : Text)

include ends

theorem takeWhile_append_of_ends :
    (front ++ t).takeWhile isWord = front.takeWhile isWord := by
  induction front with
  | nil =>
    cases t with
    | nil => rfl
    | cons c t => rw [nil_append, takeWhile_cons, (ends c rfl).1]; rfl
  | cons c front ih => rw [cons_append, takeWhile_cons, takeWhile_cons, ih]

theorem called_append_of_ends :
    (((front ++ t).dropWhile isWord).head? == some '(') =
      ((front.dropWhile isWord).head? == some '(') := by
  induction front with
  | nil =>
    cases t with
    | nil => rfl
    | cons c t =>
      rw [nil_append, dropWhile_cons, (ends c rfl).1]
      simpa using (ends c rfl).2
  | cons c front ih =>
    rw [cons_append, dropWhile_cons, dropWhile_cons]
    split
    · exact ih
    · rfl

/-- The words of two texts of which the second does not go on with a word of the first. -/
theorem wordsFrom_append :
    wordsFrom s (front ++ t) = wordsFrom s front ++ wordsFrom (front.foldl Spell.step s) t := by
  induction front generalizing s with
  | nil =>
    cases s with
    | _ => rfl
  | cons c front ih =>
    rw [cons_append, foldl_cons]
    by_cases start : s = .apart ∧ isWord c
    · obtain ⟨rfl, word⟩ := start
      rw [wordsFrom_apart word, wordsFrom_apart word, ih, called_append_of_ends ends,
        takeWhile_cons,
        takeWhile_cons, takeWhile_append_of_ends ends, step_of_isWord rfl word]
      rfl
    · have sign : s = .apart → isWord c = false := fun same => by simpa [same] using start
      rw [wordsFrom_cons sign, wordsFrom_cons sign, ih]

end

theorem wordsFrom_eq_nil (signs : ∀ c ∈ t, isWord c = false) : wordsFrom s t = [] := by
  induction t generalizing s with
  | nil => rw [wordsFrom]
  | cons c t ih =>
    rw [forall_mem_cons] at signs
    rw [wordsFrom_cons fun _ => signs.1, ih signs.2]

theorem words_append_signs (signs : ∀ c ∈ t, isWord c = false ∧ c ≠ '(') (code : Text) :
    words (code ++ t) = words code := by
  have ends : EndsWord t := fun c head => signs c (mem_of_mem_head? head)
  rw [words, wordsFrom_append ends, wordsFrom_eq_nil fun c mem => (signs c mem).1, append_nil,
    words]

theorem words_signs (signs : front.all isSign) (t : Text) : words (front ++ t) = words t := by
  induction front with
  | nil => rfl
  | cons c front ih =>
    rw [all_cons, Bool.and_eq_true] at signs
    rw [cons_append, words, wordsFrom_sign rfl signs.1, ih signs.2]

theorem words_name {name : Text} (isName : IsName name) (ends : ∀ c ∈ t.head?, isWord c = false) :
    words (name ++ t) = (name, t.head? == some '(') :: words t := by
  obtain ⟨c, rest, rfl⟩ := exists_cons_of_ne_nil isName.1
  have all := forall_mem_cons.mp isName.2
  have stop : t.takeWhile isWord = [] ∧ t.dropWhile isWord = t := by
    cases t with
    | nil => exact ⟨rfl, rfl⟩
    | cons d t => simp [ends d rfl]
  rw [cons_append, words, wordsFrom_apart all.1, wordsFrom_word, takeWhile_cons, if_pos all.1,
    takeWhile_append_of_pos all.2, dropWhile_append_of_pos all.2, stop.1, stop.2, append_nil]

theorem words_name_signs {name : Text} (isName : IsName name) (filled : front ≠ [])
    (signs : front.all isSign) (t : Text) :
    words (name ++ (front ++ t)) = (name, front.head? == .some '(') :: words t := by
  obtain ⟨c, rest, rfl⟩ := exists_cons_of_ne_nil filled
  have ends : ∀ d ∈ (c :: rest ++ t).head?, isWord d = false := by
    rintro _ ⟨⟩
    have sign : isSign c := all_eq_true.mp signs c (.head _)
    rw [isSign, Bool.and_eq_true, Bool.and_eq_true, Bool.not_eq_true'] at sign
    exact sign.1.1
  rw [words_name isName ends, words_signs signs]
  rfl

end Joined

/-! ## Literals -/

theorem words_quote (text t : Text) : words (Text.quote text ++ t) = words t := by
  obtain ⟨quote, u, isQuote, same, left⟩ := rest_of_unquote? (Text.unquote?_quote text t)
  rw [same, words, wordsFrom_quote rfl isQuote, ← left]

theorem words_quotes (texts : List Text) (t : Text) :
    words (joinWith ", " (texts.map Text.quote) ++ t) = words t := by
  have between : ", ".toList.all isSign := by decide
  induction texts with
  | nil => rfl
  | cons text texts ih =>
    cases texts with
    | nil => exact words_quote text t
    | cons next texts =>
      rw [map_cons, map_cons, joinWith, append_assoc, append_assoc, words_quote,
        words_signs between, ← map_cons, ih]
      nofun

/-! ## Statements -/

theorem trimRight_append_blanks (t : Text) :
    ∃ blanks, trimRight t ++ blanks = t ∧ ∀ c ∈ blanks, isBlank c := by
  induction t with
  | nil => exact ⟨[], rfl, nofun⟩
  | cons c t ih =>
    obtain ⟨blanks, same, blank⟩ := ih
    rw [trimRight]
    split
    next empty =>
      rw [empty, nil_append] at same
      split
      next here => exact ⟨c :: blanks, by rw [same]; rfl, forall_mem_cons.mpr ⟨here, blank⟩⟩
      next => exact ⟨blanks, by rw [same]; rfl, blank⟩
    next => exact ⟨blanks, by rw [cons_append, same], blank⟩

section Statements

variable {looking : Lookers} {known : List Text} {name code : Text}

theorem isName_append {front rest : Text} (first : IsName front) (others : ∀ c ∈ rest, isWord c) :
    IsName (front ++ rest) := by
  refine ⟨fun empty => first.1 (append_eq_nil_iff.mp empty).1, ?_⟩
  exact forall_mem_append.mpr ⟨first.2, others⟩

theorem isWord_of_mem_ofNat {n : Nat} {c : Char} (mem : c ∈ Text.ofNat n) : isWord c :=
  Text.isWord_of_isDigit (Nat.isDigit_of_mem_toDigits (by decide) (by decide) mem)

theorem isName_controlTemp (n : Nat) : IsName (Control.tempName n) :=
  isName_append (isName_of_all (by decide) (by decide)) fun _ => isWord_of_mem_ofNat

theorem isName_attributeTemp (n : Nat) : IsName (Attribute.tempName n) :=
  isName_append (isName_of_all (by decide) (by decide)) fun _ => isWord_of_mem_ofNat

theorem keepsTo_cons {called : Bool} {t : Text} {w : Text} (allowed : isReserved w → w ∈ known)
    (noLook : called → w ∉ looking.names) {ws : List (Text × Bool)}
    (same : words t = (w, called) :: ws)
    (rest : ∀ w ∈ ws, (isReserved w.1 → w.1 ∈ known) ∧ (w.2 → w.1 ∉ looking.names)) :
    KeepsTo looking known t := by
  rw [KeepsTo, same, forall_mem_cons]
  exact ⟨⟨allowed, noLook⟩, rest⟩

theorem words_assign (isName : IsName name) (code : Text) :
    words (name ++ " = " ++ code) = (name, false) :: words code := by
  rw [append_assoc, words_name_signs isName (by decide) (by decide)]
  rfl

theorem KeepsTo.assign (isName : IsName name) (allowed : isReserved name → name ∈ known)
    (keeps : KeepsTo looking known code) : KeepsTo looking known (name ++ " = " ++ code) :=
  keepsTo_cons allowed (by simp) (words_assign isName code) keeps

theorem keepsTo_name (isName : IsName name) (allowed : isReserved name → name ∈ known) :
    KeepsTo looking known name := by
  have same := words_name isName (t := []) nofun
  rw [append_nil] at same
  exact keepsTo_cons allowed (by simp) same nofun

theorem KeepsTo.escaped (helper : "_hamlc_escape".toList ∈ known)
    (keeps : KeepsTo looking known code) (byDefault : Bool)
    (on? : Option Bool) : KeepsTo looking known (Node.escapedCode byDefault on? code) := by
  have close : ∀ c ∈ "))".toList, isWord c = false ∧ c ≠ '(' := by
    show ∀ c ∈ [')', ')'], isWord c = false ∧ c ≠ '('
    exact forall_mem_cons.mpr ⟨by decide, forall_mem_singleton.mpr (by decide)⟩
  have isName : IsName "_hamlc_escape".toList := isName_of_all (by decide) (by decide)
  unfold Node.escapedCode
  split
  · have same : words ("_hamlc_escape((".toList ++ code ++ "))".toList) =
        ("_hamlc_escape".toList, true) :: words code := by
      have split : "_hamlc_escape((".toList ++ code ++ "))".toList =
          "_hamlc_escape".toList ++ ("((".toList ++ (code ++ "))".toList)) := by
        rw [append_assoc, ← append_assoc "_hamlc_escape".toList]
        rfl
      rw [split, words_name_signs isName (by decide) (by decide), words_append_signs close]
      rfl
    exact keepsTo_cons (fun _ => helper) (fun _ => looking.foreign _ (by decide)) same keeps
  · exact keeps

theorem words_trimRight (code : Text) : words (trimRight code) = words code := by
  obtain ⟨blanks, same, blank⟩ := trimRight_append_blanks code
  have signs : ∀ c ∈ blanks, isWord c = false ∧ c ≠ '(' := by
    intro c mem
    refine ⟨Text.isWord_of_isBlank (blank c mem), ?_⟩
    rintro rfl
    exact absurd (blank _ mem) (by decide)
  conv_rhs => rw [← same]
  exact (words_append_signs signs _).symm

theorem words_suiteHeader (code : Text) : words (Control.suiteHeader code) = words code := by
  have colon : ∀ c ∈ [':'], isWord c = false ∧ c ≠ '(' :=
    forall_mem_singleton.mpr (by decide)
  unfold Control.suiteHeader
  simp only
  split
  · exact words_trimRight code
  · rw [words_append_signs colon, words_trimRight]

theorem keepsTo_test (isName : IsName name) (allowed : isReserved name → name ∈ known) :
    KeepsTo looking known ("if ".toList ++ name ++ ":".toList) := by
  have isKeyword : IsName "if".toList := isName_of_all (by decide) (by decide)
  have colon : ∀ c ∈ ":".toList.head?, isWord c = false := by
    rintro _ ⟨⟩
    decide
  have same : words ("if".toList ++ (" ".toList ++ (name ++ ":".toList))) =
      ("if".toList, false) :: [(name, false)] := by
    rw [words_name_signs isKeyword (by decide) (by decide), words_name isName colon]
    rfl
  rw [append_assoc]
  refine keepsTo_cons (fun reserved => absurd reserved (by decide)) (by simp) same ?_
  rw [forall_mem_singleton]
  exact ⟨allowed, by simp⟩

theorem keepsTo_wordTest {keyword : Text} (isKeyword : IsName keyword) (plain : ¬isReserved keyword)
    (isName : IsName name) (allowed : isReserved name → name ∈ known) (texts : List Text) :
    KeepsTo looking known (wordTest keyword name texts) := by
  have isCall : IsName "str" := isName_of_all (by decide) (by decide)
  have isTest : IsName "in" := isName_of_all (by decide) (by decide)
  have close : words "):" = [] := by decide
  have split : wordTest keyword name texts = keyword ++ (" " ++ ("str" ++ ("(" ++
      (name ++ (") " ++ ("in" ++ (" (" ++
        (joinWith ", " (texts.map Text.quote) ++ "):")))))))) := by
    simp [wordTest]
  have same : words (wordTest keyword name texts) =
      (keyword, false) :: [("str", true), (name, false), ("in", false)] := by
    rw [split, words_name_signs isKeyword (by decide) (by decide),
      words_name_signs isCall (by decide) (by decide),
      words_name_signs isName (by decide) (by decide),
        words_name_signs isTest (by decide) (by decide), words_quotes,
      close]
    rfl
  refine keepsTo_cons (fun reserved => absurd reserved plain) (by simp) same ?_
  simp only [forall_mem_cons]
  exact ⟨⟨fun reserved => absurd reserved (by decide), fun _ => looking.foreign _ (by decide)⟩,
    ⟨allowed, by simp⟩,
    ⟨fun reserved => absurd reserved (by decide), by simp⟩, nofun⟩

end Statements

/-! ## Joined values -/

/-- Whether all strings of a code are closed. -/
def isComplete (code : Text) : Bool :=
  (code.foldl Spell.step .apart).isCode

/-- A code that may be followed by others. -/
def IsPhrase (looking : Lookers) (known : List Text) (code : Text) : Prop :=
  ∀ t, EndsWord t → KeepsTo looking known t → KeepsTo looking known (code ++ t)

section Joined

variable {looking : Lookers} {known : List Text} {code : Text}

theorem wordsFrom_of_ends {s : Spell} (outside : s.isCode) {t : Text} (ends : EndsWord t) :
    wordsFrom s t = words t := by
  cases s with
  | apart => rfl
  | word =>
    cases t with
    | nil => rfl
    | cons c t =>
      rw [wordsFrom_word_cons, words, wordsFrom_cons fun _ => (ends c rfl).1]
      rfl
  | string | escape => cases outside

theorem words_append {t : Text} (complete : isComplete code) (ends : EndsWord t) :
    words (code ++ t) = words code ++ words t := by
  rw [words, wordsFrom_append ends, wordsFrom_of_ends complete ends]
  rfl

theorem endsWord_of_head {c : Char} (sign : isWord c = false ∧ c ≠ '(') (t : Text) :
    EndsWord (c :: t) := by
  rintro _ ⟨⟩
  exact sign

theorem isPhrase_literal (helper : "_hamlc_markup".toList ∈ known) (text : Text) :
    IsPhrase looking known ("_hamlc_markup(".toList ++ Text.quote text ++ ")".toList) := by
  intro t ends keeps
  have isName : IsName "_hamlc_markup".toList := isName_of_all (by decide) (by decide)
  have close : ")".toList.all isSign := by decide
  have split : "_hamlc_markup(".toList ++ Text.quote text ++ ")".toList ++ t =
      "_hamlc_markup".toList ++ ("(".toList ++ (Text.quote text ++ (")".toList ++ t))) := by
    rw [append_assoc, append_assoc, ← append_assoc "_hamlc_markup".toList]
    rfl
  have same : words ("_hamlc_markup(".toList ++ Text.quote text ++ ")".toList ++ t) =
      ("_hamlc_markup".toList, true) :: words t := by
    rw [split, words_name_signs isName (by decide) (by decide), words_quote, words_signs close]
    rfl
  exact keepsTo_cons (fun _ => helper) (fun _ => looking.foreign _ (by decide)) same keeps

theorem isPhrase_code (complete : isComplete code) (keeps : KeepsTo looking known code) :
    IsPhrase looking known ("(" ++ code ++ ")") := by
  intro t ends others
  have opening : "(".toList.all isSign := by decide
  have close : ")".toList.all isSign := by decide
  have same : words ("(" ++ code ++ ")" ++ t) = words code ++ words t := by
    have behind : EndsWord (")" ++ t) := endsWord_of_head (by decide) t
    rw [append_assoc, append_assoc, words_signs opening, words_append complete behind,
      words_signs close]
  rw [KeepsTo, same, forall_mem_append]
  exact ⟨keeps, others⟩

theorem isPhrase_name {name : Text} (isName : IsName name)
    (allowed : isReserved name → name ∈ known) : IsPhrase looking known name := by
  intro t ends others
  have same := words_name isName (t := t) fun c head => (ends c head).1
  refine keepsTo_cons allowed (fun called => ?_) same others
  exact absurd rfl (ends '(' (beq_iff_eq.mp called)).2

variable {parts : List Text}

theorem isPhrase_joinWith (each : ∀ part ∈ parts, IsPhrase looking known part) :
    IsPhrase looking known (joinWith ", " parts) := by
  have between : ", ".toList.all isSign := by decide
  induction parts with
  | nil => exact fun t _ keeps => keeps
  | cons part parts ih =>
    rw [forall_mem_cons] at each
    cases parts with
    | nil => exact each.1
    | cons next parts =>
      intro t ends keeps
      rw [joinWith, append_assoc, append_assoc]
      · refine each.1 _ (endsWord_of_head (by decide) _) ?_
        rw [KeepsTo, words_signs between]
        exact ih each.2 t ends keeps
      · nofun

theorem keepsTo_joinStatement {temp : Text} (isName : IsName temp)
    (allowed : isReserved temp → temp ∈ known)
    (helper : "_hamlc_join_attr".toList ∈ known) (delimiter : Text)
    (each : ∀ part ∈ parts, IsPhrase looking known part) :
    KeepsTo looking known (joinStatement temp delimiter parts) := by
  have isCall : IsName "_hamlc_join_attr".toList := isName_of_all (by decide) (by decide)
  have between : ", [".toList.all isSign := by decide
  have close : KeepsTo looking known "])".toList := by
    rw [KeepsTo, show words "])".toList = [] by decide]
    nofun
  have inside := isPhrase_joinWith each "])".toList (endsWord_of_head (by decide) _) close
  have split : joinStatement temp delimiter parts =
      temp ++ " = ".toList ++ ("_hamlc_join_attr".toList ++ ("(".toList ++ (Text.quote delimiter ++
        (", [".toList ++ (joinWith ", ".toList parts ++ "])".toList))))) := by
    simp [joinStatement]
  have same : words ("_hamlc_join_attr".toList ++ ("(".toList ++ (Text.quote delimiter ++
      (", [".toList ++ (joinWith ", ".toList parts ++ "])".toList))))) = ("_hamlc_join_attr".toList,
        true) ::
        words (joinWith ", ".toList parts ++ "])".toList) := by
    rw [words_name_signs isCall (by decide) (by decide), words_quote, words_signs between]
    rfl
  rw [split]
  exact (keepsTo_cons (fun _ => helper) (fun _ => looking.foreign _ (by decide)) same inside).assign
    isName allowed

end Joined

/-! ## Expressions -/

section Expressions

variable {steps : Nat} {bracketed : Bool} {t : Text}

variable {c close : Char} {rest u left : Text}

theorem skipBlanks_cons (ink : isBlank c = false) (t : Text) :
    skipBlanks bracketed (c :: t) = c :: t := by
  rw [skipBlanks, dropWhile_cons, ink]
  rfl

theorem word?_quote (isQuote : c = '\'' ∨ c = '"') (t : Text) : word? (c :: t) = none := by
  rcases isQuote with rfl | rfl
  · rfl
  · rfl

theorem word?_append {name : Text} (isName : IsName name) (start : name.head?.all isNameStart)
    (ends : ∀ c ∈ t.head?, isWord c = false) : word? (name ++ t) = some (name, t) := by
  obtain ⟨c, rest, rfl⟩ := exists_cons_of_ne_nil isName.1
  have start : isNameStart c := start
  have stop : t.takeWhile isWord = [] ∧ t.dropWhile isWord = t := by
    cases t with
    | nil => exact ⟨rfl, rfl⟩
    | cons d t => simp [ends d rfl]
  rw [cons_append, word?, if_pos start, ← cons_append, takeWhile_append_of_pos isName.2,
    dropWhile_append_of_pos isName.2, stop.1, stop.2, append_nil]

theorem comparison?_cons (ink : isBlank c = false) (noWord : isWord c = false) (noEqual : c ≠ '=')
    (a : Expr) (t : Text) : comparison? (steps + 1) bracketed a (c :: t) = some (a, c :: t) := by
  have noName : word? (c :: t) = none := by simp [word?, isNameStart, noWord]
  rw [comparison?, skipBlanks_cons ink]
  split
  next found => exact absurd (List.cons.inj found).1 noEqual
  next => rw [noName]

theorem other_of_word? {name : Text} (word : word? t = some (name, rest)) :
    (∀ u, t ≠ '[' :: u) ∧ (∀ u, t ≠ '(' :: u) ∧ (name ≠ "type" → rich? t = none) ∧
    unquote? t = none ∧ number? t = none := by
  obtain ⟨c, u, rfl, start⟩ : ∃ c u, t = c :: u ∧ isNameStart c := by
    unfold word? at word
    split at word
    · nomatch word
    next c u =>
      split at word
      next start => exact ⟨c, u, rfl, start⟩
      next => nomatch word
  have other : ∀ d, isNameStart d = false → c ≠ d := by
    rintro d no rfl
    exact absurd start (by simp [no])
  have noString : unquote? (c :: u) = none := by
    have noQuote : (c = '\'' || c = '"') = false := by
      simp [other '\'' (by decide), other '"' (by decide)]
    rw [unquote?, noQuote]
    rfl
  have noNumber : number? (c :: u) = none := by
    have noDigit : c.isDigit = false := by
      rw [isNameStart, Bool.and_eq_true, Bool.not_eq_true'] at start
      exact start.2
    rw [number?, takeWhile_cons, noDigit]
    rfl
  have noRich : name ≠ "type" → rich? (c :: u) = none := by
    intro other
    cases front : Text.after? richFront (c :: u) with
    | none => rw [rich?, front]; rfl
    | some v =>
      rw [Text.after?_eq_some_iff.mp front] at word
      have starts : word? (richFront ++ v) = some ("type".toList, richFront.drop 4 ++ v) := rfl
      rw [starts] at word
      cases word
      exact absurd rfl other
  refine ⟨fun v same => ?_, fun v same => ?_, noRich, noString, noNumber⟩
  · exact other '[' (by decide) (List.cons.inj same).1
  · exact other '(' (by decide) (List.cons.inj same).1

theorem atom?_call {name : Text} (word : word? t = some (name, '(' :: rest))
    (noClass : name ≠ "type") : atom? (steps + 1) bracketed t =
      (items? steps ')' rest).map fun found => (.call name found.1, found.2.2) := by
  obtain ⟨noList, noTuple, noRich, noString, noNumber⟩ := other_of_word? word
  rw [atom?, noRich noClass, noString, noNumber, word]
  · cases inside : items? steps ')' rest with
    | none => simp only [inside, Option.map_none]
    | some found => simp only [inside, Option.map_some]
  · exact noList
  · exact noTuple

theorem expr?_of_atom (still : skipBlanks bracketed t = t)
    (noNot : ∀ rest, word? t ≠ some ("not".toList, rest)) : expr? (steps + 1) bracketed t =
      (atom? steps bracketed t).bind fun found => comparison? steps bracketed found.1 found.2 := by
  rw [expr?, still]
  split
  next word => exact absurd word (noNot _)
  next =>
    cases atom? steps bracketed t with
    | none | some found => rfl

theorem atom?_quote (isQuote : c = '\'' ∨ c = '"') (u : Text) :
    atom? (steps + 1) bracketed (c :: u) = (unquote? (c :: u)).map fun found =>
      (.string found.1, found.2) := by
  have noNumber : number? (c :: u) = none := by
    rcases isQuote with rfl | rfl
    · rfl
    · rfl
  have noRich : rich? (c :: u) = none := by
    rcases isQuote with rfl | rfl
    · rfl
    · rfl
  rw [atom?, noRich, word?_quote isQuote, noNumber]
  · cases unquote? (c :: u) with
    | none | some found => rfl
  · rintro rest same
    rcases isQuote with rfl | rfl
    · exact absurd (List.cons.inj same).1 (by decide)
    · exact absurd (List.cons.inj same).1 (by decide)
  · rintro rest same
    rcases isQuote with rfl | rfl
    · exact absurd (List.cons.inj same).1 (by decide)
    · exact absurd (List.cons.inj same).1 (by decide)

theorem items?_last {e : Expr} (start : skipBlanks true t = c :: u) (other : c ≠ close)
    (read : expr? steps true (c :: u) = some (e, rest))
    (closed : skipBlanks true rest = close :: left) :
    items? (steps + 1) close t = some ([e], false, left) := by
  rw [items?, start]
  simp only [if_neg other, read, closed, if_true]

theorem items?_more {left' : Text} {e e' : Expr} {es : List Expr} {comma : Bool}
    (start : skipBlanks true t = c :: u) (other : c ≠ close)
    (read : expr? steps true (c :: u) = some (e, rest))
    (between : skipBlanks true rest = ',' :: left) (noClose : ',' ≠ close)
    (more : items? steps close left = some (e' :: es, comma, left')) :
    items? (steps + 1) close t = some (e :: e' :: es, comma, left') := by
  rw [items?, start]
  simp only [if_neg other, read, between, if_neg noClose, if_true, more]

end Expressions

end MarkupTemplate.Host
