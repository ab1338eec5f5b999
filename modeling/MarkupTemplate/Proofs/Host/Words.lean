import MarkupTemplate.Proofs.Host.Unread
import MarkupTemplate.Proofs.Line.Recognized

/-!
# The words of a code

The names that a code mentions are among its words outside of string literals, which `Host.words`
lists, each with whether a parenthesis follows. So a code whose words are other names than those of
some variables leaves these alone (`exprSpares_of_quiet`, `codeSpares_of_quiet`).
-/

namespace MarkupTemplate

theorem Text.isWord_of_isBlank {c : Char} (blank : isBlank c) : isWord c = false := by
  have apart : ∀ r ∈ blankRanges, ∀ s ∈ letterRanges, r.2 < s.1 ∨ s.2 < r.1 := by decide +kernel
  have ascii : ∀ r ∈ blankRanges, 127 < r.1 ∨ r.2 < 48 := by decide
  obtain ⟨r, mem, inside⟩ := List.any_eq_true.mp blank
  simp only [Bool.and_eq_true, decide_eq_true_eq] at inside
  rw [Bool.eq_false_iff]
  intro word
  unfold isWord at word
  split at word
  next small =>
    have below : c.toNat < 48 := by
      rcases ascii r mem with large | low
      · omega
      · omega
    have low : ∀ n < 48, (Char.ofNat n).isAlphanum = false := by decide
    have spelled := low c.toNat below
    rw [Char.ofNat_toNat] at spelled
    rw [spelled, Bool.false_or, beq_iff_eq] at word
    rw [word] at below
    exact absurd below (by decide)
  next =>
    obtain ⟨s, found, within⟩ := List.any_eq_true.mp word
    simp only [Bool.and_eq_true, decide_eq_true_eq] at within
    rcases apart r mem s found with before | behind
    · omega
    · omega

theorem Text.isWord_of_isDigit {c : Char} (digit : c.isDigit) : isWord c := by
  have value : c.val.toNat ≤ 57 := by
    simp only [Char.isDigit, Bool.and_eq_true, decide_eq_true_eq, UInt32.le_iff_toNat_le] at digit
    exact digit.2
  have small : c.toNat < 128 := by
    show c.val.toNat < 128
    omega
  rw [isWord, if_pos small, Char.isAlphanum, digit, Bool.or_true, Bool.true_or]

namespace Host

open Text (isWord)

/-! ## Words -/

/-- Where a place in a code is. -/
inductive Spell where
  | apart
  | word
  | string (quote : Char)
  | escape (quote : Char)
deriving DecidableEq, Repr

/-- Where the place behind one more character is. -/
def Spell.step : Spell → Char → Spell
  | .string quote, c =>
    if c = '\\' then .escape quote else if c = quote then .apart else .string quote
  | .escape quote, _ => .string quote
  | _, c => if c = '\'' || c = '"' then .string c else if isWord c then .word else .apart

/-- The words that start in a text, and whether a parenthesis follows. -/
def wordsFrom : Spell → Text → List (Text × Bool)
  | _, [] => []
  | .apart, c :: t =>
    if isWord c then
      ((c :: t).takeWhile isWord, (t.dropWhile isWord).head? == some '(') :: wordsFrom .word t
    else wordsFrom (Spell.step .apart c) t
  | s, c :: t => wordsFrom (s.step c) t

/-- The words of a code outside of strings, and whether a parenthesis follows. -/
def words (code : Text) : List (Text × Bool) :=
  wordsFrom .apart code

/-- Whether a character is part of neither a word nor a string. -/
def isSign (c : Char) : Bool :=
  !isWord c && c != '\'' && c != '"'

/-- Whether a place is outside of strings. -/
def Spell.isCode : Spell → Bool
  | .apart | .word => true
  | .string _ | .escape _ => false

section Steps

variable {s : Spell} {c : Char} {t : Text}

theorem not_quote_of_isWord (word : isWord c) : (c = '\'' || c = '"') = false := by
  rw [Bool.or_eq_false_iff, decide_eq_false_iff_not, decide_eq_false_iff_not]
  constructor
  · rintro rfl
    exact absurd word (by decide)
  · rintro rfl
    exact absurd word (by decide)

theorem isSign_of_isBlank (blank : Text.isBlank c) : isSign c := by
  have noQuote : c ≠ '\'' ∧ c ≠ '"' := by
    constructor
    · rintro rfl
      exact absurd blank (by decide)
    · rintro rfl
      exact absurd blank (by decide)
  simp [isSign, Text.isWord_of_isBlank blank, noQuote]

theorem step_of_isWord (code : s.isCode) (word : isWord c) : s.step c = .word := by
  cases s with
  | apart | word =>
    simp only [Spell.step, not_quote_of_isWord word, Bool.false_eq_true, if_false, word, if_true]
  | string | escape => nomatch code

theorem step_of_isSign (code : s.isCode) (sign : isSign c) : s.step c = .apart := by
  obtain ⟨⟨noWord, noQuote⟩, noDouble⟩ : (isWord c = false ∧ c ≠ '\'') ∧ c ≠ '"' := by
    simpa [isSign] using sign
  cases s with
  | apart | word => simp [Spell.step, noWord, noQuote, noDouble]
  | string | escape => nomatch code

theorem wordsFrom_apart (word : isWord c) : wordsFrom .apart (c :: t) =
    ((c :: t).takeWhile isWord, (t.dropWhile isWord).head? == some '(') :: wordsFrom .word t := by
  rw [wordsFrom, if_pos word]

theorem wordsFrom_cons (other : s = .apart → isWord c = false) :
    wordsFrom s (c :: t) = wordsFrom (s.step c) t := by
  cases s with
  | apart => rw [wordsFrom, if_neg (by simp [other rfl])]
  | word | string | escape => rfl

theorem wordsFrom_word_cons (c : Char) (t : Text) :
    wordsFrom .word (c :: t) = wordsFrom (Spell.step .word c) t :=
  rfl

theorem wordsFrom_sign (code : s.isCode) (sign : isSign c) : wordsFrom s (c :: t) = words t := by
  have noWord : isWord c = false := by
    simp only [isSign, Bool.and_eq_true, Bool.not_eq_true'] at sign
    exact sign.1.1
  rw [wordsFrom_cons fun _ => noWord, step_of_isSign code sign, words]

theorem wordsFrom_dropWhile {p : Char → Bool} (part : ∀ c, p c → isWord c) (t : Text) :
    wordsFrom .word (t.dropWhile p) = wordsFrom .word t := by
  induction t with
  | nil => rfl
  | cons c t ih =>
    rw [List.dropWhile_cons]
    split
    next here => rw [ih, wordsFrom_word_cons, step_of_isWord rfl (part c here)]
    next => rfl

/-- Behind a word there is no other until a character that is no part of it. -/
theorem wordsFrom_word (t : Text) : wordsFrom .word t = words (t.dropWhile isWord) := by
  rw [← wordsFrom_dropWhile (fun _ word => word) t, words]
  cases rest : t.dropWhile isWord with
  | nil => rfl
  | cons c u =>
    have noWord : isWord c = false := by
      have := List.head?_dropWhile_not isWord t
      rw [rest] at this
      simpa using this
    rw [wordsFrom_word_cons, wordsFrom_cons fun _ => noWord]
    rfl

end Steps

/-! ## Quiet texts -/

/-- No word that starts in a text is one of some names or calls one of some functions. -/
def Quiet (looking : Lookers) (names : List Text) (s : Spell) (t : Text) : Prop :=
  ∀ w ∈ wordsFrom s t, w.1 ∉ names ∧ (w.2 → w.1 ∉ looking.names)

namespace Quiet

variable {looking : Lookers} {names : List Text} {s : Spell} {t rest : Text}

variable {s' : Spell} {t' name : Text}

theorem of_subset (quiet : Quiet looking names s t) (fewer : wordsFrom s' t' ⊆ wordsFrom s t) :
    Quiet looking names s' t' :=
  fun w mem => quiet w (fewer mem)

theorem of_eq (quiet : Quiet looking names s t) (same : wordsFrom s' t' = wordsFrom s t) :
    Quiet looking names s' t' :=
  quiet.of_subset fun _ mem => same ▸ mem

theorem word (quiet : Quiet looking names .apart t) : Quiet looking names .word t := by
  cases t with
  | nil => exact quiet
  | cons c t =>
    by_cases word : isWord c
    · refine quiet.of_subset ?_
      rw [wordsFrom_apart word, wordsFrom_word_cons, step_of_isWord rfl word]
      exact List.subset_cons_self _ _
    · have noWord : isWord c = false := by simpa using word
      refine quiet.of_eq ?_
      rw [wordsFrom_word_cons, wordsFrom_cons fun _ => noWord]
      rfl

theorem tail {c : Char} (quiet : Quiet looking names s (c :: t)) :
    Quiet looking names (s.step c) t := by
  by_cases word : s = .apart ∧ isWord c
  · obtain ⟨rfl, word⟩ := word
    refine quiet.of_subset ?_
    rw [wordsFrom_apart word, step_of_isWord rfl word]
    exact List.subset_cons_self _ _
  · refine quiet.of_eq (wordsFrom_cons fun apart => ?_).symm
    simpa [apart] using word

/-- What follows a text in a quiet one is quiet. -/
theorem behind {front : Text} (quiet : Quiet looking names s (front ++ t)) :
    Quiet looking names (front.foldl Spell.step s) t := by
  induction front generalizing s with
  | nil => exact quiet
  | cons c front ih => exact ih quiet.tail

theorem tail_of_isSign {c : Char} (code : s.isCode) (sign : isSign c)
    (quiet : Quiet looking names s (c :: t)) : Quiet looking names .apart t :=
  quiet.of_eq (wordsFrom_sign code sign).symm

theorem of_apart (code : s.isCode) (quiet : Quiet looking names .apart t) :
    Quiet looking names s t := by
  cases s with
  | apart => exact quiet
  | word => exact quiet.word
  | string | escape => nomatch code

theorem dropWhile {p : Char → Bool} (signs : ∀ c, p c → isSign c) (code : s.isCode)
    (quiet : Quiet looking names s t) : Quiet looking names s (t.dropWhile p) := by
  induction t generalizing s with
  | nil => exact quiet
  | cons c t ih =>
    rw [List.dropWhile_cons]
    split
    next here => exact (ih rfl (quiet.tail_of_isSign code (signs c here))).of_apart code
    next => exact quiet

theorem skipBlanks (bracketed : Bool) (code : s.isCode) (quiet : Quiet looking names s t) :
    Quiet looking names s (Host.skipBlanks bracketed t) := by
  refine quiet.dropWhile (fun c blank => ?_) code
  rw [Bool.and_eq_true] at blank
  exact isSign_of_isBlank blank.1

theorem trimLeft (code : s.isCode) (quiet : Quiet looking names s t) :
    Quiet looking names s (Text.trimLeft t) :=
  quiet.dropWhile (fun _ => isSign_of_isBlank) code

/-! ### What reading leaves -/

theorem rest_of_word? (quiet : Quiet looking names .word t) (read : word? t = some (name, rest)) :
    Quiet looking names .apart rest := by
  unfold word? at read
  split at read
  · nomatch read
  · split at read
    · cases read
      exact quiet.of_eq (wordsFrom_word _).symm
    · nomatch read

theorem of_word? (quiet : Quiet looking names .apart t) (read : word? t = some (name, rest)) :
    (name ∉ names ∧ (rest.head? = some '(' → name ∉ looking.names)) ∧
    Quiet looking names .apart rest := by
  refine ⟨?_, quiet.word.rest_of_word? read⟩
  unfold word? at read
  split at read
  · nomatch read
  next c u =>
    split at read
    next start =>
      have inWord : isWord c := by
        rw [isNameStart, Bool.and_eq_true] at start
        exact start.1
      cases read
      have here := quiet _ (by rw [wordsFrom_apart inWord]; exact .head _)
      refine ⟨here.1, fun called => here.2 ?_⟩
      rw [List.dropWhile_cons, if_pos inWord] at called
      exact beq_iff_eq.mpr called
    next => nomatch read

theorem of_number? {n : Nat} (quiet : Quiet looking names .apart t)
    (read : number? t = some (n, rest)) : Quiet looking names .word rest := by
  unfold number? at read
  split at read
  · nomatch read
  · cases read
    exact quiet.word.of_eq (wordsFrom_dropWhile (fun _ => Text.isWord_of_isDigit) t)

end Quiet

/-! ## Strings -/

/-- What follows a string, from a place inside it. -/
def afterString : Spell → Text → Text
  | _, [] => []
  | s, c :: t => if s.step c = .apart then t else afterString (s.step c) t

theorem wordsFrom_afterString {s : Spell} (inside : s.isCode = false) (t : Text) :
    wordsFrom s t = words (afterString s t) := by
  have string : ∀ {s : Spell} {c : Char}, s.isCode = false → s.step c ≠ .apart →
      (s.step c).isCode = false := by
    intro s c inside stays
    cases s with
    | apart | word => nomatch inside
    | string quote =>
      rw [Spell.step] at stays ⊢
      split
      · rfl
      next noEscape =>
        split
        next close => rw [if_neg noEscape, if_pos close] at stays; exact absurd rfl stays
        next => rfl
    | escape => rfl
  induction t generalizing s with
  | nil => cases s <;> rfl
  | cons c t ih =>
    rw [wordsFrom_cons (by rintro rfl; nomatch inside), afterString]
    split
    next close => rw [close, words]
    next stays => exact ih (string inside stays)

/-- Where a place in a string is that is read in a given way. -/
def spellOf (quote : Char) : Text.LiteralState → Spell
  | .escape => .escape quote
  | .plain | .digits _ _ | .octal _ _ => .string quote

variable {quote : Char} {hidden : Bool}

theorem step_string {c : Char} (noEscape : c ≠ '\\') (noClose : c ≠ quote) :
    Spell.step (.string quote) c = .string quote := by
  rw [Spell.step, if_neg noEscape, if_neg noClose]

theorem afterString_cons {s s' : Spell} {c : Char} (step : s.step c = s') (stays : s' ≠ .apart)
    (t : Text) : afterString s (c :: t) = afterString s' t := by
  rw [afterString, step, if_neg stays]

/-- What a step of reading a string does to the place in it. -/
def StepsTo (quote : Char) (s : Spell) (c : Char) : Text.LiteralStep → Prop
  | .close _ => s.step c = .apart
  | .next state _ => s.step c = spellOf quote state
  | .refuse => True

theorem stepsTo_behind {s : Spell} {c d : Char} {step : Text.LiteralStep}
    (steps : StepsTo quote s c step) : StepsTo quote s c (step.behind d) := by
  cases step with
  | _ => exact steps

theorem stepsTo_plain (noEscape : quote ≠ '\\') (c : Char) :
    StepsTo quote (.string quote) c (Text.plainStep quote c) := by
  unfold Text.plainStep
  split
  next close =>
    show Spell.step (.string quote) c = .apart
    rw [Spell.step, if_neg (close ▸ noEscape), if_pos close]
  next noClose =>
    split
    next escape => exact if_pos escape
    next noEscape =>
      split
      · trivial
      · exact step_string noEscape noClose

theorem step_of_digit (isQuote : quote = '\'' ∨ quote = '"') {c : Char}
    (digit : (Text.hexValue? c).isSome) : Spell.step (.string quote) c = .string quote := by
  refine step_string ?_ ?_
  · rintro rfl
    nomatch digit
  · rintro rfl
    rcases isQuote with rfl | rfl
    · nomatch digit
    · nomatch digit

theorem hexValue?_of_octal {c : Char} {d : Nat} (digit : Text.octalValue? c = some d) :
    (Text.hexValue? c).isSome := by
  have small : '0' ≤ c ∧ c ≤ '7' := by
    by_contra other
    rw [Text.octalValue?, if_neg (by simpa using other)] at digit
    nomatch digit
  have decimal : ('0' ≤ c && c ≤ '9') = true := by
    simpa using ⟨small.1, Char.le_trans small.2 (by decide)⟩
  rw [Text.hexValue?, if_pos decimal]
  rfl

/-- A string is read to the quote at which the words of a code go on. -/
theorem stepsTo_step (isQuote : quote = '\'' ∨ quote = '"') (state : Text.LiteralState) (c : Char) :
    StepsTo quote (spellOf quote state) c (state.step quote c) := by
  have noEscape : quote ≠ '\\' := by
    rcases isQuote with rfl | rfl
    · decide
    · decide
  cases state with
  | plain => exact stepsTo_plain noEscape c
  | escape =>
    show StepsTo quote (.escape quote) c (Text.escapeStep c)
    unfold Text.escapeStep
    split
    · rfl
    · rfl
    · rfl
    · split
      · rfl
      · split
        · trivial
        · rfl
  | digits missing value =>
    show StepsTo quote (.string quote) c (Text.digitStep missing value c)
    unfold Text.digitStep
    split
    · trivial
    next d digit =>
      have stays := step_of_digit isQuote (Option.isSome_of_eq_some digit)
      split
      · exact stays
      · split
        · exact stays
        · trivial
  | octal left value =>
    unfold Text.LiteralState.step
    dsimp only
    split
    next digit => exact step_of_digit isQuote (hexValue?_of_octal digit)
    next => exact stepsTo_behind (stepsTo_plain noEscape c)

theorem rest_of_unquoteFrom? (isQuote : quote = '\'' ∨ quote = '"') {state : Text.LiteralState}
    {t text rest : Text}
    (read : Text.unquoteFrom? quote state t = some (text, rest)) :
    rest = afterString (spellOf quote state) t := by
  induction t generalizing state text with
  | nil =>
    rw [Text.unquoteFrom?] at read
    cases read
  | cons c t ih =>
    have steps := stepsTo_step isQuote state c
    rw [Text.unquoteFrom?] at read
    split at read
    next step =>
      cases read
      rw [step] at steps
      exact (if_pos steps).symm
    next state' settled step =>
      obtain ⟨_, inside, same⟩ := Option.map_eq_some_iff.mp read
      cases same
      rw [step] at steps
      have stays : spellOf quote state' ≠ .apart := by
        cases state' with
        | _ => nofun
      rw [afterString_cons steps stays]
      exact ih inside
    next => cases read

theorem rest_of_unquote? {t text rest : Text} (read : Text.unquote? t = some (text, rest)) :
    ∃ quote u, (quote = '\'' ∨ quote = '"') ∧ t = quote :: u ∧
    rest = afterString (.string quote) u := by
  unfold Text.unquote? at read
  split at read
  · nomatch read
  next c u =>
    split at read
    next isQuote =>
      have isQuote : c = '\'' ∨ c = '"' := by simpa using isQuote
      exact ⟨c, u, isQuote, rfl, rest_of_unquoteFrom? isQuote read⟩
    next => nomatch read

theorem wordsFrom_quote {s : Spell} (code : s.isCode) (isQuote : quote = '\'' ∨ quote = '"')
    (t : Text) : wordsFrom s (quote :: t) = words (afterString (.string quote) t) := by
  have noWord : isWord quote = false := by
    rcases isQuote with rfl | rfl
    · decide
    · decide
  rw [wordsFrom_cons fun _ => noWord, ← wordsFrom_afterString rfl]
  cases s with
  | apart | word => simp [Spell.step, isQuote]
  | string | escape => nomatch code

theorem Quiet.of_unquote? {looking : Lookers} {names : List Text} {t text rest : Text}
    (quiet : Quiet looking names .apart t)
    (read : Text.unquote? t = some (text, rest)) : Quiet looking names .apart rest := by
  obtain ⟨quote, u, isQuote, rfl, rfl⟩ := rest_of_unquote? read
  exact quiet.of_eq (wordsFrom_quote rfl isQuote u).symm

theorem Quiet.of_rich? {looking : Lookers} {names : List Text} {t rest : Text} {e : Expr}
    (quiet : Quiet looking names .apart t)
    (read : rich? t = some (e, rest)) :
    (∃ text html, e = .rich text html) ∧ Quiet looking names .apart rest := by
  obtain ⟨u, front, made⟩ := Option.bind_eq_some_iff.mp read
  obtain ⟨⟨html, v⟩, markup, called⟩ := Option.bind_eq_some_iff.mp made
  obtain ⟨w, between, given⟩ := Option.bind_eq_some_iff.mp called
  obtain ⟨⟨text, behind⟩, string, closed⟩ := Option.bind_eq_some_iff.mp given
  obtain rfl := Text.after?_eq_some_iff.mp front
  obtain rfl := Text.after?_eq_some_iff.mp between
  have afterFront : Quiet looking names .apart u := quiet.behind
  have afterMarkup : Quiet looking names .apart w := (afterFront.of_unquote? markup).behind
  have afterString := afterMarkup.of_unquote? string
  split at closed
  next same =>
    cases closed
    cases same
    exact ⟨⟨_, _, rfl⟩, afterString.tail⟩
  next => nomatch closed

/-! ## Reading quiet expressions -/

theorem Expr.spares_hidden {looking : Lookers} {names : List Text} {e : Expr}
    (spares : e.spares looking names false) : e.spares looking names hidden := by
  cases e with
  | call function arguments =>
    cases arguments with
    | nil =>
      rw [Expr.spares, Bool.false_and, Bool.or_false] at spares
      rw [Expr.spares, spares, Bool.true_or]
    | cons first more => simpa only [Expr.spares] using spares
  | number | string | rich | nothing | truth => rfl
  | _ => simpa only [Expr.spares] using spares

theorem sparesAll_hidden {looking : Lookers} {names : List Text} {es : List Expr}
    (spares : sparesAll looking names false es) : sparesAll looking names hidden es := by
  induction es with
  | nil => rfl
  | cons e es ih =>
    rw [sparesAll, Bool.and_eq_true] at spares ⊢
    exact ⟨Expr.spares_hidden spares.1, ih spares.2⟩

/-- A call of a function, if a parenthesis follows its name. -/
theorem spares_call {looking : Lookers} {names : List Text} {function : Text}
    {arguments : List Expr} (other : function ∉ looking.names)
    (spares : sparesAll looking names false arguments) :
    (Expr.call function arguments).spares looking names false := by
  cases arguments with
  | nil => simp [Expr.spares, other]
  | cons first more =>
    rw [sparesAll, Bool.and_eq_true] at spares
    simp [Expr.spares, other, spares.1, sparesAll_hidden spares.2]

/-- Reading a quiet text gives an expression that spares the names, and leaves a quiet text. -/
structure ReadsQuietly (looking : Lookers) (names : List Text) (steps : Nat) : Prop where
  expr {bracketed : Bool} {t rest : Text} {e : Expr} : Quiet looking names .apart t →
    expr? steps bracketed t = some (e, rest) →
    e.spares looking names false ∧ Quiet looking names .word rest
  comparison {bracketed : Bool} {a e : Expr} {t rest : Text} : a.spares looking names false →
    Quiet looking names .word t →
    comparison? steps bracketed a t = some (e, rest) → e.spares looking names false ∧
      Quiet looking names .word rest
  atom {bracketed : Bool} {t rest : Text} {e : Expr} : Quiet looking names .apart t →
    atom? steps bracketed t = some (e, rest) →
    e.spares looking names false ∧ Quiet looking names .word rest
  items {close : Char} {t rest : Text} {es : List Expr} {comma : Bool} : isSign close →
    Quiet looking names .apart t →
    items? steps close t = some (es, comma, rest) → sparesAll looking names false es ∧
      Quiet looking names .apart rest

namespace ReadsQuietly

variable {looking : Lookers} {names : List Text} {steps : Nat}

variable {bracketed : Bool} {e : Expr}

variable (ih : ReadsQuietly looking names steps)

include ih

theorem expr_succ {t rest : Text} (quiet : Quiet looking names .apart t)
    (read : expr? (steps + 1) bracketed t = some (e, rest)) :
    e.spares looking names false ∧ Quiet looking names .word rest := by
  have quiet := quiet.skipBlanks bracketed rfl
  rw [expr?] at read
  split at read
  next behind word =>
    split at read
    next inner =>
      cases read
      obtain ⟨spares, left⟩ := ih.expr (quiet.of_word? word).2 inner
      exact ⟨by rwa [Expr.spares], left⟩
    next => nomatch read
  next =>
    split at read
    next => nomatch read
    next operand =>
      obtain ⟨spares, left⟩ := ih.atom quiet operand
      exact ih.comparison spares left read

theorem comparison_succ {a : Expr} {t rest : Text} (spares : a.spares looking names false)
    (quiet : Quiet looking names .word t)
    (read : comparison? (steps + 1) bracketed a t = some (e, rest)) :
    e.spares looking names false ∧ Quiet looking names .word rest := by
  have quiet := quiet.skipBlanks bracketed rfl
  rw [comparison?] at read
  split at read
  next behind found =>
    rw [found] at quiet
    have quiet := ((quiet.tail_of_isSign rfl (by decide)).tail_of_isSign rfl (by decide)).skipBlanks
      bracketed rfl
    split at read
    next operand =>
      cases read
      obtain ⟨sparesOther, left⟩ := ih.atom quiet operand
      exact ⟨by simp [Expr.spares, spares, sparesOther], left⟩
    next => nomatch read
  next =>
    split at read
    next behind word =>
      split at read
      next operand =>
        cases read
        obtain ⟨sparesOther, left⟩ :=
          ih.atom ((quiet.rest_of_word? word).skipBlanks bracketed rfl) operand
        exact ⟨by simp [Expr.spares, spares, sparesOther], left⟩
      next => nomatch read
    next =>
      cases read
      exact ⟨spares, quiet⟩

theorem atom_succ {t rest : Text} (quiet : Quiet looking names .apart t)
    (read : atom? (steps + 1) bracketed t = some (e, rest)) :
    e.spares looking names false ∧ Quiet looking names .word rest := by
  unfold atom? at read
  split at read
  next behind =>
    split at read
    next inner =>
      cases read
      obtain ⟨spares, left⟩ := ih.items (by decide) (quiet.tail_of_isSign rfl (by decide)) inner
      exact ⟨by rwa [Expr.spares], left.word⟩
    next => nomatch read
  next behind =>
    have inside := quiet.tail_of_isSign rfl (by decide)
    split at read
    next inner =>
      cases read
      obtain ⟨spares, left⟩ := ih.items (by decide) inside inner
      exact ⟨by simpa [sparesAll] using spares, left.word⟩
    next inner =>
      cases read
      obtain ⟨spares, left⟩ := ih.items (by decide) inside inner
      exact ⟨by rwa [Expr.spares], left.word⟩
    next => nomatch read
  next =>
    split at read
    next rich =>
      cases read
      obtain ⟨⟨_, _, rfl⟩, left⟩ := quiet.of_rich? rich
      exact ⟨rfl, left.word⟩
    next =>
      split at read
      next string =>
        cases read
        exact ⟨rfl, (quiet.of_unquote? string).word⟩
      next =>
        split at read
        next number =>
          cases read
          exact ⟨rfl, quiet.of_number? number⟩
        next =>
          split at read
          next => nomatch read
          next name behind word =>
            obtain ⟨⟨_, noCall⟩, left⟩ := quiet.of_word? word
            split at read
            next inner =>
              cases read
              obtain ⟨spares, left⟩ :=
                ih.items (by decide) (left.tail_of_isSign rfl (by decide)) inner
              exact ⟨spares_call (noCall rfl) spares, left.word⟩
            next => nomatch read
          next name behind _ word =>
            obtain ⟨⟨other, _⟩, left⟩ := quiet.of_word? word
            split at read
            · cases read
              exact ⟨rfl, left.word⟩
            · split at read
              · cases read
                exact ⟨rfl, left.word⟩
              · split at read
                · cases read
                  exact ⟨rfl, left.word⟩
                · cases read
                  exact ⟨by simpa [Expr.spares] using other, left.word⟩

theorem items_succ {close : Char} {t rest : Text} {es : List Expr} {comma : Bool}
    (sign : isSign close) (quiet : Quiet looking names .apart t)
    (read : items? (steps + 1) close t = some (es, comma, rest)) :
    sparesAll looking names false es ∧ Quiet looking names .apart rest := by
  have quiet := quiet.skipBlanks true rfl
  rw [items?] at read
  split at read
  next => nomatch read
  next c behind found =>
    rw [found] at quiet
    split at read
    next closed =>
      cases read
      exact ⟨rfl, quiet.tail_of_isSign rfl (closed ▸ sign)⟩
    next =>
      split at read
      next => nomatch read
      next first left inner =>
        obtain ⟨spares, quiet⟩ := ih.expr quiet inner
        have quiet := quiet.skipBlanks true rfl
        have one : sparesAll looking names false [first] := by simp [sparesAll, spares]
        split at read
        next => nomatch read
        next d behind found =>
          rw [found] at quiet
          split at read
          next closed =>
            cases read
            exact ⟨one, quiet.tail_of_isSign rfl (closed ▸ sign)⟩
          next =>
            split at read
            next comma =>
              have quiet := quiet.tail_of_isSign rfl (by rw [comma]; decide)
              split at read
              next more =>
                cases read
                exact ⟨one, (ih.items sign quiet more).2⟩
              next more =>
                cases read
                obtain ⟨others, left⟩ := ih.items sign quiet more
                exact ⟨by simp [sparesAll, spares, others], left⟩
              next => nomatch read
            next => nomatch read

end ReadsQuietly

theorem readsQuietly (looking : Lookers) (names : List Text) (steps : Nat) :
    ReadsQuietly looking names steps := by
  induction steps with
  | zero =>
    constructor
    · intro _ _ _ _ _ read
      rw [expr?] at read
      nomatch read
    · intro _ _ _ _ _ _ _ read
      rw [comparison?] at read
      nomatch read
    · intro _ _ _ _ _ read
      rw [atom?] at read
      nomatch read
    · intro _ _ _ _ _ _ _ read
      rw [items?] at read
      nomatch read
  | succ steps ih => exact ⟨ih.expr_succ, ih.comparison_succ, ih.atom_succ, ih.items_succ⟩

/-! ## Reading quiet statements -/

section Statements

variable {looking : Lookers} {names : List Text} {t rest : Text}

variable (quiet : Quiet looking names .apart t)

include quiet

theorem exprSpares_of_quiet : exprSpares looking names t := by
  unfold exprSpares wholeExpr?
  split
  next e rest read =>
    split
    · exact ((readsQuietly looking names _).expr quiet read).1
    · rfl
  next => rfl

theorem spares_of_readExpr? {e : Expr} (read : readExpr? t = some (e, rest)) :
    e.spares looking names false ∧ Quiet looking names .word rest :=
  (readsQuietly looking names _).expr quiet read

theorem spares_of_headerExpr? : (headerExpr? t).all (Expr.spares looking names false) := by
  unfold headerExpr?
  split
  next read =>
    split
    · exact (spares_of_readExpr? quiet read).1
    · rfl
  next => rfl

theorem spares_of_header? : (header? t).all (Line.spares looking names) := by
  have quiet := quiet.trimLeft rfl
  have inside : ∀ {rest : Text} {line : Expr → Line},
    (∀ e, e.spares looking names false → (line e).spares looking names) →
      Quiet looking names .apart rest →
        ((headerExpr? rest).map line).all (Line.spares looking names) := by
    intro rest line keeps quiet
    have spares := spares_of_headerExpr? quiet
    cases read : headerExpr? rest with
    | none => rfl
    | some e =>
      rw [read] at spares
      exact keeps e spares
  unfold header?
  split
  next word => exact inside (fun _ spares => spares) (quiet.of_word? word).2
  next word => exact inside (fun _ spares => spares) (quiet.of_word? word).2
  next =>
    split <;> rfl
  next word =>
    have quiet := (quiet.of_word? word).2.trimLeft rfl
    split
    next name behind found =>
      obtain ⟨⟨other, _⟩, left⟩ := quiet.of_word? found
      split
      next word =>
        refine inside (fun e spares => ?_) ((left.trimLeft rfl).of_word? word).2
        simp [Line.spares, other, spares]
      next => rfl
    next => rfl
  next => rfl

theorem spares_of_simple? {line : Line} (read : simple? t = some (line, rest)) :
    line.spares looking names ∧ Quiet looking names .word rest := by
  unfold simple? at read
  split at read
  next => nomatch read
  next word =>
    cases read
    exact ⟨rfl, (quiet.of_word? word).2.word⟩
  next name behind _ word =>
    obtain ⟨⟨other, _⟩, left⟩ := quiet.of_word? word
    have left := left.skipBlanks false rfl
    split at read
    next found =>
      rw [found] at left
      split at read
      next value =>
        cases read
        obtain ⟨spares, left⟩ := spares_of_readExpr? (left.tail_of_isSign rfl (by decide)) value
        exact ⟨by simp [Line.spares, other, spares], left⟩
      next => nomatch read
    next => nomatch read

theorem spares_of_simplesFrom? {steps : Nat} :
    (simplesFrom? steps t).all fun lines => lines.all (Line.spares looking names) := by
  induction steps generalizing t with
  | zero => rfl
  | succ steps ih =>
    have quiet := quiet.trimLeft rfl
    rw [simplesFrom?]
    split
    next => rfl
    next =>
      split
      next => rfl
      next line rest first =>
        obtain ⟨spares, left⟩ := spares_of_simple? quiet first
        have left := left.skipBlanks false rfl
        split
        next => simp [spares]
        next found =>
          rw [found] at left
          have others := ih (left.tail_of_isSign rfl (by decide))
          cases more : simplesFrom? steps _ with
          | none => rfl
          | some lines =>
            rw [more] at others
            simpa [spares] using others
        next => rfl

theorem codeSpares_of_quiet : codeSpares looking names t := by
  rw [codeSpares, Bool.and_eq_true]
  exact ⟨spares_of_header? quiet, spares_of_simplesFrom? quiet⟩

end Statements

end Host

end MarkupTemplate
