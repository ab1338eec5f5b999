import Mathlib.Algebra.Group.Nat.Defs
import MarkupTemplate.Text.Quoted
import Mathlib.Data.List.Basic

/-!
# Literals read back

A literal spells its text character by character: as the character itself, by a letter behind a
backslash, or by the hexadecimal digits of its number (`spells_quote`). Nothing of this breaks a
line, and each character is read back whatever follows it. So a literal stands for its text
(`unquote?_quote`).
-/

namespace MarkupTemplate.Text

open List

/-! ## Spelling -/

/-- The number that hexadecimal digits stand for, behind those of the number `value`. -/
def hexNumber? (value : Nat) : Text → Option Nat
  | [] => some value
  | c :: digits => (hexValue? c).bind fun d => hexNumber? (16 * value + d) digits

/-- How a character may be written between the quotes `q`. -/
inductive Piece (q : Char) : Char → Text → Prop where
  | itself {c : Char} : c ∉ [q, '\\', '\n', '\r'] → Piece q c [c]
  | letter {c letter : Char} : letterEscape? letter = some c → Piece q c ['\\', letter]
  | number {c letter : Char} {digits : Text} : hexWidth? letter = some digits.length →
    hexNumber? 0 digits = some c.toNat → Piece q c ('\\' :: letter :: digits)

inductive Spells (q : Char) : (written text : Text) → Prop where
  | nil : Spells q [] []
  | cons {c : Char} {piece written text : Text} : Piece q c piece → Spells q written text →
    Spells q (piece ++ written) (c :: text)

variable {q c b : Char} {piece digits written text : Text} {value n : Nat}

/-! ## One line -/

theorem of_isBreak (isBreak : b = '\n' ∨ b = '\r') :
    b ≠ '\\' ∧ letterEscape? b = none ∧ hexWidth? b = none ∧ hexValue? b = none := by
  rcases isBreak with rfl | rfl
  · decide
  · decide

theorem break_not_mem_digits (noDigit : hexValue? b = none)
    (number : hexNumber? value digits = some n) : b ∉ digits := by
  induction digits generalizing value with
  | nil => exact not_mem_nil
  | cons c digits ih =>
    obtain ⟨d, isDigit, rest⟩ := Option.bind_eq_some_iff.mp number
    refine not_mem_cons_of_ne_of_not_mem ?_ (ih rest)
    rintro rfl
    simp [noDigit] at isDigit

theorem Piece.break_not_mem (isBreak : b = '\n' ∨ b = '\r') (piece : Piece q c written) :
    b ∉ written := by
  obtain ⟨noEscape, noLetter, noWidth, noDigit⟩ := of_isBreak isBreak
  cases piece with
  | itself other =>
    rw [mem_singleton]
    rintro rfl
    exact other (by rcases isBreak with rfl | rfl <;> simp)
  | letter isLetter =>
    refine not_mem_cons_of_ne_of_not_mem noEscape fun mem => ?_
    simp [← mem_singleton.mp mem, noLetter] at isLetter
  | number isWidth number =>
    refine not_mem_cons_of_ne_of_not_mem noEscape
      (not_mem_cons_of_ne_of_not_mem ?_ (break_not_mem_digits noDigit number))
    rintro rfl
    simp [noWidth] at isWidth

theorem Spells.break_not_mem (isBreak : b = '\n' ∨ b = '\r') (spells : Spells q written text) :
    b ∉ written := by
  induction spells with
  | nil => exact not_mem_nil
  | cons piece _ ih => exact fun mem => (mem_append.mp mem).elim (piece.break_not_mem isBreak) ih

/-! ## Writing -/

theorem length_hex (width n : Nat) : (hex width n).length = width := by
  induction width generalizing n with
  | zero => rfl
  | succ width ih => rw [hex, length_append, ih, length_singleton]

theorem hexValue?_hexDigit (n : Nat) : hexValue? (hexDigit n) = some (n % 16) := by
  have digits : ∀ d < 16, hexValue? (Nat.digitChar d) = some d := by decide
  exact digits _ (Nat.mod_lt n (by decide))

theorem hexNumber?_append (value : Nat) (digits digits' : Text) :
    hexNumber? value (digits ++ digits') = (hexNumber? value digits).bind
      (hexNumber? · digits') := by
  induction digits generalizing value with
  | nil => rfl
  | cons c digits ih => simp [hexNumber?, Option.bind_assoc, ih]

theorem hexNumber?_hex (width n : Nat) : hexNumber? 0 (hex width n) = some (n % 16 ^ width) := by
  induction width generalizing n with
  | zero => rw [Nat.pow_zero, Nat.mod_one]; rfl
  | succ width ih =>
    have place : 16 * (n / 16 % 16 ^ width) + n % 16 = n % 16 ^ (width + 1) := by
      rw [Nat.pow_succ', Nat.mod_mul]
      omega
    rw [hex, hexNumber?_append, ih, ← place]
    simp [hexNumber?, hexValue?_hexDigit]

theorem piece_hex (q : Char) {width : Nat} {letter : Char} (isWidth : hexWidth? letter = some width)
    (small : c.toNat < 16 ^ width) : Piece q c (['\\', letter] ++ hex width c.toNat) := by
  have number := hexNumber?_hex width c.toNat
  rw [Nat.mod_eq_of_lt small] at number
  exact .number (isWidth.trans (congrArg some (length_hex ..).symm)) number

theorem piece_quoteChar (isQuote : q = '\'' ∨ q = '"') (c : Char) : Piece q c (quoteChar q c) := by
  unfold quoteChar
  split
  next special =>
    have letter : letterEscape? c = some c := by
      rw [Bool.or_eq_true, decide_eq_true_iff, decide_eq_true_iff] at special
      rcases special with rfl | rfl
      · rcases isQuote with rfl | rfl
        · rfl
        · rfl
      · rfl
    exact .letter letter
  next plain =>
    rw [Bool.not_eq_true, Bool.or_eq_false_iff, decide_eq_false_iff_not,
      decide_eq_false_iff_not] at plain
    split
    next same => exact same ▸ .letter rfl
    next noFeed =>
      split
      next same => exact same ▸ .letter rfl
      next noReturn =>
        split
        next same => exact same ▸ .letter rfl
        next =>
          split
          · exact .itself (by simpa using ⟨plain.1, plain.2, noFeed, noReturn⟩)
          · split
            next small => exact piece_hex q rfl small
            next =>
              split
              next small => exact piece_hex q rfl small
              next => exact piece_hex q rfl c.val.toNat_lt

theorem quoteFor_cases (text : Text) : quoteFor text = '\'' ∨ quoteFor text = '"' := by
  unfold quoteFor
  split
  · exact .inr rfl
  · exact .inl rfl

theorem spells_quote (text : Text) :
    ∃ q written, (q = '\'' ∨ q = '"') ∧ quote text = q :: written ++ [q] ∧
    Spells q written text := by
  have isQuote := quoteFor_cases text
  have inside (t : Text) : Spells (quoteFor text) (t.flatMap (quoteChar (quoteFor text))) t := by
    induction t with
    | nil => exact .nil
    | cons c t ih => exact .cons (piece_quoteChar isQuote c) ih
  exact ⟨quoteFor text, _, isQuote, rfl, inside text⟩

theorem break_not_mem_quote (isBreak : b = '\n' ∨ b = '\r') (text : Text) : b ∉ quote text := by
  obtain ⟨q, written, isQuote, whole, spells⟩ := spells_quote text
  have other : b ≠ q := by
    rcases isBreak, isQuote with ⟨rfl | rfl, rfl | rfl⟩
    all_goals decide
  rw [whole]
  simp [other, spells.break_not_mem isBreak]

/-! ## Reading -/

variable {state state' : LiteralState}

theorem unquoteFrom?_next {settled : Text} (step : state.step q c = .next state' settled)
    (t : Text) : unquoteFrom? q state (c :: t) =
      (unquoteFrom? q state' t).map fun (text, rest) => (settled ++ text, rest) := by
  rw [unquoteFrom?, step]

theorem unquoteFrom?_skip (step : state.step q c = .next state' []) (t : Text) :
    unquoteFrom? q state (c :: t) = unquoteFrom? q state' t := by
  rw [unquoteFrom?_next step]
  exact Option.map_id'

theorem unquoteFrom?_digits (filled : digits ≠ []) (number : hexNumber? value digits = some c.toNat)
    (t : Text) : unquoteFrom? q (.digits digits.length value) (digits ++ t) =
      (unquoteFrom? q .plain t).map fun (text, rest) => (c :: text, rest) := by
  induction digits generalizing value with
  | nil => exact absurd rfl filled
  | cons digit digits ih =>
    obtain ⟨d, isDigit, number⟩ := Option.bind_eq_some_iff.mp number
    rw [cons_append]
    cases digits with
    | nil =>
      have last : 16 * value + d = c.toNat := Option.some.inj number
      have valid : c.toNat.isValidChar := c.valid
      have step : LiteralState.step q (.digits 1 value) digit = .next .plain [c] := by
        simp only [LiteralState.step, digitStep, isDigit, last, Nat.lt_irrefl, if_false,
          if_pos valid, Char.ofNat_toNat]
      exact unquoteFrom?_next step t
    | cons next digits =>
      have step : LiteralState.step q (.digits (next :: digits).length.succ value) digit =
          .next (.digits (next :: digits).length (16 * value + d)) [] := by
        rw [LiteralState.step, digitStep, isDigit]
        exact if_pos (by simp)
      exact (unquoteFrom?_skip step _).trans (ih nofun number)

theorem Piece.read (isQuote : q = '\'' ∨ q = '"') (piece : Piece q c written) (t : Text) :
    unquoteFrom? q .plain (written ++ t) =
      (unquoteFrom? q .plain t).map fun (text, rest) => (c :: text, rest) := by
  have escape : LiteralState.step q .plain '\\' = .next .escape [] := by
    rcases isQuote with rfl | rfl
    · rfl
    · rfl
  cases piece with
  | itself other =>
    simp only [mem_cons, not_or] at other
    have step : LiteralState.step q .plain c = .next .plain [c] := by
      rw [LiteralState.step, plainStep, if_neg other.1, if_neg other.2.1, if_neg other.2.2.1]
    exact unquoteFrom?_next step t
  | @letter letter isLetter =>
    have step : LiteralState.step q .escape letter = .next .plain [c] := by
      rw [LiteralState.step, escapeStep, isLetter]
    exact (unquoteFrom?_skip escape _).trans (unquoteFrom?_next step t)
  | @number letter digits isWidth number =>
    have noLetter : letterEscape? letter = none ∧ digits ≠ [] := by
      unfold hexWidth? at isWidth
      split at isWidth
      case h_4 => nomatch isWidth
      all_goals exact ⟨rfl, fun empty => nomatch empty ▸ isWidth⟩
    have step : LiteralState.step q .escape letter = .next (.digits digits.length 0) [] := by
      rw [LiteralState.step, escapeStep, noLetter.1, isWidth]
    refine (unquoteFrom?_skip escape _).trans ((unquoteFrom?_skip step _).trans ?_)
    exact unquoteFrom?_digits noLetter.2 number t

theorem Spells.read (isQuote : q = '\'' ∨ q = '"') (spells : Spells q written text) (rest : Text) :
    unquoteFrom? q .plain (written ++ q :: rest) = some (text, rest) := by
  induction spells with
  | nil =>
    have step : LiteralState.step q .plain q = .close [] := if_pos rfl
    rw [nil_append, unquoteFrom?, step]
  | cons piece _ ih =>
    rw [append_assoc, piece.read isQuote, ih]
    rfl

theorem unquote?_quote (text rest : Text) : unquote? (quote text ++ rest) = some (text, rest) := by
  obtain ⟨q, written, isQuote, whole, spells⟩ := spells_quote text
  rw [whole, append_assoc, singleton_append, cons_append, unquote?, if_pos (by simpa using isQuote)]
  exact spells.read isQuote rest

/-! ## Texts on one line -/

theorem feed_not_mem_ofNat (n : Nat) : '\n' ∉ ofNat n := by
  intro feed
  have digit := Nat.isDigit_of_mem_toDigits (by decide) (by decide) feed
  exact absurd digit (by decide)

theorem feed_not_mem_quote (t : Text) : '\n' ∉ quote t :=
  break_not_mem_quote (.inl rfl) t

theorem feed_not_mem_append {s t : Text} (first : '\n' ∉ s) (rest : '\n' ∉ t) : '\n' ∉ s ++ t := by
  intro feed
  cases List.mem_append.mp feed with
  | inl feed => exact first feed
  | inr feed => exact rest feed

theorem feed_not_mem_joinWith {sep : Text} {parts : List Text} (plain : '\n' ∉ sep)
    (each : ∀ part ∈ parts, '\n' ∉ part) : '\n' ∉ joinWith sep parts := by
  fun_induction joinWith sep parts with
  | case1 => exact fun feed => nomatch feed
  | case2 part => exact each part (List.mem_singleton_self _)
  | case3 part parts _ ih =>
    refine feed_not_mem_append (feed_not_mem_append ?_ plain) ?_
    · exact each part (.head _)
    · exact ih fun p mem => each p (.tail _ mem)

end MarkupTemplate.Text
