import MarkupTemplate.Text.Basic

/-!
# Interpolated text

A text may hold code between `#` with an opening brace and the closing brace that balances it;
nothing else about the code is looked at. A backslash in front of the opening sign makes it literal,
and two backslashes stand for one.

`segments?` takes a text apart into literal parts and codes. It fails exactly when some code is not
closed, and `unclosed?` then tells where the first such code starts.
-/

namespace MarkupTemplate.Interpolation

/-- A part of a text. -/
inductive Segment where
  | literal (text : Text)
  | code (text : Text)
deriving DecidableEq, Repr

/-- Reads code up to the brace that closes the outermost of `depth + 1`, and what follows it. -/
def expression? : (depth : Nat) → Text → Option (Text × Text)
  | _, [] => none
  | depth, c :: t =>
    if c = '\x7b' then (expression? (depth + 1) t).map fun (code, rest) => (c :: code, rest)
    else if c = '\x7d' then
      match depth with
      | 0 => some ([], t)
      | depth + 1 => (expression? depth t).map fun (code, rest) => (c :: code, rest)
    else (expression? depth t).map fun (code, rest) => (c :: code, rest)

theorem length_of_expression? : ∀ {depth : Nat} {t code rest : Text},
    expression? depth t = some (code, rest) → rest.length < t.length
  | _, [], _, _, h => by simp [expression?] at h
  | depth, c :: t, code, rest, h => by
      have step : ∀ {d : Nat} {code' : Text},
          (expression? d t).map (fun p => (c :: p.1, p.2)) = some (code', rest) →
            rest.length < (c :: t).length := by
        intro d code' e
        simp only [Option.map_eq_some_iff, Prod.mk.injEq, Prod.exists] at e
        obtain ⟨_, _, e, _, rfl⟩ := e
        have := length_of_expression? e
        simp only [List.length_cons]
        omega
      unfold expression? at h
      split at h
      · exact step h
      · split at h
        · split at h
          · simp only [Option.some.injEq, Prod.mk.injEq] at h
            obtain ⟨_, rfl⟩ := h
            simp
          · exact step h
        · exact step h

/-- Adds literal text in front of segments; neighbouring literal texts form one segment. -/
def consText (text : Text) : List Segment → List Segment
  | .literal more :: segments => .literal (text ++ more) :: segments
  | segments => .literal text :: segments

/-- Whether a character stands for itself wherever it stands. -/
def isPlain (c : Char) : Bool :=
  c != '#' && c != '\\'

/-- Takes a text apart. A sign that begins neither code nor an escape stands for itself, and so does
a run of plain characters, which is taken at once. -/
def segments? (t : Text) : Option (List Segment) :=
  match t with
  | [] => some []
  | '\\' :: '#' :: '\x7b' :: t => (segments? t).map (consText "#\x7b")
  | '\\' :: '\\' :: t => (segments? t).map (consText "\\")
  | '#' :: '\x7b' :: t =>
    match _closed : expression? 0 t with
    | none => none
    | some (code, rest) => (segments? rest).map (.code code :: ·)
  | c :: t =>
    if isPlain c then
      (segments? (t.dropWhile isPlain)).map (consText (c :: t.takeWhile isPlain))
    else (segments? t).map (consText [c])
termination_by t.length
decreasing_by
  · simp only [List.length_cons]; omega
  · simp only [List.length_cons]; omega
  · have := length_of_expression? _closed
    simp only [List.length_cons]; omega
  · exact Nat.lt_succ_of_le (List.dropWhile_suffix _).length_le
  · simp

theorem segments?_nil : segments? [] = some [] := by
  rw [segments?]

/-- Where the first code of a text starts that is not closed. -/
def unclosed? (t : Text) : Option Nat :=
  match t with
  | [] => none
  | '\\' :: '#' :: '\x7b' :: t => (unclosed? t).map (· + 3)
  | '\\' :: '\\' :: t => (unclosed? t).map (· + 2)
  | '#' :: '\x7b' :: t =>
    match _closed : expression? 0 t with
    | none => some 0
    | some (_, rest) => (unclosed? rest).map (· + (2 + t.length - rest.length))
  | _ :: t => (unclosed? t).map (· + 1)
termination_by t.length
decreasing_by
  · simp only [List.length_cons]; omega
  · simp only [List.length_cons]; omega
  · have := length_of_expression? _closed
    simp only [List.length_cons]; omega
  · simp

theorem unclosed?_code (t : Text) :
    unclosed? ('#' :: '\x7b' :: t) =
      match expression? 0 t with
      | none => some 0
      | some (_, rest) => (unclosed? rest).map (· + (2 + t.length - rest.length)) := by
  rw [unclosed?]
  split
  next unclosed => rw [unclosed]
  next code rest closed => rw [closed]

/-- What is inside code between braces of its own, which is put out without escaping. -/
def unescaped? : Text → Option Text
  | '\x7b' :: t => if Text.endsWith '\x7d' t then some t.dropLast else none
  | _ => none

end MarkupTemplate.Interpolation
