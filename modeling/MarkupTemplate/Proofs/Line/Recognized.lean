import MarkupTemplate.Line.Scan
import Mathlib.Data.List.TakeWhile

/-!
# What a scan recognises

Each building block of a scan is put as an equivalence with what its text was made of. So the lemmas
serve both to take apart a line that was read and to read one that was written.
-/

namespace MarkupTemplate

open List

namespace Text

variable {p : Char → Bool} {s t : Text}

/-- A text that does not go on with a character of a class. -/
def Stops (p : Char → Bool) (t : Text) : Prop :=
  ∀ c ∈ t.head?, p c = false

@[simp] theorem stops_cons {c : Char} : Stops p (c :: t) ↔ p c = false := by
  simp [Stops]

theorem stops_dropWhile (p : Char → Bool) (t : Text) : Stops p (t.dropWhile p) := by
  intro c first
  have dropped := head?_dropWhile_not p t
  rw [first] at dropped
  simpa using dropped

theorem Stops.append (stops : Stops p s) (after : s = [] → Stops p t) : Stops p (s ++ t) := by
  cases s with
  | nil => exact after rfl
  | cons c s => exact stops

theorem takeWhile_of_stops (stops : Stops p t) : t.takeWhile p = [] := by
  cases t with
  | nil => rfl
  | cons c t => rw [takeWhile_cons, stops_cons.mp stops, if_neg Bool.false_ne_true]

theorem dropWhile_of_stops (stops : Stops p t) : t.dropWhile p = t := by
  cases t with
  | nil => rfl
  | cons c t => rw [dropWhile_cons, stops_cons.mp stops, if_neg Bool.false_ne_true]

theorem takeWhile_append_of_stops (all : ∀ c ∈ s, p c) (stops : Stops p t) :
    (s ++ t).takeWhile p = s := by
  rw [takeWhile_append_of_pos all, takeWhile_of_stops stops, append_nil]

theorem dropWhile_append_of_stops (all : ∀ c ∈ s, p c) (stops : Stops p t) :
    (s ++ t).dropWhile p = t := by
  rw [dropWhile_append_of_pos all, dropWhile_of_stops stops]

theorem after?_eq_some_iff {mark rest : Text} : after? mark t = some rest ↔ t = mark ++ rest := by
  induction mark generalizing t with
  | nil => simp [after?, eq_comm]
  | cons a mark ih =>
    cases t with
    | nil => simp [after?]
    | cons b t =>
      rw [after?]
      split
      · next same => simp [ih, same]
      · next other => simp [Ne.symm other]

end Text

namespace Scan

variable {α β : Type} {p : Scan α} {q : Scan β} {t rest : Text}

theorem exactly_eq_some_iff {mark : Text} {u : Unit} :
    exactly mark t = some (u, rest) ↔ t = mark ++ rest := by
  simp [exactly, Text.after?_eq_some_iff]

theorem run_eq_some_iff {isMember : Char → Bool} {found : Text} :
    run isMember t = some (found, rest) ↔
    t = found ++ rest ∧ found ≠ [] ∧ (∀ c ∈ found, isMember c) ∧ Text.Stops isMember rest := by
  constructor
  · intro taken
    unfold run at taken
    split at taken
    · nomatch taken
    · next filled =>
      cases taken
      exact ⟨takeWhile_append_dropWhile.symm, filled, fun c => mem_takeWhile_imp,
        Text.stops_dropWhile isMember t⟩
  · rintro ⟨rfl, filled, all, stops⟩
    unfold run
    rw [Text.takeWhile_append_of_stops all stops, Text.dropWhile_append_of_stops all stops]
    cases found with
    | nil => exact absurd rfl filled
    | cons c found => rfl

theorem blanks_eq_some_iff {u : Unit} : blanks t = some (u, rest) ↔
    ∃ gap, t = gap ++ rest ∧ Text.allBlank gap ∧ Text.Stops Text.isBlank rest := by
  constructor
  · intro taken
    cases taken
    exact ⟨t.takeWhile Text.isBlank, takeWhile_append_dropWhile.symm, all_takeWhile,
      Text.stops_dropWhile _ t⟩
  · rintro ⟨gap, rfl, blank, stops⟩
    rw [blanks, Text.trimLeft, Text.dropWhile_append_of_stops (all_eq_true.mp blank) stops]

theorem andThen_eq_some_iff {a : α} {b : β} : andThen p q t = some ((a, b), rest) ↔
    ∃ between, p t = some (a, between) ∧ q between = some (b, rest) := by
  unfold andThen
  cases p t with
  | none => simp
  | some first =>
    obtain ⟨a', between⟩ := first
    cases second : q between with
    | none => simp [second]
    | some found =>
      obtain ⟨b', rest'⟩ := found
      simp [second, and_assoc]

theorem map_eq_some_iff {f : α → β} {b : β} :
    map f p t = some (b, rest) ↔ ∃ a, p t = some (a, rest) ∧ f a = b := by
  unfold map
  cases p t with
  | none => simp
  | some found =>
    obtain ⟨a, rest'⟩ := found
    constructor
    · intro same
      cases same
      exact ⟨a, rfl, rfl⟩
    · rintro ⟨_, same, rfl⟩
      cases same
      rfl

end Scan

theorem Spot.scan?_none {α : Type} {p : Scan α} {rest : Text} (number : Nat) (done : Text)
    (absent : p rest = none) : scan? p ⟨number, done, rest⟩ = .none := by
  rw [scan?, absent]

/-- A scan moves over exactly the text that it takes. -/
theorem Spot.scan?_append {α : Type} {p : Scan α} {a : α} {taken rest : Text} (number : Nat)
    (done : Text) (found : p (taken ++ rest) = some (a, rest)) :
    scan? p ⟨number, done, taken ++ rest⟩ = some (a, ⟨number, done ++ taken, rest⟩) := by
  simp [scan?, advance, found]

end MarkupTemplate
