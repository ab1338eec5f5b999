import MarkupTemplate.Line.Mark
import MarkupTemplate.Proofs.Line.Steady

/-!
# Lines that are the same up to a character

Two texts are *apart* if they are the same up to a character in each. A scan that knows neither
character stops in front of them, so it finds the same in both.
-/

namespace MarkupTemplate

open List

/-- Two texts with the same beginning, in front of `c` and `y`, or of `c'` and `y'`. -/
inductive Text.Apart (c c' : Char) (y y' : Text) : Text → Text → Prop where
  | behind (front : Text) : Apart c c' y y' (front ++ c :: y) (front ++ c' :: y')

variable {c c' : Char} {y y' : Text}

namespace Text.Apart

variable {t t' rest rest' : Text}

theorem eq_append {front : Text} (apart : Apart c c' y y' (front ++ c :: y) t') :
    t' = front ++ c' :: y' := by
  generalize whole : front ++ c :: y = t at apart
  obtain ⟨front'⟩ := apart
  rw [append_cancel_right whole]

theorem eq_cons (apart : Apart c c' y y' (c :: y) t') : t' = c' :: y' := by
  rw [← nil_append (c :: y)] at apart
  exact apart.eq_append

theorem cut (apart : Apart c c' y y' t t') (left : Apart c c' y y' rest rest') :
    Apart c c' y y' (t.drop (t.length - rest.length)) (t'.drop (t'.length - rest'.length)) := by
  obtain ⟨front⟩ := apart
  obtain ⟨behind⟩ := left
  have here : (front ++ c :: y).length - (behind ++ c :: y).length = front.length -
      behind.length := by
    simp only [length_append, length_cons]
    omega
  have there : (front ++ c' :: y').length - (behind ++ c' :: y').length = front.length -
      behind.length := by
    simp only [length_append, length_cons]
    omega
  rw [here, there, drop_append_of_le_length (Nat.sub_le ..),
    drop_append_of_le_length (Nat.sub_le ..)]
  exact .behind _

theorem split {p : Char → Bool} (other : p c = false) (other' : p c' = false)
    (apart : Apart c c' y y' t t') :
    t.takeWhile p = t'.takeWhile p ∧ Apart c c' y y' (t.dropWhile p) (t'.dropWhile p) := by
  obtain ⟨front⟩ := apart
  induction front with
  | nil => exact ⟨by simp [other, other'], by simpa [other, other'] using behind []⟩
  | cons d front ih =>
    by_cases mem : p d
    · simpa [mem] using ih
    · simpa [mem] using behind (d :: front)

theorem allBlank_eq (ink : isBlank c = false) (ink' : isBlank c' = false)
    (apart : Apart c c' y y' t t') : allBlank t = false ∧ allBlank t' = false := by
  obtain ⟨front⟩ := apart
  simp [allBlank, ink, ink']

end Text.Apart

open Text (Apart)

namespace Scan

theorem exactly_apart {mark : Text} (other : c ∉ mark) (other' : c' ∉ mark) :
    Steady (Apart c c' y y') (exactly mark) := by
  rintro _ _ ⟨front⟩
  have found : Tracks (Apart c c' y y') (exactly mark (front ++ c :: y))
      (exactly mark (front ++ c' :: y')) := by
    unfold exactly
    induction mark generalizing front with
    | nil => exact .some () (.behind front)
    | cons d mark ih =>
      rw [mem_cons, not_or] at other other'
      cases front with
      | nil => simpa [Text.after?, Ne.symm other.1, Ne.symm other'.1] using Tracks.none
      | cons e front =>
        simp only [cons_append, Text.after?]
        split
        · exact ih other.2 other'.2 front
        · exact .none
  exact found

theorem run_apart {isMember : Char → Bool} (other : isMember c = false)
    (other' : isMember c' = false) : Steady (Apart c c' y y') (run isMember) := by
  intro t t' apart
  obtain ⟨taken, left⟩ := apart.split other other'
  unfold run
  rw [taken]
  split
  · exact .none
  · exact .some _ left

theorem char_apart {isMember : Char → Bool} (other : isMember c = false)
    (other' : isMember c' = false) : Steady (Apart c c' y y') (char isMember) := by
  rintro _ _ ⟨front⟩
  cases front with
  | nil => simpa [char, other, other'] using Tracks.none
  | cons d front =>
    simp only [cons_append, char]
    split
    · exact .some d (.behind front)
    · exact .none

theorem blanks_apart (ink : Text.isBlank c = false) (ink' : Text.isBlank c' = false) :
    Steady (Apart c c' y y') blanks :=
  fun _ _ apart => .some () (apart.split ink ink').2

end Scan

theorem Spot.scan?_apart {α : Type} {p : Scan α} (steady : Scan.Steady (Apart c c' y y') p)
    {s s' : Spot}
    (apart : Apart c c' y y' s.rest s'.rest) : Tracks (Apart c c' y y') (s.scan? p) (s'.scan? p) :=
  scan?_steady steady Text.Apart.cut apart

theorem Spot.advance_apart {p : Char → Bool} (other : p c = false) (other' : p c' = false)
    {s s' : Spot} (apart : Apart c c' y y' s.rest s'.rest) :
    Apart c c' y y' (s.advance (s.rest.takeWhile p).length).rest
      (s'.advance (s'.rest.takeWhile p).length).rest := by
  rw [rest_advance_takeWhile, rest_advance_takeWhile]
  exact (apart.split other other').2

theorem Mark.angles_apart (other : isAngle c = false) (other' : isAngle c' = false) :
    Scan.Steady (Apart c c' y y') angles := by
  rintro _ _ ⟨front⟩
  match front with
  | [] =>
    have absent : ∀ (d : Char) (t : Text), isAngle d = false → angles (d :: t) = none := by
      intro d t other
      cases t with
      | nil | cons e t => simp [angles, other]
    rw [nil_append, nil_append, absent c y other, absent c' y' other']
    exact .none
  | [d] =>
    simp only [cons_append, nil_append, angles, other, other']
    split
    · exact .some [d] (.behind [])
    · exact .none
  | d :: e :: front =>
    simp only [cons_append, angles]
    split
    · split
      · exact .some [d, e] (.behind front)
      · exact .some [d] (.behind (e :: front))
    · exact .none

theorem Indent.widthFrom_of_ink (tab col : Nat) {c : Char} (ink : Text.isBlank c = false)
    (t : Text) : widthFrom tab col (c :: t) = col := by
  rw [widthFrom]
  · rintro u same
    cases same
    exact absurd ink (by decide)
  · rintro u same
    cases same
    exact absurd ink (by decide)

theorem Indent.width_apart (tabSize : Nat) {t t' : Text} (ink : Text.isBlank c = false)
    (ink' : Text.isBlank c' = false)
    (apart : Apart c c' y y' t t') : width tabSize t = width tabSize t' := by
  obtain ⟨front⟩ := apart
  unfold width
  generalize 0 = col
  induction front generalizing col with
  | nil => rw [nil_append, nil_append, widthFrom_of_ink _ _ ink, widthFrom_of_ink _ _ ink']
  | cons d front ih =>
    rw [cons_append, cons_append]
    by_cases space : d = ' '
    · subst space
      exact ih _
    · by_cases tab : d = '\t'
      · subst tab
        exact ih _
      · simp [widthFrom, space, tab]

end MarkupTemplate
