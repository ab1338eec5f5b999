import MarkupTemplate.Line.Spot

/-!
# Building blocks of scans

Marks are recognised by a few building blocks: a fixed text, a longest run of characters of a
class, and blanks that may stand between two parts. Each block that takes something leaves less
than it was given, which is what ends the loops that repeat a scan.
-/

namespace MarkupTemplate.Scan

/-- Recognises a fixed text. -/
def exactly (mark : Text) : Scan Unit := fun t =>
  (Text.after? mark t).map fun rest => ((), rest)

/-- Recognises a longest run of characters of a class, which must not be empty. -/
def run (isMember : Char → Bool) : Scan Text := fun t =>
  match t.takeWhile isMember with
  | [] => none
  | found => some (found, t.dropWhile isMember)

/-- Recognises a character of a class. -/
def char (isMember : Char → Bool) : Scan Char
  | [] => none
  | c :: t => if isMember c then some (c, t) else none

/-- One scan after another. -/
def andThen {α β : Type} (p : Scan α) (q : Scan β) : Scan (α × β) := fun t =>
  match p t with
  | none => none
  | some (a, rest) =>
    match q rest with
    | none => none
    | some (b, rest') => some ((a, b), rest')

/-- A scan with another answer. -/
def map {α β : Type} (f : α → β) (p : Scan α) : Scan β := fun t =>
  match p t with
  | none => none
  | some (a, rest) => some (f a, rest)

/-- Recognises any number of blanks. -/
def blanks : Scan Unit := fun t =>
  some ((), Text.trimLeft t)

/-- Recognises blanks up to the end. -/
def blankEnd : Scan Unit := fun t =>
  if Text.allBlank t then some ((), []) else none

/-- A scan, or another if it fails. -/
def orElse {α : Type} (p q : Scan α) : Scan α := fun t =>
  match p t with
  | none => q t
  | some found => some found

/-! ## What a scan leaves -/

/-- Whether a scan always takes something. -/
def Shortens {α : Type} (p : Scan α) : Prop :=
  ∀ t a r, p t = some (a, r) → r.length < t.length

/-- Whether a scan never adds anything. -/
def Keeps {α : Type} (p : Scan α) : Prop :=
  ∀ t a r, p t = some (a, r) → r.length ≤ t.length

theorem Shortens.keeps {α : Type} {p : Scan α} (h : Shortens p) : Keeps p :=
  fun t a r e => Nat.le_of_lt (h t a r e)

theorem length_of_after? : ∀ {mark t r : Text}, Text.after? mark t = some r →
    t.length = mark.length + r.length
  | [], _, _, h => by simp_all [Text.after?]
  | _ :: _, [], _, h => by simp [Text.after?] at h
  | a :: mark, b :: t, r, h => by
      simp only [Text.after?] at h
      split at h
      · have := length_of_after? h
        simp only [List.length_cons]
        omega
      · nomatch h

theorem exactly_shortens {mark : Text} (h : mark ≠ []) : Shortens (exactly mark) := by
  intro t a r e
  simp only [exactly, Option.map_eq_some_iff, Prod.mk.injEq, true_and] at e
  obtain ⟨_, h1, rfl⟩ := e
  have := length_of_after? h1
  have := List.length_pos_iff.mpr h
  omega

theorem exactly_keeps (mark : Text) : Keeps (exactly mark) := by
  intro t a r e
  simp only [exactly, Option.map_eq_some_iff, Prod.mk.injEq, true_and] at e
  obtain ⟨_, h1, rfl⟩ := e
  have := length_of_after? h1
  omega

theorem run_shortens (isMember : Char → Bool) : Shortens (run isMember) := by
  intro t a r e
  unfold run at e
  split at e
  · nomatch e
  · next found hne =>
    simp only [Option.some.injEq, Prod.mk.injEq] at e
    obtain ⟨rfl, rfl⟩ := e
    have h := congrArg List.length (List.takeWhile_append_dropWhile (p := isMember) (l := t))
    have := List.length_pos_iff.mpr (fun h => hne h)
    simp only [List.length_append] at h
    omega

theorem char_shortens (isMember : Char → Bool) : Shortens (char isMember) := by
  intro t a r e
  cases t with
  | nil => nomatch e
  | cons c t =>
    simp only [char] at e
    split at e
    · simp only [Option.some.injEq, Prod.mk.injEq] at e
      obtain ⟨_, rfl⟩ := e
      simp
    · nomatch e

theorem blanks_keeps : Keeps blanks := by
  intro t a r e
  simp only [blanks, Option.some.injEq, Prod.mk.injEq, true_and] at e
  subst e
  exact (List.dropWhile_suffix Text.isBlank).length_le

theorem exists_of_andThen {α β : Type} {p : Scan α} {q : Scan β} {t r : Text} {found : α × β}
    (e : andThen p q t = some (found, r)) :
    ∃ a rest b, p t = some (a, rest) ∧ q rest = some (b, r) := by
  unfold andThen at e
  split at e
  · nomatch e
  · next a rest h1 =>
    split at e
    · nomatch e
    · next b rest' h2 =>
      simp only [Option.some.injEq, Prod.mk.injEq] at e
      obtain ⟨_, rfl⟩ := e
      exact ⟨a, rest, b, h1, h2⟩

theorem andThen_shortens {α β : Type} {p : Scan α} {q : Scan β} (hp : Shortens p)
    (hq : Keeps q) : Shortens (andThen p q) := by
  intro t a r e
  obtain ⟨_, _, _, h1, h2⟩ := exists_of_andThen e
  exact Nat.lt_of_le_of_lt (hq _ _ _ h2) (hp _ _ _ h1)

theorem andThen_keeps {α β : Type} {p : Scan α} {q : Scan β} (hp : Keeps p)
    (hq : Keeps q) : Keeps (andThen p q) := by
  intro t a r e
  obtain ⟨_, _, _, h1, h2⟩ := exists_of_andThen e
  exact Nat.le_trans (hq _ _ _ h2) (hp _ _ _ h1)

theorem exists_of_map {α β : Type} {f : α → β} {p : Scan α} {t r : Text} {found : β}
    (e : map f p t = some (found, r)) : ∃ a, p t = some (a, r) := by
  unfold map at e
  split at e
  · nomatch e
  · next a rest h1 =>
    simp only [Option.some.injEq, Prod.mk.injEq] at e
    obtain ⟨_, rfl⟩ := e
    exact ⟨a, h1⟩

theorem map_shortens {α β : Type} {f : α → β} {p : Scan α} (hp : Shortens p) :
    Shortens (map f p) := by
  intro t a r e
  obtain ⟨_, h1⟩ := exists_of_map e
  exact hp _ _ _ h1

theorem map_keeps {α β : Type} {f : α → β} {p : Scan α} (hp : Keeps p) : Keeps (map f p) := by
  intro t a r e
  obtain ⟨_, h1⟩ := exists_of_map e
  exact hp _ _ _ h1

end MarkupTemplate.Scan
