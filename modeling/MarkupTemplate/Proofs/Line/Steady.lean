import MarkupTemplate.Line.Scan

/-!
# Scans of two lines

A scan is *steady* under a relation between texts if it finds the same in related texts, and leaves
related ones. Steadiness goes through the ways in which scans are put together.
-/

namespace MarkupTemplate

open List

/-- Two results are related, or both are failures. -/
inductive Agree {ε α β : Type} (related : α → β → Prop) : Except ε α → Except ε β → Prop where
  | ok {a : α} {b : β} : related a b → Agree related (.ok a) (.ok b)
  | error (e e' : ε) : Agree related (.error e) (.error e')

theorem Agree.bind {ε α β α' β' : Type} {related : α → β → Prop} {related' : α' → β' → Prop}
    {x : Except ε α} {y : Except ε β} {f : α → Except ε α'} {g : β → Except ε β'}
    (agrees : Agree related x y)
    (each : ∀ a b, x = .ok a → related a b → Agree related' (f a) (g b)) :
    Agree related' (x >>= f) (y >>= g) := by
  cases agrees with
  | ok here => exact each _ _ rfl here
  | error e e' => exact .error e e'

namespace Scan

variable {related : Text → Text → Prop} {α β : Type}

/-- Two scans have found the same and leave related texts, or they have found nothing. -/
inductive Tracks (related : Text → Text → Prop) {α : Type} :
    Option (α × Text) → Option (α × Text) → Prop where
  | none : Tracks related none none
  | some (a : α) {rest rest' : Text} :
    related rest rest' → Tracks related (some (a, rest)) (some (a, rest'))

/-- A scan finds the same in related texts. -/
def Steady (related : Text → Text → Prop) {α : Type} (p : Scan α) : Prop :=
  ∀ t t', related t t' → Tracks related (p t) (p t')

variable {p : Scan α} {q : Scan β} {f : α → β}

theorem andThen_steady (first : Steady related p) (rest : Steady related q) :
    Steady related (andThen p q) := by
  intro t t' here
  have found := first t t' here
  unfold andThen
  generalize p t = here at found
  generalize p t' = there at found
  cases found with
  | none => exact .none
  | @some a left left' here =>
    have behind := rest left left' here
    dsimp only
    generalize q left = here at behind
    generalize q left' = there at behind
    cases behind with
    | none => exact .none
    | some b left => exact .some (a, b) left

theorem map_steady (steady : Steady related p) : Steady related (map f p) := by
  intro t t' here
  have found := steady t t' here
  unfold map
  generalize p t = here at found
  generalize p t' = there at found
  cases found with
  | none => exact .none
  | some a left => exact .some (f a) left

theorem orElse_steady {q : Scan α} (first : Steady related p) (rest : Steady related q) :
    Steady related (orElse p q) := by
  intro t t' related
  have found := first t t' related
  unfold orElse
  generalize p t = here at found
  generalize p t' = there at found
  cases found with
  | none => exact rest t t' related
  | some a left => exact .some a left

theorem findSome_steady {ps : List (Scan α)} (each : ∀ p ∈ ps, Steady related p) :
    Steady related fun t => ps.findSome? (· t) := by
  intro t t' here
  induction ps with
  | nil => exact .none
  | cons p ps ih =>
    have found := each p (.head _) t t' here
    simp only [findSome?_cons]
    generalize p t = here at found
    generalize p t' = there at found
    cases found with
    | none => exact ih fun q mem => each q (.tail _ mem)
    | some a left => exact .some a left

/-! ## What is left -/

/-- A scan leaves an end of the text it was given. -/
def Ends {α : Type} (p : Scan α) : Prop :=
  ∀ t a rest, p t = some (a, rest) → rest <:+ t

theorem exactly_ends (mark : Text) : Ends (exactly mark) := by
  intro t a rest found
  simp only [exactly, Option.map_eq_some_iff, Prod.mk.injEq, true_and] at found
  obtain ⟨_, found, rfl⟩ := found
  induction mark generalizing t with
  | nil =>
    cases found
    exact suffix_refl _
  | cons c mark ih =>
    cases t with
    | nil => cases found
    | cons d t =>
      rw [Text.after?] at found
      split at found
      · exact (ih t found).trans (suffix_cons d t)
      · cases found

theorem run_ends (isMember : Char → Bool) : Ends (run isMember) := by
  intro t a rest found
  unfold run at found
  split at found
  · nomatch found
  · cases found
    exact dropWhile_suffix _

theorem blanks_ends : Ends blanks := by
  intro t a rest found
  cases found
  exact dropWhile_suffix _

theorem andThen_ends (first : Ends p) (rest : Ends q) : Ends (andThen p q) := by
  intro t a left found
  unfold andThen at found
  split at found
  · nomatch found
  · next here =>
    split at found
    · nomatch found
    · next there =>
      cases found
      exact (rest _ _ _ there).trans (first _ _ _ here)

theorem map_ends (ends : Ends p) : Ends (map f p) := by
  intro t a left found
  unfold map at found
  split at found
  · nomatch found
  · next here =>
    cases found
    exact ends _ _ _ here

theorem orElse_ends {q : Scan α} (first : Ends p) (rest : Ends q) : Ends (orElse p q) := by
  intro t a left found
  unfold orElse at found
  split at found
  · exact rest _ _ _ found
  · next here =>
    cases found
    exact first _ _ _ here

end Scan

namespace Spot

variable {related : Text → Text → Prop} {α : Type}

inductive Tracks (related : Text → Text → Prop) {α : Type} :
    Option (α × Spot) → Option (α × Spot) → Prop where
  | none : Tracks related none none
  | some (a : α) {s s' : Spot} :
    related s.rest s'.rest → Tracks related (some (a, s)) (some (a, s'))

variable {p : Scan α} {s s' : Spot} {a : α}

theorem scan?_steady (steady : Scan.Steady related p)
    (cut : ∀ {t t' rest rest'}, related t t' → related rest rest' →
      related (t.drop (t.length - rest.length)) (t'.drop (t'.length - rest'.length)))
    (here : related s.rest s'.rest) : Tracks related (s.scan? p) (s'.scan? p) := by
  have found := steady s.rest s'.rest here
  unfold scan?
  generalize p s.rest = first at found
  generalize p s'.rest = second at found
  cases found with
  | none => exact .none
  | some a left => exact .some a (cut here left)

theorem Tracks.of_some {here there : Option (α × Spot)} (tracks : Tracks related here there)
    (found : here = .some (a, s)) : ∃ s', there = .some (a, s') ∧ related s.rest s'.rest := by
  cases tracks with
  | none => nomatch found
  | some _ left =>
    cases found
    exact ⟨_, rfl, left⟩

theorem Tracks.of_none {here there : Option (α × Spot)} (tracks : Tracks related here there)
    (missing : here = .none) : there = .none := by
  cases tracks with
  | none => rfl
  | some => nomatch missing

theorem exists_of_scan? (found : s.scan? p = some (a, s')) : ∃ rest, p s.rest = some (a, rest) := by
  unfold scan? at found
  split at found
  · nomatch found
  · next rest here =>
    cases found
    exact ⟨rest, here⟩

theorem rest_of_scan? (ends : Scan.Ends p) (found : s.scan? p = some (a, s')) :
    p s.rest = some (a, s'.rest) := by
  unfold scan? at found
  split at found
  · nomatch found
  · next b rest here =>
    cases found
    obtain ⟨front, whole⟩ := ends _ _ _ here
    rw [here, rest_advance, ← whole]
    simp

theorem exists_scan? {rest : Text} (found : p s.rest = some (a, rest)) (left : rest <:+ s.rest) :
    ∃ s', s.scan? p = some (a, s') ∧ s'.rest = rest :=
  ⟨s.advance (s.rest.length - rest.length), by rw [scan?, found], (suffix_iff_eq_drop.mp left).symm⟩

theorem scan?_congr {β : Type} {q : Scan β} {b : β} (found : s.scan? p = some (a, s'))
    (same : ∀ rest, p s.rest = some (a, rest) → q s.rest = some (b, rest)) :
    s.scan? q = some (b, s') := by
  unfold scan? at found ⊢
  split at found
  · nomatch found
  · next here =>
    cases found
    rw [same _ here]

theorem rest_suffix_of_scan? (found : s.scan? p = some (a, s')) : s'.rest <:+ s.rest := by
  unfold scan? at found
  split at found
  · nomatch found
  · cases found
    exact drop_suffix _ _

theorem rest_advance_takeWhile (s : Spot) (p : Char → Bool) :
    (s.advance (s.rest.takeWhile p).length).rest = s.rest.dropWhile p := by
  rw [rest_advance]
  induction s.rest with
  | nil => rfl
  | cons c t ih =>
    rw [takeWhile_cons, dropWhile_cons]
    split
    · exact ih
    · rfl

theorem rest_skipBlanks (s : Spot) : s.skipBlanks.rest = Text.trimLeft s.rest :=
  rest_advance_takeWhile s Text.isBlank

end Spot

end MarkupTemplate
