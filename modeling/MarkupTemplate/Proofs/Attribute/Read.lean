import Mathlib.Data.List.TakeWhile
import MarkupTemplate.Attribute.List

/-!
# What reading attributes gives

An entry of an attribute list, or a shortcut, becomes a node of one of three forms (`IsEntry`). Its
texts come from a single line each, so they hold no line feed.
-/

namespace MarkupTemplate

open List

/-! ## Parts of a line -/

namespace Text

theorem trimLeft_subset (t : Text) : trimLeft t ⊆ t :=
  (dropWhile_suffix isBlank).subset

theorem trimRight_subset (t : Text) : trimRight t ⊆ t := by
  induction t with
  | nil => exact Subset.refl _
  | cons c t ih =>
    rw [trimRight]
    split
    next =>
      split
      · exact nil_subset _
      · exact cons_subset_cons c (nil_subset t)
    next => exact cons_subset_cons c ih

theorem trim_subset (t : Text) : trim t ⊆ t :=
  Subset.trans (trimRight_subset _) (trimLeft_subset t)

@[simp] theorem trimRight_trimRight (t : Text) : trimRight (trimRight t) = trimRight t := by
  induction t with
  | nil => rfl
  | cons c t ih =>
    cases rest : trimRight t with
    | nil =>
      simp only [trimRight, rest]
      split
      · rfl
      next ink => simp [trimRight, ink]
    | cons d u =>
      rw [rest] at ih
      simp only [trimRight, rest]
      simp only [trimRight] at ih
      rw [ih]

theorem trimRight_append_of_ne_nil (s : Text) {t : Text} (ink : trimRight t ≠ []) :
    trimRight (s ++ t) = s ++ trimRight t := by
  induction s with
  | nil => rfl
  | cons c s ih =>
    rw [cons_append, trimRight, ih]
    split
    next empty => exact absurd (append_eq_nil_iff.mp empty).2 ink
    next => rfl

theorem trimLeft_of_allBlank {t : Text} (blank : allBlank t) : trimLeft t = [] :=
  List.dropWhile_eq_nil_iff.mpr (List.all_eq_true.mp blank)

theorem allBlank_trimLeft (t : Text) : allBlank (trimLeft t) = allBlank t := by
  induction t with
  | nil => rfl
  | cons c t ih =>
    rw [trimLeft, List.dropWhile_cons]
    split
    next blank => simpa [allBlank, trimLeft, blank] using ih
    next => rfl

theorem cons_of_snoc {t u : Text} {c d : Char} (other : c ≠ d) (same : t ++ [d] = c :: u) :
    ∃ t', t = c :: t' ∧ t' ++ [d] = u := by
  cases t with
  | nil =>
    cases same
    exact absurd rfl other
  | cons e t =>
    cases same
    exact ⟨t, rfl, rfl⟩

theorem trimRight_append_of_eq_nil (s : Text) {t : Text} (blank : trimRight t = []) :
    trimRight (s ++ t) = trimRight s := by
  induction s with
  | nil => exact blank
  | cons c s ih => rw [cons_append, trimRight, ih, trimRight]

theorem trim_eq_trimRight (t : Text) : trimRight (trim t) = trim t :=
  trimRight_trimRight _

end Text

namespace Spot

theorem rest_advance_subset (s : Spot) (n : Nat) : (s.advance n).rest ⊆ s.rest :=
  (drop_suffix n s.rest).subset

theorem rest_skipBlanks_subset (s : Spot) : s.skipBlanks.rest ⊆ s.rest :=
  rest_advance_subset s _

theorem rest_scan?_subset {α : Type} {p : Scan α} {s s' : Spot} {found : α}
    (scanned : s.scan? p = some (found, s')) : s'.rest ⊆ s.rest := by
  unfold scan? at scanned
  split at scanned
  next => nomatch scanned
  next =>
    cases scanned
    exact rest_advance_subset s _

theorem isSome_scan? {α : Type} (p : Scan α) (s : Spot) :
    (s.scan? p).isSome = (p s.rest).isSome := by
  unfold scan?
  split
  next absent => rw [absent]; rfl
  next found => rw [found]; rfl

end Spot

namespace Attribute

variable {quote : Char} {t text rest name : Text} {depth : Nat} {isTerminator : Char → Bool}
  {state : CodeState}
  {s s' : Spot} {form : ListForm} {entry : Node} {entries : List Node} {reading : Reading}

theorem append_of_map (front : Text) {found? : Option (Text × Text)}
    (inner : ∀ text rest, found? = some (text, rest) → text ++ quote :: rest = t)
    (read : found?.map (fun (text, rest) => (front ++ text, rest)) = some (text, rest)) :
    text ++ quote :: rest = front ++ t := by
  cases found? with
  | none => nomatch read
  | some found =>
    cases read
    rw [append_assoc, inner _ _ rfl]

theorem quoted?_append (read : quoted? quote depth t = some (text, rest)) :
    text ++ quote :: rest = t := by
  fun_induction quoted? quote depth t generalizing text rest with
  | case1 => nomatch read
  | case2 depth c t ih => exact append_of_map ['\\', c] (fun _ _ found => ih found) read
  | case3 t ih => exact append_of_map ['#', '\x7b'] (fun _ _ found => ih found) read
  | case4 t =>
    cases read
    rfl
  | case5 c t _ _ _ ih => exact append_of_map [c] (fun _ _ found => ih found) read
  | case6 depth c t =>
    rename_i ih
    exact append_of_map [c] (fun _ _ found => ih found) read

theorem quoted?_subset (read : quoted? quote depth t = some (text, rest)) : text ⊆ t := by
  rw [← quoted?_append read]
  exact subset_append_left text _

theorem exists_of_map {ε α β : Type} {f : α → β} {x : Except ε α} {b : β} (same : x.map f = .ok b) :
    ∃ a, x = .ok a ∧ f a = b := by
  cases x with
  | error e => nomatch same
  | ok a => exact ⟨a, rfl, Except.ok.inj same⟩

theorem code_append (read : code isTerminator state t = .ok (text, rest)) : text ++ rest = t := by
  induction t generalizing state text with
  | nil =>
    rw [code] at read
    split at read
    · nomatch read
    · cases read
      rfl
  | cons c t ih =>
    rw [code] at read
    split at read
    · cases read
      rfl
    · obtain ⟨_, inner, same⟩ := exists_of_map read
      cases same
      exact congrArg (c :: ·) (ih inner)

theorem code_subset (read : code isTerminator state t = .ok (text, rest)) : text ⊆ t := by
  rw [← code_append read]
  exact subset_append_left text rest

theorem isQuote_of_anyQuote (found : anyQuote t = some (quote, rest)) :
    quote = '"' ∨ quote = '\'' := by
  unfold anyQuote Scan.char at found
  split at found
  · nomatch found
  · split at found
    · next isQuote =>
      cases found
      simpa using isQuote
    · nomatch found

theorem isQuote_of_assignedQuote (found : assignedQuote t = some ((name, quote), rest)) :
    quote = '"' ∨ quote = '\'' := by
  unfold assignedQuote Scan.andThen at found
  split at found
  · nomatch found
  · split at found
    · nomatch found
    · next there =>
      cases found
      exact isQuote_of_anyQuote there

/-! ## Entries -/

/-- A text that has been read up to its closing quote. -/
def WasQuoted (text : Text) : Prop :=
  ∃ quote t rest, quoted? quote 0 t = some (text, rest)

/-- A code that has been read up to a place outside of brackets and quotes. -/
def WasCode (text : Text) : Prop :=
  ∃ isTerminator t whole rest, code isTerminator {} t = .ok (whole, rest) ∧ text = Text.trim whole

/-- An attribute entry that can be read from a line. -/
inductive IsEntry : Node → Prop where
  | text {name text : Text} : '\n' ∉ text → WasQuoted text → IsEntry (textEntry name text)
  | code {name code : Text} : '\n' ∉ code → WasCode code → IsEntry (codeEntry name code)
  | shortcut (sign : Char) (name : Text) : IsEntry (shortcutEntry sign name)

/-- A reading whose entries can be read from lines, up to a place without line feeds behind it. -/
def Reading.Good : Reading → Prop
  | .complete entries spot => (∀ e ∈ entries, IsEntry e) ∧ '\n' ∉ spot.rest
  | .continues _ entries _ => ∀ e ∈ entries, IsEntry e

theorem readQuoted_subset (read : readQuoted quote s = .ok (text, s')) :
    text ⊆ s.rest ∧ s'.rest ⊆ s.rest := by
  unfold readQuoted at read
  split at read
  next => nomatch read
  next found scanned =>
    cases read
    refine ⟨?_, Spot.rest_scan?_subset scanned⟩
    unfold Spot.scan? at scanned
    split at scanned
    next => nomatch scanned
    next quoted =>
      cases scanned
      exact quoted?_subset quoted

theorem wasQuoted_of_readQuoted (read : readQuoted quote s = .ok (text, s')) : WasQuoted text := by
  unfold readQuoted Spot.scan? at read
  cases found : quoted? quote 0 s.rest with
  | none =>
    rw [found] at read
    nomatch read
  | some parts =>
    rw [found] at read
    cases read
    exact ⟨quote, s.rest, parts.2, found⟩

theorem readCode_subset (read : readCode form s = .ok (text, s')) :
    text ⊆ s.rest ∧ s'.rest ⊆ s.rest := by
  unfold readCode at read
  split at read
  next => nomatch read
  next whole _ found =>
    cases read
    exact ⟨Subset.trans (Text.trim_subset whole) (code_subset found),
      Spot.rest_advance_subset s _⟩

theorem wasCode_of_readCode (read : readCode form s = .ok (text, s')) : WasCode text := by
  unfold readCode at read
  split at read
  next => nomatch read
  next whole rest found =>
    cases read
    exact ⟨form.isTerminator, s.rest, whole, rest, found, rfl⟩

theorem wasCode_true : WasCode "True" :=
  ⟨fun _ => false, "True", "True", [], by decide, by decide⟩

theorem isEntry_of_readEntry (plain : '\n' ∉ s.rest) (read : readEntry form s = .ok (entry, s')) :
    IsEntry entry ∧ s'.rest ⊆ s.rest := by
  cases readsEntry_of_ok read with
  | text scanned quoted =>
    have first := Spot.rest_scan?_subset scanned
    obtain ⟨text, rest⟩ := readQuoted_subset quoted
    exact ⟨.text (fun feed => plain (first (text feed))) (wasQuoted_of_readQuoted quoted),
      Subset.trans rest first⟩
  | code _ scanned coded | hostCode scanned _ coded =>
    have first := Spot.rest_scan?_subset scanned
    obtain ⟨text, rest⟩ := readCode_subset coded
    exact ⟨.code (fun feed => plain (first (text feed))) (wasCode_of_readCode coded),
      Subset.trans rest first⟩
  | alone _ _ scanned => exact ⟨.code (by decide) wasCode_true, Spot.rest_scan?_subset scanned⟩
  | hostText named scanned quoted ended =>
    have first := Subset.trans (Spot.rest_scan?_subset scanned) (Spot.rest_scan?_subset named)
    obtain ⟨text, rest⟩ := readQuoted_subset quoted
    exact ⟨.text (fun feed => plain (first (text feed))) (wasQuoted_of_readQuoted quoted),
      Subset.trans (Spot.rest_scan?_subset ended) (Subset.trans rest first)⟩

theorem forall_mem_snoc (known : ∀ e ∈ entries, IsEntry e) (isEntry : IsEntry entry) :
    ∀ e ∈ entries ++ [entry], IsEntry e := by
  intro e mem
  rw [mem_append, mem_singleton] at mem
  rcases mem with before | rfl
  · exact known e before
  · exact isEntry

theorem good_of_readEntries (plain : '\n' ∉ s.rest) (known : ∀ e ∈ entries, IsEntry e)
    (read : readEntries form entries s = .ok reading) : reading.Good := by
  fun_induction readEntries form entries s with
  | case1 entries s ended =>
    cases read
    exact known
  | case2 entries s more found after closed =>
    cases read
    exact ⟨known, fun feed =>
      plain (Spot.rest_advance_subset s _ (Spot.rest_scan?_subset closed feed))⟩
  | case3 => nomatch read
  | case4 entries s more closed entry after found ih =>
    obtain ⟨isEntry, rest⟩ := isEntry_of_readEntry
      (fun feed => plain (Spot.rest_advance_subset s _ feed)) found
    exact ih (fun feed => plain (Spot.rest_advance_subset s _ (rest feed)))
      (forall_mem_snoc known isEntry) read

theorem good_of_resume {number : Nat} {line : Text} (plain : '\n' ∉ line)
    (known : ∀ e ∈ entries, IsEntry e)
    (read : resume form entries number line = .ok reading) : reading.Good :=
  good_of_readEntries (fun feed => plain (Spot.rest_skipBlanks_subset _ feed)) known read

theorem readShortcuts_good (entries : List Node) (s : Spot) (known : ∀ e ∈ entries, IsEntry e) :
    (∀ e ∈ (readShortcuts entries s).1, IsEntry e) ∧ (readShortcuts entries s).2.rest ⊆ s.rest := by
  fun_induction readShortcuts entries s with
  | case1 entries s absent => exact ⟨known, Subset.refl _⟩
  | case2 entries s sign name after found ih =>
    obtain ⟨all, rest⟩ := ih (forall_mem_snoc known (.shortcut sign name))
    exact ⟨all, Subset.trans rest (Spot.rest_scan?_subset found)⟩

theorem good_of_read (plain : '\n' ∉ s.rest) (read : Attribute.read s = .ok reading) :
    reading.Good := by
  obtain ⟨known, rest⟩ := readShortcuts_good [] s nofun
  simp only [Attribute.read] at read
  split at read
  next scanned =>
    exact good_of_readEntries (fun feed => plain (rest (Spot.rest_scan?_subset scanned feed)))
      known read
  next =>
    split at read
    next scanned =>
      exact good_of_readEntries (fun feed => plain (rest (Spot.rest_scan?_subset scanned feed)))
        known read
    next =>
      cases read
      exact ⟨known, fun feed => plain (rest feed)⟩

/-! ## Lists step by step -/

theorem readEntries_eq (form : ListForm) (entries : List Node) (s : Spot) :
    readEntries form entries s =
      if (form.skipGap s).atEnd then .ok (.continues form entries (form.skipGap s))
      else match (form.skipGap s).scan? (Scan.exactly [form.closer]) with
        | some (_, s') => .ok (.complete entries s')
        | none => readEntry form (form.skipGap s) >>= fun (entry, s') =>
            readEntries form (entries ++ [entry]) s' := by
  rw [readEntries]
  by_cases ends : (form.skipGap s).atEnd
  · rw [if_pos ends, if_pos ends]
  · rw [if_neg ends, if_neg ends]
    cases (form.skipGap s).scan? (Scan.exactly [form.closer]) with
    | some found => rfl
    | none =>
      dsimp only
      split
      · next failed =>
        rw [failed]
        rfl
      · next read =>
        rw [read]
        rfl

theorem readShortcuts_eq (entries : List Node) (s : Spot) :
    readShortcuts entries s =
      match s.scan? shortcut with
      | none => (entries, s)
      | some ((sign, name), s') => readShortcuts (entries ++ [shortcutEntry sign name]) s' := by
  rw [readShortcuts]
  split
  · next absent => rw [absent]
  · next found => rw [found]

end Attribute

end MarkupTemplate
