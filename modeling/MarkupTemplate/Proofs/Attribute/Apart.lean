import MarkupTemplate.Proofs.Attribute.Read
import MarkupTemplate.Proofs.Line.Apart

/-!
# Attributes whatever follows them

A closed list of attributes is read alike from every line that agrees up to its bracket
(`readEntries_closed`), and so are all attributes if a character follows that belongs to none of
them (`read_apart`). A text or code may run past a bracket, but then a list that is closed there is
not read so.
-/

namespace MarkupTemplate

open List
open Spot (rest_suffix_of_scan? scan?_apart)

open Text (Apart trimLeft after?)

namespace Attribute

open Scan

/-! ## Parts that stop in front of the bracket -/

/-- Two texts that agree up to the closing bracket of a list. -/
abbrev Beyond (form : ListForm) (y y' : Text) : Text → Text → Prop :=
  Apart form.closer form.closer y y'

variable {form : ListForm} {y y' : Text}

theorem closer_ink (form : ListForm) : Text.isBlank form.closer = false := by
  cases form <;> decide

theorem name_beyond : Steady (Beyond form y y') name :=
  run_apart (by cases form <;> decide) (by cases form <;> decide)

theorem sign_beyond {mark : Text} (other : form.closer ∉ mark) :
    Steady (Beyond form y y') (sign mark) :=
  map_steady (andThen_steady (blanks_apart (closer_ink form) (closer_ink form))
    (andThen_steady (exactly_apart other other) (blanks_apart (closer_ink form) (closer_ink form))))

theorem assigned_beyond : Steady (Beyond form y y') assigned :=
  map_steady (andThen_steady name_beyond (sign_beyond (by cases form <;> decide)))

theorem anyQuote_beyond : Steady (Beyond form y y') anyQuote :=
  char_apart (by cases form <;> decide) (by cases form <;> decide)

theorem assignedQuote_beyond : Steady (Beyond form y y') assignedQuote :=
  andThen_steady assigned_beyond anyQuote_beyond

theorem symbolKey_beyond : Steady (Beyond form y y') symbolKey := by
  have colon : form.closer ∉ ":".toList := by cases form <;> decide
  exact map_steady (andThen_steady (exactly_apart colon colon)
    (andThen_steady name_beyond (sign_beyond (by cases form <;> decide))))

theorem arrowKey_beyond : Steady (Beyond form y y') arrowKey :=
  map_steady (andThen_steady name_beyond (sign_beyond (by cases form <;> decide)))

theorem arrowOrColon_beyond : Steady (Beyond form y y') arrowOrColon :=
  orElse_steady (sign_beyond (by cases form <;> decide)) (sign_beyond (by cases form <;> decide))

variable {t t' text rest : Text} {quote : Char} {α β : Type} {entry : Node}
  {entries found : List Node}

theorem head?_beyond (beyond : Beyond form y y' t t') : t.head? = t'.head? := by
  obtain ⟨front⟩ := beyond
  cases front with
  | nil | cons => rfl

theorem colonKey_beyond : Steady (Beyond form y y') colonKey := by
  intro t t' beyond
  have named : Tracks (Beyond form y y') (name t) (name t') := name_beyond t t' beyond
  unfold colonKey
  generalize name t = here at named
  generalize name t' = there at named
  cases named with
  | none => exact .none
  | some found left =>
    dsimp only
    rw [head?_beyond left]
    split
    · exact .some _ (left.split (closer_ink form) (closer_ink form)).2
    · exact .none

theorem entryEnd_beyond : Steady (Beyond form y y') entryEnd := by
  intro t t' beyond
  have trimmed : Beyond form y y' (trimLeft t) (trimLeft t') :=
    (beyond.split (closer_ink form) (closer_ink form)).2
  unfold entryEnd
  generalize trimLeft t = here at trimmed
  generalize trimLeft t' = there at trimmed
  obtain ⟨front⟩ := trimmed
  cases front with
  | nil =>
    simp only [nil_append]
    split
    · exact .some () (.behind [])
    · exact .none
  | cons c front =>
    simp only [cons_append]
    split
    · exact .some () (.behind (c :: front))
    · exact .none

/-! ## Parts that may run past the bracket -/

theorem quoted?_of_append (noEscape : quote ≠ '\\') (noHash : quote ≠ '#') {depth : Nat}
    (read : quoted? quote depth t = some (text, rest)) (rest' : Text) :
    quoted? quote depth (text ++ quote :: rest') = some (text, rest') := by
  -- a backslash takes a character with it, so it is never the last one before the text is read on
  have slash : ∀ {depth : Nat} {c : Char} {t : Text} {found : Text × Text},
      (∀ d u, c = '\\' → t = d :: u → False) → quoted? quote depth t = some found → c ≠ '\\' := by
    rintro depth _ t found escape read rfl
    cases t with
    | nil => cases depth <;> cases read
    | cons d u => exact escape d u rfl rfl
  fun_induction quoted? quote depth t generalizing text with
  | case1 => cases read
  | case2 depth c t ih =>
    obtain ⟨⟨inner, _⟩, found, same⟩ := Option.map_eq_some_iff.mp read
    cases same
    cases depth with
    | zero | succ => simp [quoted?, ih found]
  | case3 t ih =>
    obtain ⟨⟨inner, _⟩, found, same⟩ := Option.map_eq_some_iff.mp read
    cases same
    simp [quoted?, ih found]
  | case4 t =>
    cases read
    rw [nil_append, quoted?, if_pos rfl]
    · exact fun _ _ same => absurd same noEscape
    · exact fun _ same => absurd same noHash
  | case5 c t escape brace other ih =>
    obtain ⟨⟨inner, _⟩, found, same⟩ := Option.map_eq_some_iff.mp read
    cases same
    have joined := quoted?_append found
    rw [cons_append, quoted?, if_neg other, ih found]
    · rfl
    · exact fun _ _ same => absurd same (slash escape found)
    · rintro u first same
      cases inner with
      | nil | cons d inner =>
        cases same
        exact brace _ first joined.symm
  | case6 depth c t escape depth' =>
    rename_i ih
    obtain ⟨⟨inner, _⟩, found, same⟩ := Option.map_eq_some_iff.mp read
    cases same
    rw [cons_append, quoted?, ih found]
    · rfl
    · exact fun _ _ same => absurd same (slash escape found)

theorem code_of_append {isTerminator : Char → Bool} {state : CodeState} {rest' : Text}
    (read : code isTerminator state t = .ok (text, rest)) (filled : rest ≠ [])
    (same : rest.head? = rest'.head?) :
    code isTerminator state (text ++ rest') = .ok (text, rest') := by
  induction t generalizing state text with
  | nil =>
    rw [code] at read
    split at read
    · cases read
    · cases read
      exact absurd rfl filled
  | cons d t ih =>
    rw [code] at read
    split at read
    next ends =>
      cases read
      cases rest' with
      | nil => cases same
      | cons e rest' =>
        cases same
        rw [nil_append, code, if_pos ends]
    next goesOn =>
      obtain ⟨_, inner, same⟩ := exists_of_map read
      cases same
      rw [cons_append, code, if_neg goesOn, ih inner]
      rfl

theorem upToQuote_of_append (read : upToQuote quote t = some (text, rest)) :
    t = text ++ quote :: rest ∧ ∀ rest', upToQuote quote (text ++ quote :: rest') =
      some (text, rest') := by
  unfold upToQuote at read
  split at read
  · nomatch read
  · next c rest ended =>
    cases read
    have closes : c = quote := by
      have first := head?_dropWhile_not (fun c => c != quote) t
      rw [ended] at first
      simpa using first
    subst closes
    have whole := takeWhile_append_dropWhile (p := fun d => d != c) (l := t)
    rw [ended] at whole
    refine ⟨whole.symm, fun rest' => ?_⟩
    have inside : ∀ d ∈ t.takeWhile (· != c), (d != c) = true := fun d => mem_takeWhile_imp
    have taken : (t.takeWhile (· != c) ++ c :: rest').takeWhile (· != c) =
        t.takeWhile (· != c) := by
      rw [takeWhile_append_of_pos inside]
      simp
    have dropped : (t.takeWhile (· != c) ++ c :: rest').dropWhile (· != c) = c :: rest' := by
      rw [dropWhile_append_of_pos inside]
      simp
    simp only [upToQuote, taken, dropped]

/-! ## Keys -/

theorem sign_ends (mark : Text) : Ends (sign mark) :=
  map_ends (andThen_ends blanks_ends (andThen_ends (exactly_ends mark) blanks_ends))

theorem upToQuote_ends (quote : Char) : Ends (upToQuote quote) := by
  intro t text rest found
  rw [(upToQuote_of_append found).1]
  exact (suffix_cons quote rest).trans (suffix_append ..)

theorem arrowOrColon_ends : Ends arrowOrColon :=
  orElse_ends (sign_ends _) (sign_ends _)

theorem colonKey_ends : Ends colonKey := by
  intro t a rest found
  unfold colonKey at found
  split at found
  · nomatch found
  · next named =>
    split at found
    · cases found
      exact (dropWhile_suffix _).trans (run_ends _ _ _ _ named)
    · nomatch found

theorem key_ends : Ends key := by
  intro t a rest found
  simp only [key, findSome?_eq_some_iff] at found
  obtain ⟨_, form, _, forms, found, _⟩ := found
  have mem : form ∈ keyForms := by simp [forms]
  simp only [keyForms, mem_cons, not_mem_nil, or_false] at mem
  have quoted : ∀ quote, Ends (quotedKey quote) := fun quote =>
    map_ends (andThen_ends (exactly_ends _) (andThen_ends (upToQuote_ends quote) arrowOrColon_ends))
  rcases mem with rfl | rfl | rfl | rfl | rfl
  · exact map_ends (andThen_ends (exactly_ends _) (andThen_ends (run_ends _) (sign_ends _))) _ _ _
      found
  · exact quoted _ _ _ _ found
  · exact quoted _ _ _ _ found
  · exact colonKey_ends _ _ _ found
  · exact map_ends (andThen_ends (run_ends _) (sign_ends _)) _ _ _ found

theorem quotedKey_of_ne {c : Char} (other : quote ≠ c) (t : Text) :
    quotedKey quote (c :: t) = none := by
  simp [quotedKey, Scan.map, andThen, exactly, after?, other]

theorem key_of_quote (isQuote : quote = '"' ∨ quote = '\'') (t : Text) :
    key (quote :: t) = quotedKey quote (quote :: t) := by
  have unnamed : name (quote :: t) = none := by
    have other : Text.isNameChar quote = false := by rcases isQuote with rfl | rfl <;> decide
    simp [name, run, other]
  have noSymbol : symbolKey (quote :: t) = none := by
    have other : ':' ≠ quote := by rcases isQuote with rfl | rfl <;> decide
    simp [symbolKey, Scan.map, andThen, exactly, after?, other]
  have noColon : colonKey (quote :: t) = none := by simp [colonKey, unnamed]
  have noArrow : arrowKey (quote :: t) = none := by simp [arrowKey, Scan.map, andThen, unnamed]
  have forms : key (quote :: t) =
      (quotedKey '"' (quote :: t)).or ((quotedKey '\'' (quote :: t)).or none) := by
    simp only [key, keyForms, findSome?_cons, findSome?_nil, noSymbol, noColon, noArrow]
    cases quotedKey '"' (quote :: t) with
    | some found => rfl
    | none => cases quotedKey '\'' (quote :: t) <;> rfl
  rw [forms]
  rcases isQuote with rfl | rfl
  · simp [quotedKey_of_ne (show '\'' ≠ '"' by decide)]
  · simp [quotedKey_of_ne (show '"' ≠ '\'' by decide)]

theorem key_of_other {c : Char} (other : ¬(c = '"' ∨ c = '\'')) (t : Text) :
    key (c :: t) = [symbolKey, colonKey, arrowKey].findSome? (· (c :: t)) := by
  rw [not_or] at other
  simp only [key, keyForms, findSome?_cons, quotedKey_of_ne (Ne.symm other.1),
    quotedKey_of_ne (Ne.symm other.2)]

theorem quotedKey_carried (beyond : Beyond form y y' t t') {found : Text}
    (read : quotedKey quote (quote :: t) = some (found, rest)) (ahead : form.closer :: y <:+ rest) :
    ∃ rest', quotedKey quote (quote :: t') = some (found, rest') ∧ Beyond form y y' rest rest' := by
  have opened : ∀ t, exactly [quote] (quote :: t) = some ((), t) := fun t => by
    simp [exactly, after?]
  simp only [quotedKey, Scan.map, andThen, opened] at read ⊢
  cases inside : upToQuote quote t with
  | none =>
    rw [inside] at read
    cases read
  | some part =>
    obtain ⟨key, left⟩ := part
    rw [inside] at read
    cases arrow : arrowOrColon left with
    | none =>
      simp only [arrow] at read
      cases read
    | some part =>
      obtain ⟨_, rest⟩ := part
      simp only [arrow] at read
      cases read
      obtain ⟨front, whole⟩ := ahead.trans (arrowOrColon_ends _ _ _ arrow)
      obtain ⟨joined, reads⟩ := upToQuote_of_append inside
      rw [joined, ← whole, ← cons_append, ← append_assoc] at beyond
      have inside' := reads (front ++ form.closer :: y')
      rw [← cons_append, ← append_assoc, ← beyond.eq_append] at inside'
      have behind : Beyond form y y' left (front ++ form.closer :: y') := by
        rw [← whole]
        exact .behind front
      have tracks := arrowOrColon_beyond left _ behind
      rw [arrow] at tracks
      rw [inside']
      dsimp only
      generalize arrowOrColon (front ++ form.closer :: y') = there at tracks
      cases tracks with
      | some _ left => exact ⟨_, rfl, left⟩

theorem key_carried (beyond : Beyond form y y' t t') {found : Text}
    (read : key t = some (found, rest))
    (ahead : form.closer :: y <:+ rest) :
    ∃ rest', key t' = some (found, rest') ∧ Beyond form y y' rest rest' := by
  have named : Steady (Beyond form y y') fun t => [symbolKey, colonKey, arrowKey].findSome?
      (· t) := by
    refine findSome_steady ?_
    simp only [forall_mem_cons]
    exact ⟨symbolKey_beyond, colonKey_beyond, arrowKey_beyond, nofun⟩
  have other : ∀ {c : Char} {u u' : Text}, Beyond form y y' (c :: u) (c :: u') →
    ¬(c = '"' ∨ c = '\'') →
      key (c :: u) = some (found, rest) → ∃ rest', key (c :: u') = some (found, rest') ∧
        Beyond form y y' rest rest' := by
    intro c u u' beyond other read
    have tracks := named _ _ beyond
    simp only [← key_of_other other, read] at tracks
    generalize key (c :: u') = there at tracks
    cases tracks with
    | some _ left => exact ⟨_, rfl, left⟩
  obtain ⟨front⟩ := beyond
  cases front with
  | nil => exact other (.behind []) (by cases form <;> decide) read
  | cons c front =>
    by_cases isQuote : c = '"' ∨ c = '\''
    · rw [cons_append, key_of_quote isQuote] at read ⊢
      exact quotedKey_carried (.behind front) read ahead
    · exact other (.behind (c :: front)) isQuote read

/-! ## Reading moves on -/

variable {s s' s₁ : Spot}

theorem scan?_key_carried (beyond : Beyond form y y' s.rest s'.rest) {found : Text}
    (scanned : s.scan? key = some (found, s₁)) (ahead : form.closer :: y <:+ s₁.rest) :
    ∃ s₁', s'.scan? key = some (found, s₁') ∧ Beyond form y y' s₁.rest s₁'.rest := by
  obtain ⟨rest', found', left⟩ := key_carried beyond (Spot.rest_of_scan? key_ends scanned) ahead
  obtain ⟨s₁', scanned', rfl⟩ := Spot.exists_scan? found' (key_ends _ _ _ found')
  exact ⟨s₁', scanned', left⟩

theorem quoted?_ends (quote : Char) (depth : Nat) : Ends (quoted? quote depth) := by
  intro t text rest read
  rw [← quoted?_append read]
  exact (suffix_cons quote rest).trans (suffix_append ..)

theorem suffix_of_readQuoted (read : readQuoted quote s = .ok (text, s₁)) : s₁.rest <:+ s.rest := by
  unfold readQuoted at read
  split at read
  · nomatch read
  · next scanned =>
    cases read
    exact rest_suffix_of_scan? scanned

theorem suffix_of_readCode {terminators : ListForm}
    (read : readCode terminators s = .ok (text, s₁)) : s₁.rest <:+ s.rest := by
  unfold readCode at read
  split at read
  · nomatch read
  · cases read
    exact drop_suffix _ _

theorem suffix_of_readEntry (read : readEntry form s = .ok (entry, s₁)) : s₁.rest <:+ s.rest := by
  cases readsEntry_of_ok read with
  | text scanned quoted => exact (suffix_of_readQuoted quoted).trans (rest_suffix_of_scan? scanned)
  | code _ scanned coded | hostCode scanned _ coded =>
    exact (suffix_of_readCode coded).trans (rest_suffix_of_scan? scanned)
  | alone _ _ scanned => exact rest_suffix_of_scan? scanned
  | hostText named opened quoted ended =>
    have first := (rest_suffix_of_scan? opened).trans (rest_suffix_of_scan? named)
    exact (rest_suffix_of_scan? ended).trans ((suffix_of_readQuoted quoted).trans first)

/-! ## Entries -/

/-- What is read in front of the closing bracket of a list is read from the other text as well. -/
def Carried {α : Type} (form : ListForm) (y y' : Text) (here there : Except Fault (α × Spot)) :
    Prop :=
  ∀ a s, here = .ok (a, s) → form.closer :: y <:+ s.rest →
    ∃ s', there = .ok (a, s') ∧ Beyond form y y' s.rest s'.rest

theorem readQuoted_carried (noEscape : quote ≠ '\\') (noHash : quote ≠ '#')
    (beyond : Beyond form y y' s.rest s'.rest) :
    Carried form y y' (readQuoted quote s) (readQuoted quote s') := by
  rintro text s₁ read ⟨front, ahead⟩
  unfold readQuoted at read
  split at read
  · nomatch read
  · next scanned =>
    cases read
    have found := Spot.rest_of_scan? (quoted?_ends quote 0) scanned
    rw [← quoted?_append found, ← ahead, ← cons_append, ← append_assoc] at beyond
    have found' := quoted?_of_append noEscape noHash found (front ++ form.closer :: y')
    rw [← cons_append, ← append_assoc, ← beyond.eq_append] at found'
    obtain ⟨s₁', scanned', rest⟩ := Spot.exists_scan? found' (quoted?_ends _ _ _ _ _ found')
    refine ⟨s₁', by rw [readQuoted, scanned'], ?_⟩
    rw [rest, ← ahead]
    exact .behind front

theorem readCode_carried (terminators : ListForm) (beyond : Beyond form y y' s.rest s'.rest) :
    Carried form y y' (readCode terminators s) (readCode terminators s') := by
  rintro text s₁ read ⟨front, ahead⟩
  unfold readCode at read
  split at read
  · nomatch read
  · next code rest found =>
    cases read
    have whole := code_append found
    rw [Spot.rest_advance, ← whole, drop_left] at ahead
    have left : Beyond form y y' rest (front ++ form.closer :: y') := by
      rw [← ahead]
      exact .behind front
    rw [← whole, ← ahead, ← append_assoc] at beyond
    have there := beyond.eq_append
    rw [append_assoc] at there
    have found' := code_of_append found (by simp [← ahead]) (head?_beyond left)
    rw [← there] at found'
    refine ⟨s'.advance code.length, by rw [readCode, found'], ?_⟩
    rw [Spot.rest_advance, Spot.rest_advance, ← whole, there, drop_left, drop_left]
    exact left

theorem unlike_of_isQuote (isQuote : quote = '"' ∨ quote = '\'') : quote ≠ '\\' ∧ quote ≠ '#' := by
  rcases isQuote with rfl | rfl
  · decide
  · decide

theorem readEntry_carried (beyond : Beyond form y y' s.rest s'.rest) :
    Carried form y y' (readEntry form s) (readEntry form s') := by
  intro entry s₂ read ahead
  cases readsEntry_of_ok read with
  | text scanned quoted =>
    obtain ⟨_, found⟩ := Spot.exists_of_scan? scanned
    obtain ⟨noEscape, noHash⟩ := unlike_of_isQuote (isQuote_of_assignedQuote found)
    obtain ⟨_, scanned', left⟩ := (scan?_apart assignedQuote_beyond beyond).of_some scanned
    obtain ⟨s₂', quoted', left⟩ := readQuoted_carried noEscape noHash left _ _ quoted ahead
    exact ⟨s₂', (ReadsEntry.text scanned' quoted').read, left⟩
  | code unquoted scanned coded =>
    have unquoted' := (scan?_apart assignedQuote_beyond beyond).of_none unquoted
    obtain ⟨_, scanned', left⟩ := (scan?_apart assigned_beyond beyond).of_some scanned
    obtain ⟨s₂', coded', left⟩ := readCode_carried .markup left _ _ coded ahead
    exact ⟨s₂', (ReadsEntry.code unquoted' scanned' coded').read, left⟩
  | alone unquoted unassigned scanned =>
    have unquoted' := (scan?_apart assignedQuote_beyond beyond).of_none unquoted
    have unassigned' := (scan?_apart assigned_beyond beyond).of_none unassigned
    obtain ⟨s₂', scanned', left⟩ := (scan?_apart name_beyond beyond).of_some scanned
    exact ⟨s₂', (ReadsEntry.alone unquoted' unassigned' scanned').read, left⟩
  | hostText named opened quoted ended =>
    obtain ⟨_, found⟩ := Spot.exists_of_scan? opened
    obtain ⟨noEscape, noHash⟩ := unlike_of_isQuote (isQuote_of_anyQuote found)
    have behind := ahead.trans (rest_suffix_of_scan? ended)
    have value := (suffix_of_readQuoted quoted).trans (rest_suffix_of_scan? opened)
    obtain ⟨_, named', left⟩ := scan?_key_carried beyond named (behind.trans value)
    obtain ⟨_, opened', left⟩ := (scan?_apart anyQuote_beyond left).of_some opened
    obtain ⟨_, quoted', left⟩ := readQuoted_carried noEscape noHash left _ _ quoted behind
    obtain ⟨s₂', ended', left⟩ := (scan?_apart entryEnd_beyond left).of_some ended
    exact ⟨s₂', (ReadsEntry.hostText named' opened' quoted' ended').read, left⟩
  | hostCode named unquoted coded filled =>
    obtain ⟨_, named', left⟩ :=
      scan?_key_carried beyond named (ahead.trans (suffix_of_readCode coded))
    have unquoted' := (scan?_apart anyQuote_beyond left).of_none unquoted
    obtain ⟨s₂', coded', left⟩ := readCode_carried .host left _ _ coded ahead
    exact ⟨s₂', (ReadsEntry.hostCode named' unquoted' coded' filled).read, left⟩

/-! ## Lists -/

theorem skipGap_beyond (beyond : Beyond form y y' s.rest s'.rest) :
    Beyond form y y' (form.skipGap s).rest (form.skipGap s').rest :=
  have other : form.isGap form.closer = false := by cases form <;> decide
  Spot.advance_apart other other beyond

theorem scan?_eq_none_iff {c : Char} : s.scan? (exactly [c]) = none ↔ s.rest.head? ≠ some c := by
  unfold Spot.scan? exactly
  cases s.rest with
  | nil => simp [after?]
  | cons d t =>
    by_cases same : c = d
    · simp [after?, same]
    · simp [after?, same, Ne.symm same]

theorem readEntries_closed (read : readEntries form entries s = .ok (.complete found s₁)) :
    form.closer :: s₁.rest <:+ s.rest ∧ ∀ {s' : Spot} {y' : Text},
    Beyond form s₁.rest y' s.rest s'.rest →
      ∃ s₁', readEntries form entries s' = .ok (.complete found s₁') ∧ s₁'.rest = y' := by
  fun_induction readEntries form entries s with
  | case1 | case3 => cases read
  | case2 entries s more _ after closed =>
    cases read
    have here := Spot.rest_of_scan? (exactly_ends _) closed
    have bracket : (form.skipGap s).rest = [] ++ form.closer :: s₁.rest := by
      cases left : (form.skipGap s).rest with
      | nil =>
        rw [left] at here
        cases here
      | cons d t =>
        by_cases same : form.closer = d
        · simpa [left, exactly, after?, same] using here
        · simp [left, exactly, after?, same] at here
    have ahead : (form.skipGap s).rest <:+ s.rest := drop_suffix _ _
    rw [bracket] at ahead
    refine ⟨ahead, ?_⟩
    intro s' y' beyond
    have skipped := skipGap_beyond beyond
    rw [bracket] at skipped
    have bracket' := skipped.eq_append
    obtain ⟨s₁', closed', left⟩ : ∃ s₁', (form.skipGap s').scan? (exactly [form.closer]) =
      some ((), s₁') ∧ s₁'.rest = y' :=
      Spot.exists_scan? (by simp [bracket', exactly, after?]) (by simp [bracket'])
    have ink : (form.skipGap s').atEnd = false :=
      (skipped.allBlank_eq (closer_ink form) (closer_ink form)).2
    refine ⟨s₁', ?_, left⟩
    rw [readEntries_eq, ink, if_neg (by simp), closed']
  | case4 entries s more closed entry after first ih =>
    obtain ⟨ahead, next⟩ := ih read
    refine ⟨ahead.trans ((suffix_of_readEntry first).trans (drop_suffix _ _)), ?_⟩
    intro s' y' beyond
    have skipped := skipGap_beyond beyond
    obtain ⟨s₂', first', left⟩ := readEntry_carried skipped entry after first ahead
    obtain ⟨s₁', rest, ended⟩ := next left
    refine ⟨s₁', ?_, ended⟩
    have ink : (form.skipGap s').atEnd = false :=
      (skipped.allBlank_eq (closer_ink form) (closer_ink form)).2
    have unclosed : (form.skipGap s').scan? (exactly [form.closer]) = none := by
      rw [scan?_eq_none_iff, ← head?_beyond skipped]
      exact scan?_eq_none_iff.mp closed
    rw [readEntries_eq, ink, if_neg (by simp), unclosed, first']
    exact rest

variable {c c' : Char}

theorem readEntries_apart (apart : Apart c c' y y' s.rest s'.rest)
    (read : readEntries form entries s = .ok (.complete found s₁)) (ahead : c :: y <:+ s₁.rest) :
    ∃ s₁', readEntries form entries s' = .ok (.complete found s₁') ∧
    Apart c c' y y' s₁.rest s₁'.rest := by
  obtain ⟨⟨front, closed⟩, other⟩ := readEntries_closed read
  obtain ⟨middle, left⟩ := ahead
  rw [← closed, ← left, ← cons_append, ← append_assoc] at apart
  have beyond : Beyond form s₁.rest (middle ++ c' :: y') s.rest s'.rest := by
    rw [apart.eq_append, append_assoc, ← closed]
    exact .behind front
  obtain ⟨s₁', read', left'⟩ := other beyond
  refine ⟨s₁', read', ?_⟩
  rw [left', ← left]
  exact .behind middle

/-! ## Attributes -/

/-- Whether a character starts neither a shortcut nor a list and goes on with no shortcut. -/
def isForeign (c : Char) : Bool :=
  !(c == '.' || c == '#') && !Text.isShortcutChar c && c != ListForm.markup.opener &&
    c != ListForm.host.opener

theorem readShortcuts_apart (foreign : isForeign c) (foreign' : isForeign c') (entries : List Node)
    (apart : Apart c c' y y' s.rest s'.rest) :
    (readShortcuts entries s).1 = (readShortcuts entries s').1 ∧
      Apart c c' y y' (readShortcuts entries s).2.rest (readShortcuts entries s').2.rest := by
  simp only [isForeign, Bool.and_eq_true, Bool.not_eq_true'] at foreign foreign'
  have steady : Steady (Apart c c' y y') shortcut :=
    andThen_steady (char_apart foreign.1.1.1 foreign'.1.1.1)
      (run_apart foreign.1.1.2 foreign'.1.1.2)
  fun_induction readShortcuts entries s generalizing s' with
  | case1 entries s absent =>
    have tracks := scan?_apart steady apart
    rw [absent] at tracks
    rw [readShortcuts_eq entries s']
    generalize s'.scan? shortcut = there at tracks
    cases tracks
    exact ⟨rfl, apart⟩
  | case2 entries s sign name after found ih =>
    have tracks := scan?_apart steady apart
    rw [found] at tracks
    rw [readShortcuts_eq entries s']
    generalize s'.scan? shortcut = there at tracks
    cases tracks with
    | some _ left => exact ih left

/-- Attributes that are complete in front of the place where two lines go on differently. -/
theorem read_apart (foreign : isForeign c) (foreign' : isForeign c')
    (apart : Apart c c' y y' s.rest s'.rest)
    (complete : read s = .ok (.complete found s₁)) (ahead : c :: y <:+ s₁.rest) :
    ∃ s₁', read s' = .ok (.complete found s₁') ∧ Apart c c' y y' s₁.rest s₁'.rest := by
  obtain ⟨entries, shortcuts⟩ := readShortcuts_apart foreign foreign' [] apart
  simp only [isForeign, Bool.and_eq_true, bne_iff_ne] at foreign foreign'
  have opener : ∀ form : ListForm, Steady (Apart c c' y y') (exactly [form.opener]) := by
    intro form
    cases form with
    | markup => exact exactly_apart (by simpa using foreign.1.2) (by simpa using foreign'.1.2)
    | host => exact exactly_apart (by simpa using foreign.2) (by simpa using foreign'.2)
  have markup := scan?_apart (opener .markup) shortcuts
  have host := scan?_apart (opener .host) shortcuts
  unfold read at complete ⊢
  dsimp only at complete ⊢
  rw [← entries]
  generalize (readShortcuts [] s).1 = entries at complete
  generalize (readShortcuts [] s).2 = s₂ at complete shortcuts markup host
  generalize (readShortcuts [] s').2 = s₂' at shortcuts markup host
  generalize s₂.scan? (exactly [ListForm.markup.opener]) = found at complete markup
  generalize s₂'.scan? (exactly [ListForm.markup.opener]) = found' at markup
  cases markup with
  | some _ left => exact readEntries_apart left complete ahead
  | none =>
    dsimp only at complete ⊢
    generalize s₂.scan? (exactly [ListForm.host.opener]) = found at complete host
    generalize s₂'.scan? (exactly [ListForm.host.opener]) = found' at host
    cases host with
    | some _ left => exact readEntries_apart left complete ahead
    | none =>
      cases complete
      exact ⟨s₂', rfl, shortcuts⟩

end Attribute

end MarkupTemplate
