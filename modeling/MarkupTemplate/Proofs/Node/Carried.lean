import MarkupTemplate.Proofs.Attribute.Merge
import MarkupTemplate.Proofs.Node.DifferAt
import MarkupTemplate.Proofs.Node.Explicit
import MarkupTemplate.Proofs.Node.Expanded
import MarkupTemplate.Proofs.Node.Parts

/-!
# An output through the passes

Two trees that differ in the code of one output still do so behind each pass, with as many lines in
front of it. Only the lines of a captured block below come in front of the output (`Node.ahead`).
-/

namespace MarkupTemplate.Node

open List
open Interpolation (segments? consText)

/-! ## The block below an output -/

/-- Whether a node as it is read puts out nothing by itself. -/
def isBare : Node → Bool
  | .leaf .newline => true
  | .leaf (.interpolate text) => text.isEmpty
  | .group .seq _ => true
  | _ => false

/-- Whether a tree as it is read puts out nothing: it holds line marks and empty texts only. -/
def isBlank (n : Node) : Bool :=
  n.parts.all isBare

/-- The lines of an output and its block that are counted in front, if the block is captured. -/
def ahead (noCapture : Bool) (body : Node) : Nat :=
  if noCapture || body.isBlank then 0 else body.extent 1

variable {text : Text} {place : Node → Node → Prop} {start : List Node}

theorem segments?_ne_nil (filled : text ≠ []) {segments : List Interpolation.Segment}
    (read : segments? text = some segments) : segments ≠ [] := by
  have consText_ne_nil : ∀ run segments, consText run segments ≠ [] := by
    intro run segments
    unfold consText
    split <;> simp
  rintro rfl
  unfold segments? at read
  split at read
  · exact filled rfl
  · obtain ⟨_, _, empty⟩ := Option.map_eq_some_iff.mp read
    exact consText_ne_nil _ _ empty
  · obtain ⟨_, _, empty⟩ := Option.map_eq_some_iff.mp read
    exact consText_ne_nil _ _ empty
  · split at read
    · cases read
    · obtain ⟨_, _, empty⟩ := Option.map_eq_some_iff.mp read
      cases empty
  · split at read
    all_goals
      obtain ⟨_, _, empty⟩ := Option.map_eq_some_iff.mp read
      exact consText_ne_nil _ _ empty

theorem all_partsOf (ns : List Node) : (partsOf ns).all isBare = ns.all isBlank := by
  induction ns with
  | nil => rfl
  | cons n ns ih => rw [partsOf, all_append, all_cons, ih, isBlank]

theorem isEmpty_ofInterpolated {n : Node} (read : ofInterpolated text = .ok n) :
    n.isEmpty = text.isEmpty := by
  unfold ofInterpolated at read
  split at read
  next segments found =>
    cases read
    cases text with
    | nil =>
      cases found.symm.trans Interpolation.segments?_nil
      rfl
    | cons c t =>
      obtain ⟨segment, rest, rfl⟩ :=
        exists_cons_of_ne_nil (segments?_ne_nil (cons_ne_nil c t) found)
      have filled : segment.node.isEmpty = false := by
        cases segment with
        | literal => rfl
        | code =>
          simp only [Interpolation.Segment.node]
          split <;> rfl
      simp [isEmpty, allEmpty, filled]
  next => cases read

/-- Expanding texts leaves nothing but line marks of what puts out nothing. -/
theorem isEmpty_interpolated (n : Node) :
    Yields (fun n' => n'.isEmpty = n.isBlank) (fun _ => True) n.interpolated := by
  induction n using Node.induction with
  | leaf l =>
    cases l with
    | interpolate text =>
      rw [interpolated]
      cases read : ofInterpolated text with
      | error e => trivial
      | ok n' =>
        have same := isEmpty_ofInterpolated read
        simpa [Yields, isBlank, parts, isBare] using same
    | unknown => trivial
    | _ => rfl
  | frame f inner ih => exact ih.bind fun _ _ => rfl
  | group g children ih =>
    rw [interpolated, interpolatedAll_eq]
    refine (Yields.mapM ih).bind fun children' each => ?_
    cases g with
    | attrs => rfl
    | seq =>
      have all : children'.all isEmpty = children.all isBlank := by
        induction each with
        | nil => rfl
        | cons first _ ihList =>
          rw [forall_mem_cons] at ih
          rw [all_cons, all_cons, first, ihList ih.2]
      show allEmpty children' = _
      rw [allEmpty_eq, all, isBlank, parts, all_cons, all_partsOf]
      rfl
  | closed name entries _ =>
    rw [interpolated]
    cases interpolatedAll entries with
    | ok _ => rfl
    | error _ => trivial
  | tag name entries body _ ih =>
    rw [interpolated]
    cases interpolatedAll entries with
    | ok _ => exact ih.bind fun _ _ => rfl
    | error _ => trivial

/-! ## The two places -/

/-- Outputs of two codes with the same block below. -/
inductive Outputs (lines : Node → Nat) (v w : Text) (e : Nat) : Node → Node → Prop where
  | intro {body : Node} :
    lines body = e → Outputs lines v w e (.output true v body) (.output true w body)

/-- Dynamic outputs of two codes. -/
inductive Puts (v w : Text) : Node → Node → Prop where
  | intro : Puts v w (.dynamic v) (.dynamic w)

variable {noCapture : Bool} {format : Format} {v w : Text} {d e : Nat} {n n' x y : Node}

theorem Outputs.isEmpty_eq {lines : Node → Nat} (here : Outputs lines v w e x y) :
    x.isEmpty = false ∧ y.isEmpty = false := by
  cases here
  exact ⟨rfl, rfl⟩

theorem Puts.isEmpty_eq (here : Puts v w x y) : x.isEmpty = false ∧ y.isEmpty = false := by
  cases here
  exact ⟨rfl, rfl⟩

/-! ## Interpolated texts -/

theorem interpolated_walked : Walked .rendered format interpolated interpolatedAll :=
  have lines : ∀ {p : Place} (n : Node), Fits .rendered format p n →
      Gives (fun n' => n'.extent 1 = n.extent 1) n.interpolated := fun _ fits =>
    gives_of_yields ((interpolated_keeps fits).imp fun _ kept => kept.extent 1)
  { interpolated_descends.toSequences with
    lines
    tag := fun _ entries fits =>
      ⟨interpolatedAll entries, interpolated_descends.toSequences.visits.lines fun e mem =>
        lines e (fits e mem),
        fun _ => rfl⟩ }

/-- The same once texts are expanded. -/
def captureLines (noCapture : Bool) (body : Node) : Nat :=
  if body.isEmpty || noCapture then 0 else body.extent 1

theorem interpolated_outputs (here : Outputs (ahead noCapture) v w e x y)
    (fits : Fits .rendered format .tree x) :
    Twin (Outputs (captureLines noCapture) v w e) x.interpolated y.interpolated := by
  obtain @⟨body, rfl⟩ := here
  have kept := interpolated_keeps fits.of_frame.2
  have empty := isEmpty_interpolated body
  simp only [interpolated]
  cases expanded : body.interpolated with
  | error e => exact ⟨.error e, rfl, rfl⟩
  | ok body' =>
    refine .pure (.intro ?_)
    rw [captureLines, ahead, empty.of_ok expanded, (kept.of_ok expanded).extent 1, Bool.or_comm]

theorem interpolated_differAt (differ : DifferAt noCapture (Outputs (ahead noCapture) v w e) d n n')
    (fits : Fits .rendered format .tree n) :
    Twin (DifferAt noCapture (Outputs (captureLines noCapture) v w e) d) n.interpolated
      n'.interpolated :=
  interpolated_walked.differAt_through (fun _ _ _ => rfl) (fun _ _ here => here.isEmpty_eq)
    (fun _ _ here fits => interpolated_outputs here fits) differ fits

/-! ## Control and output lines -/

theorem lowered_walked (noCapture : Bool) :
    Walked .expanded format (lowered noCapture) (fun ns used => controlledAll noCapture used ns) :=
  have lines : ∀ {p : Place} (n : Node), Fits .expanded format p n →
      Gives (fun n' => n'.extent 1 = n.extent 1) (lowered noCapture n) := fun _ fits =>
    gives_of_state fun used =>
      (controlled_keeps fits noCapture used).imp fun _ kept => kept.extent 1
  { (lowered_walks noCapture).toSequences with
    lines
    tag := fun _ entries fits =>
      ⟨fun used => controlledAll noCapture used entries,
        (lowered_walks noCapture).toSequences.visits.lines fun e mem => lines e (fits e mem),
          fun _ => rfl⟩ }

theorem differAt_captured (temp : Text) (plain : '\n' ∉ temp) (body : Node) :
    DifferAt noCapture (Puts v w) (body.extent 1) (captured true v temp body)
    (captured true w temp body) := by
  have assigned : Control.captureName.count '\n' = 0 ∧ temp.count '\n' = 0 :=
    ⟨by decide, count_eq_zero_of_not_mem plain⟩
  refine DifferAt.seq [.capture temp body, .code (Control.captureName ++ " = " ++ temp)] []
    (.here .intro) |>.cast ?_
  simp [Frame.extent, Leaf.extent, assigned]

theorem lowered_outputs (here : Outputs (captureLines noCapture) v w e x y)
    (fits : Fits .expanded format .tree x) :
    Twin (DifferAt noCapture (Puts v w) e) (lowered noCapture x) (lowered noCapture y) := by
  obtain @⟨body, rfl⟩ := here
  have lines := (lowered_walked noCapture).lines body fits.of_frame.2
  cases inline : body.isEmpty || noCapture with
  | true =>
    rw [lowered_inline true v inline, lowered_inline true w inline, captureLines, if_pos inline]
    exact .same fun body' => .pure (DifferAt.seq [] [body'] (.here .intro))
  | false =>
    rw [lowered_captured true v inline, lowered_captured true w inline, captureLines,
      if_neg (by simp [inline])]
    refine .same fun used => lines.twin fun body' same => .pure ?_
    rw [← same]
    exact differAt_captured _ (feed_not_mem_tempName _) body'

theorem lowered_through (f : Frame) (allowed : Kinds.frame .expanded f)
    (filled : n.isEmpty = false ∧ n'.isEmpty = false)
    (twin : Twin (DifferAt noCapture place d) (lowered noCapture n) (lowered noCapture n')) :
    Twin (DifferAt noCapture place (f.lead noCapture + d)) (lowered noCapture (.frame f n))
      (lowered noCapture (.frame f n')) := by
  cases f with
  | embedded | attr | shortcut => nomatch allowed
  | control source =>
    have inked : Text.trimRight source = source := by
      simp only [Kinds.frame, Bool.and_eq_true, beq_iff_eq] at allowed
      exact allowed.2
    refine twin.bind fun _ _ inside => .pure ?_
    unfold statement
    split
    · refine DifferAt.seq [.code (Control.suiteHeader source)] [] (inside.frame .block) |>.cast ?_
      simp [Leaf.extent, Frame.lead, count_suiteHeader inked]
    · refine DifferAt.seq [.code source] [] inside |>.cast ?_
      simp [Leaf.extent, Frame.lead]
  | output escaped source =>
    cases inline : noCapture with
    | true =>
      subst inline
      rw [lowered_inline escaped source (Bool.or_true _),
        lowered_inline escaped source (Bool.or_true _)]
      refine twin.bind fun _ _ inside =>
        .pure (DifferAt.seq [putOut escaped source] [] inside |>.cast ?_)
      simp [Frame.lead]
    | false =>
      subst inline
      rw [lowered_captured escaped source (by simp [filled.1]),
        lowered_captured escaped source (by simp [filled.2])]
      refine .same fun used => twin.bind fun _ _ inside => .pure ?_
      exact DifferAt.seq [] _ (inside.frame (.capture _)) |>.cast (by simp [Frame.lead])
  | _ => exact twin.bind fun _ _ inside => .pure (inside.frame _)

theorem lowered_differAt
    (differ : DifferAt noCapture (Outputs (captureLines noCapture) v w e) d n n')
    (fits : Fits .expanded format .tree n) :
    Twin (DifferAt noCapture (Puts v w) (d + e)) (lowered noCapture n) (lowered noCapture n') := by
  have carried : Twin (DifferAt noCapture (DifferAt noCapture (Puts v w) e) d) (lowered noCapture n)
      (lowered noCapture n') :=
    (lowered_walked noCapture).differAt (fun _ _ here => here.isEmpty_eq)
      (fun _ _ here fits => (lowered_outputs here fits).mono fun _ _ => .here)
      (fun f _ _ _ allowed filled twin => lowered_through f allowed filled twin) differ fits
  exact carried.mono fun _ _ inside => inside.bind fun _ _ place => place

/-! ## Attribute lists -/

theorem ListPass.walked {pass : Node → Except Failure Node}
    {list : List Node → Except Failure (List Node)}
    {all : List Node → Except Failure (List Node)} (walks : ListPass pass list)
    (sequences : Sequences pass all) : Walked .stated format pass all :=
  { sequences with
    lines := fun n fits =>
      gives_of_yields ((walks.keeps rfl fits rfl).imp fun _ kept => kept.extent 1)
    tag := fun name entries (fits : ∀ e ∈ entries, Fits .stated format .entry e) => by
      obtain ⟨entries', read, fits'⟩ :=
        walks.list fun e mem => Attribute.fits_entry_iff.mp (fits e mem)
      refine ⟨.ok entries', Gives.pure ?_, fun body => by rw [walks.tag, read]⟩
      have fits' := fun e mem => Attribute.fits_entry_iff.mpr (fits' e mem)
      rw [Attribute.extentOf_entries fits, Attribute.extentOf_entries fits'] }

theorem merging_walked (o : Options) :
    Walked .stated format (m := Counting) (fun n used => n.attributed o used)
      (fun ns used => attributedAll o used ns) :=
  { (attributed_descends o).toSequences with
    lines := fun n fits => gives_of_state fun used =>
      (attributed_keeps o fits rfl used).imp fun _ kept => kept.extent 1
    tag := fun name entries (fits : ∀ e ∈ entries, Fits .stated format .entry e) => by
      have lines : ∀ used, Yields (fun r => extentOf 1 r.1 = extentOf 1 entries) (fun _ => False)
          (Attribute.mergeList o used entries) := by
        intro used
        obtain ⟨r, read, merged⟩ := Attribute.mergeList_fits o used fits
        rw [read]
        exact (Attribute.extentOf_merged merged 1).trans (Attribute.extentOf_entries fits 1).symm
      exact ⟨fun used => Attribute.mergeList o used entries, gives_of_state lines, fun _ => rfl⟩ }

theorem Walked.puts {m : Type → Type} [Monad m] [LawfulMonad m] {pass : Node → m Node}
    {all : List Node → m (List Node)} (walked : Walked .stated format pass all)
    (frame : ∀ (f : Frame) n, pass (.frame f n) = pass n >>= fun n => pure (.frame f n))
    (dynamic : ∀ source, pass (.dynamic source) = pure (.dynamic source))
    (differ : DifferAt noCapture (Puts v w) d n n') (fits : Fits .stated format .tree n) :
    Twin (DifferAt noCapture (Puts v w) d) (pass n) (pass n') := by
  refine walked.differAt_through (fun f n _ => frame f n) (fun _ _ here => here.isEmpty_eq) ?_
    differ fits
  rintro _ _ ⟨⟩ _
  rw [dynamic, dynamic]
  exact .pure .intro

/-! ## Markup -/

theorem writing_lines (o : Options) (place : Markup.Place) (n : Node)
    (fits : Fits .merged o.format .tree n) :
    Gives (fun n' => n'.extent 1 = n.extent 1) (writing o place n) :=
  gives_of_state fun s =>
    (markup_keeps fits rfl place s).imp fun _ kept => kept.extent 1

theorem DifferAt.behind {before : List Node} (bare : extentOf 1 before = 0) (after : List Node)
    (inside : DifferAt noCapture place d n n') :
    DifferAt noCapture place d (.seq (before ++ n :: after)) (.seq (before ++ n' :: after)) :=
  inside.seq before after |>.cast (by rw [bare, Nat.zero_add])

theorem differAt_between (added : IsAdded format start) (text : Text) (closed : Node)
    (inside : DifferAt noCapture place d n n') :
    DifferAt noCapture place d (.seq (start ++ [.static text, n, closed]))
      (.seq (start ++ [.static text, n', closed])) := by
  have bare : extentOf 1 (start ++ [.static text]) = 0 := by simp [added.2 1, Leaf.extent]
  simpa using inside.behind bare [closed]

theorem differAt_element (added : IsAdded format start) (name ended : Text)
    (entries after : List Node)
    (closed : Node) (inside : DifferAt noCapture place d n n') :
    DifferAt noCapture place (extentOf 1 entries + d)
      (.seq (start ++ [.static name, .seq entries, .static ended, n] ++ after ++ [closed]))
      (.seq (start ++ [.static name, .seq entries, .static ended, n'] ++ after ++ [closed])) := by
  have front : extentOf 1 (start ++ [.static name, .seq entries, .static ended]) =
      extentOf 1 entries := by
    simp [added.2 1, Leaf.extent]
  have differ :=
    inside.seq (start ++ [.static name, .seq entries, .static ended]) (after ++ [closed])
  rw [front] at differ
  simpa using differ

theorem writing_through (o : Options) (f : Frame) (allowed : Kinds.frame .merged f)
    (twin : ∀ p, Twin (DifferAt noCapture place d) (writing o p n) (writing o p n'))
    (p : Markup.Place) :
    Twin (DifferAt noCapture place d) (writing o p (.frame f n)) (writing o p (.frame f n')) := by
  refine twin_iff.mpr fun s => ?_
  have added := isAdded_breakNodes o.format p.pretty o.indent p s
  cases f with
  | control | output | embedded => nomatch allowed
  | attr name | shortcut name =>
    refine (twin_iff.mp (twin p) s).bind ?_
    rintro ⟨n, s⟩ ⟨n', _⟩ ⟨inside, rfl⟩
    exact .ok ⟨differAt_between (@isAdded_nil o.format) _ _ inside, rfl⟩
  | comment | condComment condition =>
    refine (twin_iff.mp (twin _) _).bind ?_
    rintro ⟨n, s⟩ ⟨n', _⟩ ⟨inside, rfl⟩
    exact .ok ⟨differAt_between added _ _ inside, rfl⟩
  | trim side => exact twin_iff.mp (twin p) (s.trimming side)
  | escape | block | capture =>
    refine (twin_iff.mp (twin p) s).bind ?_
    rintro ⟨n, s⟩ ⟨n', _⟩ ⟨inside, rfl⟩
    exact .ok ⟨inside.frame _ |>.cast (by simp [Frame.lead]), rfl⟩

theorem writing_within (o : Options) (name : Text) {entries : List Node}
    (fits : ∀ e ∈ entries, Fits .merged o.format .tree e)
    (filled : n.isEmpty = false ∧ n'.isEmpty = false)
    (twin : ∀ p, Twin (DifferAt noCapture place d) (writing o p n) (writing o p n'))
    (p : Markup.Place) :
    Twin (DifferAt noCapture place (extentOf 1 entries + d))
    (writing o p (.tag name entries (some n))) (writing o p (.tag name entries (some n'))) := by
  refine twin_iff.mpr fun s => ?_
  have lines := (writing_sequences o p).visits.lines fun e mem => writing_lines o p e (fits e mem)
  have added := fun wanted s => isAdded_breakNodes o.format wanted o.indent p s
  simp only [writing, markup, filled, Bool.and_false, Bool.false_eq_true, if_false]
  refine (twin_iff.mp lines _).bind ?_
  rintro ⟨entries', s₁⟩ ⟨_, _⟩ ⟨⟨rfl, same⟩, rfl⟩
  refine (twin_iff.mp (twin _) _).bind ?_
  rintro ⟨m, s₂⟩ ⟨m', _⟩ ⟨inside, rfl⟩
  rw [← same]
  exact .ok ⟨differAt_element (added _ _) _ _ _ _ _ inside, rfl⟩

theorem writing_differAt (o : Options) (differ : DifferAt noCapture (Puts v w) d n n')
    (fits : Fits .merged o.format .tree n) (p : Markup.Place) :
    Twin (DifferAt noCapture (Puts v w) d) (writing o p n) (writing o p n') := by
  induction differ generalizing p with
  | here here =>
    cases here
    exact twin_iff.mpr fun s => .ok ⟨.here .intro, rfl⟩
  | frame f _ ih =>
    rw [lead_eq_zero rfl fits.of_frame.1, Nat.zero_add]
    exact writing_through o f fits.of_frame.1 (fun p => ih fits.of_frame.2 p) p
  | seq before after _ ih =>
    have each := fits.of_seq
    refine (writing_sequences o p).differAt (fun n mem => writing_lines o p n (each n ?_)) after
      (ih (each _ ?_) p)
    · exact mem_append_left _ mem
    · exact mem_append_right _ (.head _)
  | tag name entries inner ih =>
    exact writing_within o name fits.of_tag.1 (inner.isEmpty_eq fun _ _ here => here.isEmpty_eq)
      (fun p => ih fits.of_tag.2 p) p

/-! ## Escaping -/

/-- Outputs of two codes with escaping applied. -/
inductive PutsEscaped (byDefault : Bool) (v w : Text) : Node → Node → Prop where
  | intro (on? : Option Bool) :
    PutsEscaped byDefault v w (.dynamic (escapedCode byDefault on? v))
    (.dynamic (escapedCode byDefault on? w))

theorem escaped_lines (byDefault : Bool) (on? : Option Bool) (n : Node)
    (fits : Fits .written format .tree n) :
    Gives (fun n' => n'.extent 1 = n.extent 1) (n.escaped byDefault on?) :=
  gives_of_yields ((escaped_keeps byDefault fits rfl on?).imp fun _ kept => kept.extent 1)

theorem escaped_differAt (byDefault : Bool) (differ : DifferAt noCapture (Puts v w) d n n')
    (fits : Fits .written format .tree n) (on? : Option Bool) :
    Twin (DifferAt noCapture (PutsEscaped byDefault v w) d) (n.escaped byDefault on?)
    (n'.escaped byDefault on?) := by
  induction differ generalizing on? with
  | here here =>
    cases here
    exact .pure (.here (.intro on?))
  | frame f _ ih =>
    have allowed := fits.of_frame.1
    have twin := ih fits.of_frame.2
    cases f with
    | escape on => exact (twin (some on)).mono fun _ _ inside => inside.cast (by simp [Frame.lead])
    | capture name => exact (twin none).bind fun _ _ inside => .pure (inside.frame _)
    | block => exact (twin on?).bind fun _ _ inside => .pure (inside.frame _)
    | _ => nomatch allowed
  | seq before after _ ih =>
    have each := fits.of_seq
    refine (escaped_sequences byDefault on?).differAt
      (fun n mem => escaped_lines byDefault on? n (each n ?_)) after
      (ih (each _ ?_) on?)
    · exact mem_append_left _ mem
    · exact mem_append_right _ (.head _)
  | tag name entries _ _ => cases fits with | tag markup => nomatch markup

/-! ## Flat trees -/

variable {byDefault : Bool}

theorem flattened_visits : Visits flattened flattenedAll where
  nil := rfl
  cons _ _ := rfl

theorem flattened_lines (n : Node) (fits : Fits .core format .tree n) :
    Gives (fun n' => n'.extent 1 = n.extent 1) n.flattened :=
  gives_of_yields ((flattened_keeps fits).imp fun _ kept => kept.extent 1)

variable (differ : DifferAt noCapture (PutsEscaped byDefault v w) d n n')

include differ

/-- The place is in one of the nodes that a child gives to a sequence. -/
theorem DifferAt.spliced :
    OnceAt (DifferAt noCapture (PutsEscaped byDefault v w)) d n.spliced n'.spliced := by
  have one : ∀ {d n n'}, DifferAt noCapture (PutsEscaped byDefault v w) d n n' →
      OnceAt (DifferAt noCapture (PutsEscaped byDefault v w)) d [n] [n'] :=
    fun inside => .intro [] [] inside (Nat.zero_add _)
  cases differ with
  | here here =>
    cases here with
    | intro on? => exact one (.here (.intro on?))
  | frame f inside => exact one (inside.frame f)
  | seq before after inside => exact .intro before after inside rfl
  | tag name entries inside => exact one (inside.tag name entries)

omit differ in
theorem OnceAt.spliced {ns ns' : List Node}
    (once : OnceAt (DifferAt noCapture (PutsEscaped byDefault v w)) d ns ns') :
    OnceAt (DifferAt noCapture (PutsEscaped byDefault v w)) d (ns.flatMap Node.spliced)
    (ns'.flatMap Node.spliced) := by
  obtain ⟨before, after, inside, rfl⟩ := once
  have all := inside.spliced.within (before.flatMap Node.spliced) (after.flatMap Node.spliced)
  rw [extentOf_spliced] at all
  simpa using all

theorem flattened_differAt (fits : Fits .core format .tree n) :
    Twin (DifferAt noCapture (PutsEscaped byDefault v w) d) n.flattened n'.flattened := by
  induction differ with
  | here here =>
    cases here with
    | intro on? => exact .pure (.here (.intro on?))
  | frame f _ ih => exact (ih fits.of_frame.2).bind fun _ _ inside => .pure (inside.frame f)
  | seq before after _ ih =>
    have each := fits.of_seq
    rw [flattened, flattened]
    refine (flattened_visits.onceAt (fun n mem => flattened_lines n (each n ?_)) after
      (ih (each _ ?_))).bind ?_
    · exact mem_append_left _ mem
    · exact mem_append_right _ (.head _)
    · rintro ns ns' once
      exact .pure once.spliced.seq
  | tag name entries _ _ => cases fits with | tag markup => cases markup

/-! ## Joined texts -/

theorem DifferAt.breaks : n.breaksRun ∧ n'.breaksRun := by
  cases differ with
  | here here => cases here with | intro => exact ⟨rfl, rfl⟩
  | frame | seq | tag => exact ⟨rfl, rfl⟩

theorem joined_differAt (fits : Fits .core format .tree n) :
    Twin (DifferAt noCapture (PutsEscaped byDefault v w) d) n.joined n'.joined := by
  induction differ with
  | here here =>
    cases here with
    | intro on? => exact .pure (.here (.intro on?))
  | frame f _ ih => exact (ih fits.of_frame.2).bind fun _ _ inside => .pure (inside.frame f)
  | @seq before after d n n' inner ih =>
    have each := fits.of_seq
    have front : Gives (fun front => extentOf 1 front = extentOf 1 before)
        (joinedSeq {} before) := by
      refine gives_of_yields ((joinedSeq_keeps (fun n mem => joined_keeps (each n ?_)) {}).imp ?_)
      · exact mem_append_left _ mem
      · exact fun _ kept => (kept.2 1).trans (Nat.zero_add _)
    rw [joined, joined, joinedSeq_append_cons inner.breaks.1, joinedSeq_append_cons inner.breaks.2]
    simp only [bind_assoc, pure_bind]
    refine front.twin fun front same => (ih (each n (by simp))).bind fun _ _ inside =>
      .same fun after' => .pure ?_
    rw [← same]
    exact inside.seq front after'
  | tag name entries _ _ => cases fits with | tag markup => nomatch markup

end MarkupTemplate.Node
