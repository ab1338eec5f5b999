import MarkupTemplate.Node.Escaped
import MarkupTemplate.Node.Flat
import MarkupTemplate.Node.Markup
import MarkupTemplate.Proofs.Node.Grammar

/-!
# Markup as text, escaping and flat trees

Writing markup as text leaves no tags, comments, attributes and document types, and never fails on a
tree whose attributes are merged. Applying escaping leaves core nodes only, and the last two passes
keep them.
-/

namespace MarkupTemplate.Node

open Markup (breakNodes)

variable {format : Format}

/-! ## Markup -/

theorem markupAll_eq (o : Options) (place : Markup.Place) (s : Markup.Progress) (ns : List Node) :
    markupAll o place s ns = thread (markup o place) s ns := by
  induction ns generalizing s with
  | nil => rfl
  | cons n ns ih => simp only [markupAll, thread, ih]

/-- Text that a step adds: it takes up no lines. -/
def IsAdded (format : Format) (ns : List Node) : Prop :=
  (∀ n ∈ ns, Fits .written format .tree n) ∧ ∀ feed, extentOf feed ns = 0

theorem isAdded_nil : IsAdded format [] :=
  ⟨.nil, fun _ => rfl⟩

variable {ns : List Node} {n : Node} {p : Place}

theorem isAdded_static (text : Text) (added : IsAdded format ns) :
    IsAdded format (.static text :: ns) :=
  ⟨.cons (.static rfl text) added.1, fun feed => by simp [added.2 feed, Leaf.extent]⟩

theorem isAdded_breakNodes (format : Format) (wanted : Bool) (indent : Nat) (place : Markup.Place)
    (s : Markup.Progress) : IsAdded format (breakNodes wanted indent place s).1 := by
  unfold breakNodes
  split
  · exact isAdded_static _ isAdded_nil
  · exact isAdded_nil

theorem around_keeps {f : Frame} {n' : Node} {start : List Node} (text text' : Text)
    (added : IsAdded format start)
    (bare : ∀ feed, f.extent feed = 0) (kept : Keeps .written format .tree n n') :
    Keeps .written format .tree (.frame f n)
      (.seq (start ++ [.static text, n', .static text'])) := by
  refine ⟨.seq rfl (.append added.1 (.cons (.static rfl text) (.cons kept.fits
    (.cons (.static rfl text') .nil)))), ?_⟩
  intro feed
  simp [added.2 feed, bare feed, kept.extent feed, Leaf.extent]

theorem markup_keeps {o : Options} (fits : Fits .merged o.format p n) (top : p = .tree)
    (place : Markup.Place) (s : Markup.Progress) :
    Yields (fun r => Keeps .written o.format .tree n r.1) (fun _ => False)
    (n.markup o place s) := by
  induction fits generalizing place s with
  | @leaf p l nested allowed =>
    cases l with
    | newline | static | dynamic | code => exact ⟨.leaf rfl rfl, fun _ => rfl⟩
    | doctype kind =>
      have declared : (Doctype.declaration? o.format kind).isSome := by
        simpa [Kinds.leaf, Kinds.merged] using allowed
      obtain ⟨declaration, found⟩ := Option.isSome_iff_exists.mp declared
      have added := isAdded_breakNodes o.format place.pretty o.indent place s
      rw [markup, found]
      generalize breakNodes place.pretty o.indent place s = broken at added
      obtain ⟨start, s⟩ := broken
      refine ⟨.seq rfl (.append added.1 (.cons (.static rfl _) .nil)), fun feed => ?_⟩
      simp [added.2 feed, Leaf.extent]
    | _ => cases allowed
  | @frame p f inner nested allowed _ ih =>
    cases f with
    | attr name | shortcut name =>
      refine (ih top place s).bind ?_
      rintro ⟨inner, s⟩ kept
      exact around_keeps _ _ isAdded_nil (fun _ => rfl) kept
    | comment | condComment condition =>
      have added := isAdded_breakNodes o.format place.pretty o.indent place s
      rw [markup]
      generalize breakNodes place.pretty o.indent place s = broken at added
      obtain ⟨start, s⟩ := broken
      refine (ih top _ _).bind ?_
      rintro ⟨inner, s⟩ kept
      exact around_keeps _ _ added (fun _ => rfl) kept
    | trim side =>
      rw [markup]
      refine (ih top place (s.trimming side)).imp ?_
      rintro ⟨inner, s⟩ kept
      exact ⟨kept.fits, fun feed => by simp [kept.extent feed, Frame.extent]⟩
    | escape | block | capture =>
      refine (ih top place s).bind ?_
      rintro ⟨inner, s⟩ kept
      exact ⟨.frame rfl allowed kept.fits, fun feed => by simp [kept.extent feed]⟩
    | _ => cases allowed
  | seq nested _ ih =>
    rw [markup, markupAll_eq]
    refine (Yields.thread (fun n mem => ih n mem top place) s).bind ?_
    rintro ⟨children, s⟩ kept
    obtain ⟨fits, extent⟩ := Keeps.all kept
    exact ⟨.seq rfl fits, fun feed => by simp [extent feed]⟩
  | @closed name entries allowed _ ih =>
    rw [markup]
    generalize broken : breakNodes _ o.indent place _ = start
    have added : IsAdded o.format start.1 := broken ▸ isAdded_breakNodes o.format _ _ _ _
    obtain ⟨start, s⟩ := start
    have inside := Yields.thread (fun n mem => ih n mem rfl place) s.written
    rw [← markupAll_eq] at inside
    refine inside.bind ?_
    rintro ⟨entries, s⟩ kept
    obtain ⟨fits, extent⟩ := Keeps.all kept
    refine ⟨.seq rfl (.append added.1 (.cons (.static rfl _) (.cons (.seq rfl fits)
      (.cons (.static rfl _) .nil)))), fun feed => ?_⟩
    simp [added.2 feed, extent feed, Leaf.extent]
  | @tag name entries body allowed _ _ ihEntries ihBody =>
    rw [markup]
    generalize broken : breakNodes _ o.indent place _ = start
    have added : IsAdded o.format start.1 := broken ▸ isAdded_breakNodes o.format _ _ _ _
    obtain ⟨start, s⟩ := start
    have inside := Yields.thread (fun n mem => ihEntries n mem rfl place) s.written
    rw [← markupAll_eq] at inside
    refine inside.bind ?_
    rintro ⟨entries, s⟩ kept
    obtain ⟨fits, extent⟩ := Keeps.all kept
    simp only
    split
    · refine (ihBody rfl place s).bind ?_
      rintro ⟨body, s⟩ keptBody
      refine ⟨.seq rfl (.append added.1 (.cons (.static rfl _) (.cons (.seq rfl fits)
        (.cons (.static rfl _) (.cons keptBody.fits .nil))))), fun feed => ?_⟩
      simp [added.2 feed, extent feed, keptBody.extent feed, Leaf.extent]
    · refine (ihBody rfl _ _).bind ?_
      rintro ⟨body, s⟩ keptBody
      generalize closing : breakNodes _ o.indent place s = close
      have addedClose : IsAdded o.format close.1 := closing ▸ isAdded_breakNodes o.format _ _ _ _
      obtain ⟨close, s⟩ := close
      refine ⟨.seq rfl (.append (.append (.append added.1 (.cons (.static rfl _)
        (.cons (.seq rfl fits) (.cons (.static rfl _) (.cons keptBody.fits .nil)))))
        addedClose.1) (.cons (.static rfl _) .nil)), fun feed => ?_⟩
      simp [added.2 feed, addedClose.2 feed, extent feed, keptBody.extent feed, Leaf.extent]
  | _ => cases top

/-! ## Escaping -/

theorem escapedAll_eq (byDefault : Bool) (on? : Option Bool) (ns : List Node) :
    escapedAll byDefault on? ns = ns.mapM (escaped byDefault on?) :=
  eq_mapM (escapedAll byDefault on?) rfl (fun _ _ => rfl) ns

theorem count_escapedCode (byDefault : Bool) (on? : Option Bool) (source : Text) :
    (escapedCode byDefault on? source).count '\n' = source.count '\n' := by
  unfold escapedCode
  split
  · rw [List.count_append, List.count_append]
    have start : "_hamlc_escape((".toList.count '\n' = 0 := by decide
    have stop : "))".toList.count '\n' = 0 := by decide
    omega
  · rfl

theorem escaped_keeps (byDefault : Bool) (fits : Fits .written format p n) (top : p = .tree)
    (on? : Option Bool) :
    Yields (Keeps .core format .tree n) (fun _ => False) (n.escaped byDefault on?) := by
  induction fits generalizing on? with
  | @leaf p l nested allowed =>
    cases l with
    | newline | static | code => exact ⟨.leaf rfl rfl, fun _ => rfl⟩
    | dynamic source =>
      exact ⟨.leaf rfl rfl, fun feed => by simp [Leaf.extent, count_escapedCode]⟩
    | _ => cases allowed
  | @frame p f inner nested allowed _ ih =>
    cases f with
    | escape on =>
      rw [escaped]
      refine (ih top (some on)).imp ?_
      intro inner kept
      exact ⟨kept.fits, fun feed => by simp [kept.extent feed, Frame.extent]⟩
    | capture name =>
      refine (ih top none).bind ?_
      intro body kept
      exact ⟨.frame rfl allowed kept.fits, fun feed => by simp [kept.extent feed]⟩
    | block =>
      refine (ih top on?).bind ?_
      intro body kept
      exact ⟨.block rfl kept.fits, fun feed => by simp [kept.extent feed]⟩
    | _ => cases allowed
  | seq nested _ ih =>
    rw [escaped, escapedAll_eq]
    refine (Yields.mapM fun n mem => ih n mem top on?).bind ?_
    intro children kept
    obtain ⟨fits, extent⟩ := Keeps.all kept
    exact ⟨.seq rfl fits, fun feed => by simp [extent feed]⟩
  | closed markup | tag markup => cases markup
  | _ => cases top

/-! ## Flat trees -/

theorem flattenedAll_eq (ns : List Node) : flattenedAll ns = ns.mapM flattened :=
  eq_mapM flattenedAll rfl (fun _ _ => rfl) ns

theorem fits_spliced (fits : Fits .core format .tree n) :
    ∀ m ∈ n.spliced, Fits .core format .tree m := by
  unfold spliced
  split
  next children =>
    cases fits with
    | seq _ fits => exact fits
  next => exact .cons fits .nil

theorem extentOf_spliced (feed : Nat) (ns : List Node) :
    extentOf feed (ns.flatMap spliced) = extentOf feed ns := by
  have one : ∀ n : Node, extentOf feed n.spliced = n.extent feed := by
    intro n
    unfold spliced
    split <;> simp
  induction ns with
  | nil => rfl
  | cons n ns ih => simp [one, ih]

/-- A step on core nodes that changes sequences only. -/
theorem keeps_of_seq {step : Node → Except Failure Node}
    (leaf : ∀ l ≠ .unknown, step (.leaf l) = .ok (.leaf l))
    (frame : ∀ f inner, step (.frame f inner) = do return .frame f (← step inner))
    (seq : ∀ ns, (∀ n ∈ ns, Yields (Keeps .core format .tree n) (fun _ => False) (step n)) →
      Yields (Keeps .core format .tree (.seq ns)) (fun _ => False) (step (.seq ns)))
    (fits : Fits .core format p n) (top : p = .tree) :
    Yields (Keeps .core format .tree n) (fun _ => False) (step n) := by
  induction fits with
  | @leaf p l nested allowed =>
    have known : l ≠ .unknown := by
      rintro rfl
      nomatch allowed
    rw [leaf l known]
    exact ⟨.leaf rfl allowed, fun _ => rfl⟩
  | frame nested allowed _ ih =>
    rw [frame]
    refine (ih top).bind ?_
    intro inner kept
    exact ⟨.frame rfl allowed kept.fits, fun feed => by simp [kept.extent feed]⟩
  | seq nested _ ih => exact seq _ fun n mem => ih n mem top
  | closed markup | tag markup => nomatch markup
  | _ => nomatch top

theorem flattened_keeps (fits : Fits .core format .tree n) :
    Yields (Keeps .core format .tree n) (fun _ => False) n.flattened := by
  refine keeps_of_seq (fun l known => by cases l <;> trivial) (fun _ _ => rfl) ?_ fits rfl
  intro ns each
  rw [flattened, flattenedAll_eq]
  refine (Yields.mapM each).bind ?_
  intro children kept
  obtain ⟨fits, extent⟩ := Keeps.all kept
  refine ⟨.seq rfl ?_, fun feed => by simp [extentOf_spliced, extent feed]⟩
  intro m mem
  obtain ⟨n, found, inside⟩ := List.mem_flatMap.mp mem
  exact fits_spliced (fits n found) m inside

theorem fits_run (r : Run) : ∀ n ∈ r.nodes, Fits .core format .tree n := by
  unfold Run.nodes
  refine .append ?_ (.newlines rfl r.marks)
  split
  · exact .nil
  · exact .nil
  · exact .cons (.static rfl _) .nil

theorem extentOf_run (feed : Nat) (r : Run) : extentOf feed r.nodes = r.marks := by
  unfold Run.nodes
  rw [extentOf_append, extentOf_replicate]
  split
  · simp
  · simp
  · simp [Leaf.extent]

/-- Whether a node ends the run of static texts in front of it. -/
def breaksRun : Node → Bool
  | .leaf (.static _) | .leaf .newline => false
  | _ => true

theorem joinedSeq_of_breaks (breaks : n.breaksRun) (ns : List Node) (r : Run) :
    joinedSeq r (n :: ns) = do
      let n ← joined n
      let ns ← joinedSeq {} ns
      return r.nodes ++ n :: ns := by
  rw [joinedSeq.eq_def r (n :: ns)]
  simp only
  split
  next => simp [breaksRun] at breaks
  next => simp [breaksRun] at breaks
  next => rfl

/-- What is in front of a node that ends a run is joined by itself. -/
theorem joinedSeq_append_cons (breaks : n.breaksRun) (before after : List Node) (r : Run) :
    joinedSeq r (before ++ n :: after) = do
      let before ← joinedSeq r before
      let n ← joined n
      let after ← joinedSeq {} after
      return before ++ n :: after := by
  induction before generalizing r with
  | nil => exact joinedSeq_of_breaks breaks after r
  | cons first before ih =>
    by_cases ends : first.breaksRun
    · rw [List.cons_append, joinedSeq_of_breaks ends, joinedSeq_of_breaks ends]
      simp [ih]
    · unfold breaksRun at ends
      split at ends
      next text => exact ih (r.addText text)
      next =>
        rw [List.cons_append, joinedSeq, joinedSeq]
        split
        · exact ih _
        · simp [ih]
      next => exact absurd rfl ends

/-- The line marks of a run come behind its text. -/
theorem joinedSeq_keeps (each : ∀ n ∈ ns, Yields (Keeps .core format .tree n)
    (fun _ => False) n.joined) (r : Run) :
    Yields (fun ns' => (∀ n ∈ ns', Fits .core format .tree n) ∧
        ∀ feed, extentOf feed ns' = r.marks + extentOf feed ns)
      (fun _ => False) (joinedSeq r ns) := by
  induction ns generalizing r with
  | nil => exact ⟨fits_run r, fun feed => by simp [extentOf_run]⟩
  | cons n ns ih =>
    have first := each n (.head _)
    have rest := fun r => ih (fun m mem => each m (.tail _ mem)) r
    unfold joinedSeq
    split
    next text =>
      refine (rest (r.addText text)).imp ?_
      intro ns' kept
      exact ⟨kept.1, fun feed => by simp [kept.2 feed, Run.addText, Leaf.extent]⟩
    next =>
      split
      · refine (rest { r with marks := r.marks + 1 }).imp ?_
        intro ns' kept
        refine ⟨kept.1, fun feed => ?_⟩
        simp only [kept.2 feed, extentOf_cons, extent_leaf, Leaf.extent]
        omega
      · refine (rest {}).bind ?_
        intro ns' kept
        refine ⟨.append (fits_run r) (.cons (.newline rfl) kept.1), fun feed => ?_⟩
        simp [kept.2 feed, extentOf_run]
    next =>
      refine first.bind ?_
      intro n' keptFirst
      refine (rest {}).bind ?_
      intro ns' kept
      refine ⟨.append (fits_run r) (.cons keptFirst.fits kept.1), fun feed => ?_⟩
      simp [kept.2 feed, keptFirst.extent feed, extentOf_run]

theorem joined_keeps (fits : Fits .core format .tree n) :
    Yields (Keeps .core format .tree n) (fun _ => False) n.joined := by
  refine keeps_of_seq (fun l known => by cases l <;> trivial) (fun _ _ => rfl) ?_ fits rfl
  intro ns each
  refine (joinedSeq_keeps each {}).bind ?_
  intro children kept
  exact ⟨.seq rfl kept.1, fun feed => by simp [kept.2 feed]⟩

end MarkupTemplate.Node
