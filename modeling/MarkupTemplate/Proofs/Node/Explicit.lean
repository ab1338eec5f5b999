import MarkupTemplate.Proofs.Node.Differ
import MarkupTemplate.Proofs.Node.Written

/-!
# Explicit and default escaping

An output that asks for escaping is an output by default inside a switch. With escaping on by
default the two mean the same if what is nested below is captured or empty, or put under a switch of
its own (`Explicit`). Up to the step that makes statements of output lines two such trees differ by
an `Explicit` place, behind it by a `Lowered` one, and once escaping is applied they are equal.
-/

namespace MarkupTemplate.Node

open Embedded (Registry EngineM)

/-! ## The two places -/

/-- An output that asks for escaping, and one that means the same with escaping on by default. -/
inductive Explicit (noCapture : Bool) : Node → Node → Prop where
  | captured (source : Text) (body : Node) : noCapture = false →
    Explicit noCapture (.escape true (.output true source body)) (.output true source body)
  | empty (source : Text) {body : Node} : body.isEmpty →
    Explicit noCapture (.escape true (.output true source body)) (.output true source body)
  | inline (source : Text) (body : Node) : noCapture →
    Explicit noCapture (.escape true (.output true source body))
    (.output true source (.escape true body))

/-- The statements of such outputs. -/
inductive Lowered : Node → Node → Prop where
  | captured (temp assignment source : Text) (body : Node) :
    Lowered (.escape true (.seq [.capture temp body, .code assignment, .dynamic source]))
      (.seq [.capture temp body, .code assignment, .dynamic source])
  | empty (source : Text) {body : Node} : body.isEmpty →
    Lowered (.escape true (.seq [.dynamic source, body])) (.seq [.dynamic source, body])
  | inline (source : Text) (body : Node) :
    Lowered (.escape true (.seq [.dynamic source, body]))
    (.seq [.dynamic source, .escape true body])

variable {noCapture : Bool} {x y n n' : Node}

theorem Explicit.isEmpty_eq (here : Explicit noCapture x y) :
    x.isEmpty = false ∧ y.isEmpty = false := by
  cases here with
  | captured | empty | inline => exact ⟨rfl, rfl⟩

theorem Lowered.isEmpty_eq (here : Lowered x y) : x.isEmpty = false ∧ y.isEmpty = false := by
  cases here with
  | captured | empty | inline => exact ⟨rfl, rfl⟩

section Descends

variable {m : Type → Type} [Monad m] [LawfulMonad m] {pass : Node → m Node}
  {all : List Node → m (List Node)}

theorem Descends.explicit (descends : Descends pass all) (here : Explicit noCapture x y) :
    Twin (Explicit noCapture) (pass x) (pass y) := by
  cases here with
  | captured source body captures =>
    simp only [descends.frame _ _ (rfl : (Frame.escape true).isClear),
      descends.frame _ _ (rfl : (Frame.output true source).isClear), bind_assoc, pure_bind]
    exact .same fun body => .pure (.captured source body captures)
  | @empty source body empty =>
    simp only [descends.frame _ _ (rfl : (Frame.escape true).isClear),
      descends.frame _ _ (rfl : (Frame.output true source).isClear), pure_bind,
        descends.isEmpty empty]
    exact .pure (.empty source empty)
  | inline source body inside =>
    simp only [descends.frame _ _ (rfl : (Frame.escape true).isClear),
      descends.frame _ _ (rfl : (Frame.output true source).isClear), bind_assoc, pure_bind]
    exact .same fun body => .pure (.inline source body inside)

/-- Statements of an output are kept apart by a pass that goes through switches and captures and
keeps statements and outputs, whatever else it does at an output. -/
theorem Sequences.lowered (sequences : Sequences pass all)
    (code : ∀ source, pass (.code source) = pure (.code source))
    (act : m Unit)
    (dynamic : ∀ source, pass (.dynamic source) = act >>= fun _ => pure (.dynamic source))
    (switch : ∀ n, pass (.escape true n) = pass n >>= fun n => pure (.escape true n))
    (capture : ∀ temp n, pass (.capture temp n) = pass n >>= fun n => pure (.capture temp n))
    (here : Lowered x y) : Twin Lowered (pass x) (pass y) := by
  cases here with
  | captured temp assignment source body =>
    simp only [switch, sequences.seq, sequences.cons, sequences.nil, dynamic, code, capture,
      bind_assoc, pure_bind]
    exact .same fun body => .same fun _ => .pure (.captured temp assignment source body)
  | empty source empty =>
    simp only [switch, sequences.seq, sequences.cons, sequences.nil, dynamic,
      sequences.isEmpty empty, bind_assoc,
      pure_bind]
    exact .same fun _ => .pure (.empty source empty)
  | inline source body =>
    simp only [switch, sequences.seq, sequences.cons, sequences.nil, dynamic, bind_assoc, pure_bind]
    exact .same fun _ => .same fun body => .pure (.inline source body)

theorem Descends.lowered (descends : Descends pass all) (here : Lowered x y) :
    Twin Lowered (pass x) (pass y) :=
  descends.toSequences.lowered descends.code (pure ())
    (fun source => by rw [pure_bind, descends.dynamic])
    (fun n => descends.frame _ n rfl) (fun _ n => descends.frame _ n rfl) here

theorem Descends.explicit_differ (descends : Descends pass all)
    (differ : Differ (Explicit noCapture) n n') :
    Twin (Differ (Explicit noCapture)) (pass n) (pass n') :=
  descends.differ (fun _ _ here => here.isEmpty_eq) (fun _ _ here => descends.explicit here) differ

theorem Descends.lowered_differ (descends : Descends pass all) (differ : Differ Lowered n n') :
    Twin (Differ Lowered) (pass n) (pass n') :=
  descends.differ (fun _ _ here => here.isEmpty_eq) (fun _ _ here => descends.lowered here) differ

end Descends

/-! ## Passes that go through the tree -/

theorem rendered_descends (o : Options) (r : Registry) :
    Descends (rendered o r) (renderedAll o r) where
  newline := rfl
  nil := rfl
  cons _ _ := rfl
  seq _ := rfl
  tag _ entries := ⟨renderedAll o r entries, fun _ => rfl⟩
  code _ := rfl
  dynamic _ := rfl
  frame f n clear := by
    cases f with
    | embedded name => nomatch clear
    | _ => rfl

theorem interpolated_descends : Descends interpolated interpolatedAll where
  newline := rfl
  nil := rfl
  cons _ _ := rfl
  seq _ := rfl
  tag _ entries := ⟨interpolatedAll entries, fun _ => rfl⟩
  code _ := rfl
  dynamic _ := rfl
  frame _ _ _ := rfl

theorem overridden_descends (names : List Text) :
    Descends (overridden names) (overriddenAll names) where
  newline := rfl
  nil := rfl
  cons _ _ := rfl
  seq _ := rfl
  tag _ entries := ⟨Attribute.overrideList names entries, fun _ => rfl⟩
  code _ := rfl
  dynamic _ := rfl
  frame _ _ _ := rfl

theorem sorted_descends (keys : List Text) : Descends (sorted keys) (sortedAll keys) where
  newline := rfl
  nil := rfl
  cons _ _ := rfl
  seq _ := rfl
  tag _ entries := ⟨Attribute.sortList keys entries, fun _ => rfl⟩
  code _ := rfl
  dynamic _ := rfl
  frame _ _ _ := rfl

/-- A step that counts variables, as a computation with a state. -/
abbrev Counting := StateT Nat (Except Failure)

theorem attributed_descends (o : Options) :
    Descends (m := Counting) (fun n used => n.attributed o used)
    (fun ns used => attributedAll o used ns) where
  newline := rfl
  nil := rfl
  cons _ _ := rfl
  seq _ := rfl
  tag _ entries := ⟨fun used => Attribute.mergeList o used entries, fun _ => rfl⟩
  code _ := rfl
  dynamic _ := rfl
  frame _ _ _ := rfl

/-! ## Control and output lines -/

/-- Makes statements of control and output lines, as a computation that counts variables. -/
def lowered (noCapture : Bool) (n : Node) : Counting Node :=
  fun used => n.controlled noCapture used

theorem lowered_walks (noCapture : Bool) :
    Walks (lowered noCapture) (fun ns used => controlledAll noCapture used ns) where
  newline := rfl
  nil := rfl
  cons _ _ := rfl
  seq _ := rfl
  tag _ entries := ⟨fun used => controlledAll noCapture used entries, fun _ => rfl⟩

variable {body : Node} {related : Node → Node → Prop} {on? : Option Bool}

theorem lowered_inline (escaped : Bool) (source : Text)
    (inline : (body.isEmpty || noCapture) = true) :
    lowered noCapture (.output escaped source body) =
      lowered noCapture body >>= fun body => pure (.seq [putOut escaped source, body]) := by
  funext used
  rw [lowered, controlled, if_pos inline]
  rfl

/-- The number of the variable is taken before those inside the capture. -/
theorem lowered_captured (escaped : Bool) (source : Text)
    (captures : (body.isEmpty || noCapture) = false) :
    lowered noCapture (.output escaped source body) =
      getModify (· + 1) >>= fun used => lowered noCapture body >>= fun body =>
        pure (captured escaped source (Control.tempName (used + 1)) body) := by
  funext used
  rw [lowered, controlled, if_neg (by simp [captures])]
  rfl

theorem differ_statement (source : Text) (inside : Differ related n n') :
    Differ related (statement source n) (statement source n') := by
  unfold statement
  split
  · exact .seq [.code (Control.suiteHeader source)] [] (.frame rfl inside)
  · exact .seq [.code source] [] inside

theorem lowered_frame (f : Frame) (clear : f.isClear) (same : n.isEmpty = n'.isEmpty)
    (twin : Twin (Differ related) (lowered noCapture n) (lowered noCapture n')) :
    Twin (Differ related) (lowered noCapture (.frame f n)) (lowered noCapture (.frame f n')) := by
  cases f with
  | embedded name => nomatch clear
  | control source => exact twin.bind fun _ _ inside => .pure (differ_statement source inside)
  | output escaped source =>
    cases inline : n.isEmpty || noCapture with
    | true =>
      rw [lowered_inline escaped source inline, lowered_inline escaped source (same ▸ inline)]
      exact twin.bind fun _ _ inside => .pure (.seq [putOut escaped source] [] inside)
    | false =>
      rw [lowered_captured escaped source inline, lowered_captured escaped source (same ▸ inline)]
      exact .same fun used => twin.bind fun _ _ inside => .pure (.seq [] _ (.frame rfl inside))
  | _ => exact twin.bind fun _ _ inside => .pure (.frame clear inside)

theorem lowered_explicit (here : Explicit noCapture x y) :
    Twin Lowered (lowered noCapture x) (lowered noCapture y) := by
  have switch : ∀ n, lowered noCapture (.escape true n) = lowered noCapture n >>= fun n =>
    pure (.escape true n) :=
    fun _ => rfl
  have empty : ∀ (source : Text) {body : Node}, body.isEmpty → Twin Lowered
      (lowered noCapture (.escape true (.output true source body)))
        (lowered noCapture (.output true source body)) := by
    intro source body empty
    rw [switch, lowered_inline true source (by simp [empty]),
      (lowered_walks noCapture).isEmpty empty, pure_bind,
      pure_bind]
    exact .pure (.empty source empty)
  cases here with
  | empty source inside => exact empty source inside
  | captured source body captures =>
    cases inside : body.isEmpty with
    | true => exact empty source inside
    | false =>
      rw [switch, lowered_captured true source (by simp [inside, captures]), bind_assoc]
      refine .same fun used => ?_
      rw [bind_assoc]
      exact .same fun body => .pure (.captured _ _ source body)
  | inline source body inside =>
    rw [switch, lowered_inline true source (by simp [inside]),
      lowered_inline true source (by simp [inside]), switch,
      bind_assoc, bind_assoc]
    exact .same fun body => .pure (.inline source body)

theorem lowered_differ (differ : Differ (Explicit noCapture) n n') :
    Twin (Differ Lowered) (lowered noCapture n) (lowered noCapture n') :=
  (lowered_walks noCapture).differ (fun _ _ here => here.isEmpty_eq)
    (fun _ _ here => (lowered_explicit here).mono fun _ _ => .here)
    (fun f _ _ clear same twin => lowered_frame f clear same twin) differ

/-! ## Markup -/

/-- Writes markup as text, as a computation that goes along with what is written. -/
def writing (o : Options) (place : Markup.Place) (n : Node) :
    StateT Markup.Progress (Except Failure) Node :=
  fun s => n.markup o place s

theorem writing_sequences (o : Options) (place : Markup.Place) :
    Sequences (writing o place) (fun ns s => markupAll o place s ns) where
  newline := rfl
  nil := rfl
  cons _ _ := rfl
  seq _ := rfl

theorem writing_lowered (o : Options) (place : Markup.Place) (here : Lowered x y) :
    Twin Lowered (writing o place x) (writing o place y) :=
  (writing_sequences o place).lowered (fun _ => rfl) (modify Markup.Progress.written) (fun _ => rfl)
    (fun _ => rfl) (fun _ _ => rfl) here

theorem differ_between (before : List Node) (opened closed : Node) (inside : Differ related n n') :
    Differ related (.seq (before ++ [opened, n, closed]))
    (.seq (before ++ [opened, n', closed])) := by
  simpa using Differ.seq (before ++ [opened]) [closed] inside

theorem differ_element (before after : List Node) (opened entries ended closed : Node)
    (inside : Differ related n n') :
    Differ related (.seq (before ++ [opened, entries, ended, n] ++ after ++ [closed]))
      (.seq (before ++ [opened, entries, ended, n'] ++ after ++ [closed])) := by
  simpa using Differ.seq (before ++ [opened, entries, ended]) (after ++ [closed]) inside

theorem writing_frame (o : Options) (f : Frame) (clear : f.isClear)
    (twin : ∀ place, Twin (Differ related) (writing o place n) (writing o place n'))
    (place : Markup.Place) :
    Twin (Differ related) (writing o place (.frame f n)) (writing o place (.frame f n')) := by
  refine twin_iff.mpr fun s => ?_
  cases f with
  | embedded name => nomatch clear
  | attr name | shortcut name =>
    refine (twin_iff.mp (twin place) s).bind ?_
    rintro ⟨n, s⟩ ⟨n', _⟩ ⟨inside, rfl⟩
    exact .ok ⟨differ_between [] _ _ inside, rfl⟩
  | comment | condComment condition =>
    refine (twin_iff.mp (twin _) _).bind ?_
    rintro ⟨n, s⟩ ⟨n', _⟩ ⟨inside, rfl⟩
    exact .ok ⟨differ_between _ _ _ inside, rfl⟩
  | trim side => exact twin_iff.mp (twin place) (s.trimming side)
  | _ =>
    refine (twin_iff.mp (twin place) s).bind ?_
    rintro ⟨n, s⟩ ⟨n', _⟩ ⟨inside, rfl⟩
    exact .ok ⟨.frame clear inside, rfl⟩

theorem writing_tag (o : Options) (name : Text) (entries : List Node)
    (filled : n.isEmpty = false ∧ n'.isEmpty = false)
    (twin : ∀ place, Twin (Differ related) (writing o place n) (writing o place n'))
    (place : Markup.Place) : Twin (Differ related) (writing o place (.tag name entries (some n)))
      (writing o place (.tag name entries (some n'))) := by
  refine twin_iff.mpr fun s => ?_
  simp only [writing, markup, filled, Bool.and_false, Bool.false_eq_true, if_false]
  refine .same ?_
  rintro ⟨entries, s₁⟩
  refine (twin_iff.mp (twin _) _).bind ?_
  rintro ⟨m, s₂⟩ ⟨m', _⟩ ⟨inside, rfl⟩
  exact .ok ⟨differ_element _ _ _ _ _ _ inside, rfl⟩

theorem writing_differ (o : Options) (differ : Differ Lowered n n') (place : Markup.Place) :
    Twin (Differ Lowered) (writing o place n) (writing o place n') := by
  induction differ generalizing place with
  | here here => exact (writing_lowered o place here).mono fun _ _ => .here
  | frame clear _ ih => exact writing_frame o _ clear ih place
  | seq before after _ ih => exact (writing_sequences o place).differ before after (ih place)
  | tag name entries inner ih =>
    exact writing_tag o name entries (inner.isEmpty_eq fun _ _ here => here.isEmpty_eq) ih place

/-! ## Escaping -/

theorem escaped_sequences (byDefault : Bool) (on? : Option Bool) :
    Sequences (escaped byDefault on?) (escapedAll byDefault on?) where
  newline := rfl
  nil := rfl
  cons _ _ := rfl
  seq _ := rfl

theorem escaped_lowered (on : on?.getD true) (here : Lowered x y) :
    escaped true on? x = escaped true on? y := by
  have output : ∀ source, escapedCode true on? source = escapedCode true (some true) source := by
    intro source
    simp [escapedCode, on]
  cases here with
  | captured temp assignment source body | inline source body => simp [escaped, escapedAll, output]
  | @empty source body empty =>
    have kept : ∀ on?, escaped true on? body = .ok body :=
      fun on? => (escaped_sequences true on?).isEmpty empty
    simp [escaped, escapedAll, output, kept]

theorem escaped_differ (on : on?.getD true) (differ : Differ Lowered n n') :
    escaped true on? n = escaped true on? n' := by
  induction differ generalizing on? with
  | here here => exact escaped_lowered on here
  | @frame f _ _ clear _ ih =>
    cases f with
    | embedded name => nomatch clear
    | escape switch => exact ih (show (some switch).getD true from clear)
    | capture name => rw [escaped, escaped, ih rfl]
    | _ => simp only [escaped, ih on]
  | seq before after _ ih =>
    simp only [escaped, escapedAll_eq, List.mapM_append, List.mapM_cons, ih on]
  | tag name entries _ ih => rw [escaped, escaped, ih on]

end MarkupTemplate.Node
