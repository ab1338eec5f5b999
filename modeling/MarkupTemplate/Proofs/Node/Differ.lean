import MarkupTemplate.Attribute.Merged
import MarkupTemplate.Attribute.Override
import MarkupTemplate.Embedded.Registry
import MarkupTemplate.Node.Controlled
import MarkupTemplate.Node.Escaped
import MarkupTemplate.Node.Markup
import MarkupTemplate.Proofs.Node.Walk

/-!
# Trees that differ in one place

A `Context` is a tree with one place left open. Two trees `Differ` if they are the same context
around two related nodes. Most passes work on each node by itself, so only what they do at the place
has to be looked at (`Walks.differ`). `Twin` says of two computations in any monad that they do the
same with related results.
-/

namespace MarkupTemplate

/-! ## Two computations -/

/-- Two computations do the same, and what they give is related. -/
def Twin {m : Type → Type} [Monad m] {α β : Type} (related : α → β → Prop) (x : m α) (y : m β) :
    Prop :=
  ∃ both : m { p : α × β // related p.1 p.2 },
    x = (do let p ← both; pure p.1.1) ∧ y = (do let p ← both; pure p.1.2)

namespace Twin

variable {m : Type → Type} [Monad m] [LawfulMonad m] {α β α' β' : Type}
variable {related : α → β → Prop} {related' : α' → β' → Prop}

theorem pure {a : α} {b : β} (here : related a b) :
    Twin related (Pure.pure a : m α) (Pure.pure b : m β) :=
  ⟨Pure.pure ⟨(a, b), here⟩, by simp, by simp⟩

theorem bind {x : m α} {y : m β} {f : α → m α'} {g : β → m β'} (twin : Twin related x y)
    (next : ∀ a b, related a b → Twin related' (f a) (g b)) :
    Twin related' (x >>= f) (y >>= g) := by
  obtain ⟨both, rfl, rfl⟩ := twin
  choose after first second using fun p : { p : α × β // related p.1 p.2 } => next p.1.1 p.1.2 p.2
  refine ⟨both >>= after, ?_, ?_⟩
  · simp [first]
  · simp [second]

theorem refl (x : m α) : Twin Eq x x :=
  ⟨x >>= fun a => Pure.pure ⟨(a, a), rfl⟩, by simp, by simp⟩

theorem same {x : m α} {f : α → m α'} {g : α → m β'} (next : ∀ a, Twin related' (f a) (g a)) :
    Twin related' (x >>= f) (x >>= g) := by
  refine (refl x).bind ?_
  rintro a _ rfl
  exact next a

theorem mono {weaker : α → β → Prop} {x : m α} {y : m β} (twin : Twin related x y)
    (each : ∀ a b, related a b → weaker a b) : Twin weaker x y := by
  have ended := twin.bind (f := Pure.pure) (g := Pure.pure) fun a b here => pure (each a b here)
  simpa using ended

end Twin

/-- With a state, two computations do the same if they do from every state. -/
theorem twin_iff {ε σ α β : Type} {related : α → β → Prop} {x : StateT σ (Except ε) α}
    {y : StateT σ (Except ε) β} :
    Twin related x y ↔ ∀ s, Concur (fun r r' => related r.1 r'.1 ∧ r.2 = r'.2) (x s) (y s) := by
  constructor
  · rintro ⟨both, rfl, rfl⟩ s
    show Concur _ (both s >>= fun r => .ok (r.1.1.1, r.2)) (both s >>= fun r => .ok (r.1.1.2, r.2))
    exact .same fun r => .ok ⟨r.1.2, rfl⟩
  · intro each
    have joined : ∀ s, ∃ both : Except ε ({ p : α × β // related p.1 p.2 } × σ),
        x s = (both >>= fun r => .ok (r.1.1.1, r.2)) ∧
          y s = (both >>= fun r => .ok (r.1.1.2, r.2)) := by
      intro s
      have concur := each s
      generalize x s = here at concur
      generalize y s = there at concur
      cases concur with
      | error e => exact ⟨.error e, rfl, rfl⟩
      | @ok a b inside =>
        obtain ⟨a, s₁⟩ := a
        obtain ⟨b, s₂⟩ := b
        obtain ⟨here, rfl⟩ := inside
        exact ⟨.ok (⟨(a, b), here⟩, s₁), rfl, rfl⟩
    choose both first second using joined
    exact ⟨both, funext first, funext second⟩

/-! ## Contexts -/

/-- Whether a frame neither hands what is inside to an engine nor switches escaping off. -/
def Frame.isClear : Frame → Bool
  | .embedded _ => false
  | .escape on => on
  | _ => true

namespace Node

/-- A tree with one place left open. -/
inductive Context where
  | here
  | frame (f : Frame) (inner : Context)
  | seq (before : List Node) (inner : Context) (after : List Node)
  | tag (name : Text) (entries : List Node) (body : Context)

def Context.fill : Context → Node → Node
  | .here, n => n
  | .frame f inner, n => .frame f (inner.fill n)
  | .seq before inner after, n => .seq (before ++ inner.fill n :: after)
  | .tag name entries body, n => .tag name entries (some (body.fill n))

def Context.isClear : Context → Bool
  | .here => true
  | .frame f inner => f.isClear && inner.isClear
  | .seq _ inner _ => inner.isClear
  | .tag _ _ body => body.isClear

/-- Two trees are the same but for one place, where they are related. -/
inductive Differ (related : Node → Node → Prop) : Node → Node → Prop where
  | here {n n' : Node} : related n n' → Differ related n n'
  | frame {f : Frame} {n n' : Node} :
    f.isClear → Differ related n n' → Differ related (.frame f n) (.frame f n')
  | seq (before after : List Node) {n n' : Node} : Differ related n n' →
    Differ related (.seq (before ++ n :: after)) (.seq (before ++ n' :: after))
  | tag (name : Text) (entries : List Node) {n n' : Node} : Differ related n n' →
    Differ related (.tag name entries (some n)) (.tag name entries (some n'))

section Differ

variable {related related' : Node → Node → Prop} {n n' : Node}

theorem Context.differ {c : Context} (clear : c.isClear) {x y : Node} (here : related x y) :
    Differ related (c.fill x) (c.fill y) := by
  induction c with
  | here => exact .here here
  | frame f inner ih =>
    rw [isClear, Bool.and_eq_true] at clear
    exact .frame clear.1 (ih clear.2)
  | seq before inner after ih => exact .seq before after (ih clear)
  | tag name entries body ih => exact .tag name entries (ih clear)

theorem allEmpty_eq (ns : List Node) : allEmpty ns = ns.all isEmpty := by
  induction ns with
  | nil => rfl
  | cons n ns ih => rw [allEmpty, List.all_cons, ih]

theorem allEmpty_append (ns ms : List Node) :
    allEmpty (ns ++ ms) = (allEmpty ns && allEmpty ms) := by
  simp only [allEmpty_eq, List.all_append]

theorem Differ.isEmpty_eq (filled : ∀ x y, related x y → x.isEmpty = false ∧ y.isEmpty = false)
    (differ : Differ related n n') : n.isEmpty = false ∧ n'.isEmpty = false := by
  induction differ with
  | here here => exact filled _ _ here
  | frame | tag => exact ⟨rfl, rfl⟩
  | seq before after _ ih => simp [isEmpty, allEmpty_append, allEmpty, ih]

/-! ## Passes -/

variable {m : Type → Type} [Monad m]

/-- A pass that takes the nodes of a sequence one after the other. -/
structure Sequences (pass : Node → m Node) (all : List Node → m (List Node)) : Prop where
  newline : pass .newline = pure .newline
  nil : all [] = pure []
  cons : ∀ n ns, all (n :: ns) = do
    let n ← pass n
    let ns ← all ns
    pure (n :: ns)
  seq : ∀ ns, pass (.seq ns) = do
    let ns ← all ns
    pure (.seq ns)

/-- A pass that takes the body of a tag behind its entries. -/
structure Walks (pass : Node → m Node) (all : List Node → m (List Node)) :
    Prop extends Sequences pass all where
  tag : ∀ name entries, ∃ list : m (List Node), ∀ body, pass (.tag name entries (some body)) = do
    let entries ← list
    let body ← pass body
    pure (.tag name entries (some body))

/-- A pass that goes through clear frames and leaves statements and outputs as they are. -/
structure Descends (pass : Node → m Node) (all : List Node → m (List Node)) :
    Prop extends Walks pass all where
  code : ∀ source, pass (.code source) = pure (.code source)
  dynamic : ∀ source, pass (.dynamic source) = pure (.dynamic source)
  frame : ∀ (f : Frame) (n : Node), f.isClear → pass (.frame f n) = do
    let n ← pass n
    pure (.frame f n)

variable [LawfulMonad m] {pass : Node → m Node} {all : List Node → m (List Node)}

theorem Sequences.differ (sequences : Sequences pass all) (before after : List Node)
    (twin : Twin (Differ related) (pass n) (pass n')) :
    Twin (Differ related) (pass (.seq (before ++ n :: after)))
    (pass (.seq (before ++ n' :: after))) := by
  have list : Twin (fun ns ns' => ∃ before n n' after, Differ related n n' ∧
    ns = before ++ n :: after ∧
      ns' = before ++ n' :: after) (all (before ++ n :: after)) (all (before ++ n' :: after)) := by
    induction before with
    | nil =>
      rw [List.nil_append, List.nil_append, sequences.cons, sequences.cons]
      refine twin.bind fun n n' inside => .same fun after => .pure ?_
      exact ⟨[], n, n', after, inside, rfl, rfl⟩
    | cons first before ih =>
      rw [List.cons_append, List.cons_append, sequences.cons, sequences.cons]
      refine .same fun first => ih.bind ?_
      rintro _ _ ⟨before, n, n', after, inside, rfl, rfl⟩
      exact .pure ⟨first :: before, n, n', after, inside, rfl, rfl⟩
  rw [sequences.seq, sequences.seq]
  refine list.bind ?_
  rintro _ _ ⟨before, n, n', after, inside, rfl, rfl⟩
  exact .pure (.seq before after inside)

theorem Sequences.isEmpty (sequences : Sequences pass all) {n : Node} (empty : n.isEmpty) :
    pass n = pure n := by
  induction n using Node.induction with
  | leaf l =>
    have newline : l = .newline := by simpa [Node.isEmpty] using empty
    rw [newline, sequences.newline]
  | group g ns ih =>
    cases g with
    | attrs => nomatch empty
    | seq =>
      have list : all ns = pure ns := by
        rw [Node.isEmpty] at empty
        induction ns with
        | nil => exact sequences.nil
        | cons n ns ihList =>
          rw [allEmpty, Bool.and_eq_true] at empty
          rw [List.forall_mem_cons] at ih
          rw [sequences.cons, ih.1 empty.1, ihList ih.2 empty.2, pure_bind, pure_bind]
      rw [sequences.seq, list, pure_bind]
  | _ => nomatch empty

/-- A pass keeps trees that differ in one place so, if it does so there and in frames. -/
theorem Walks.differ (walks : Walks pass all)
    (filled : ∀ x y, related x y → x.isEmpty = false ∧ y.isEmpty = false)
    (here : ∀ x y, related x y → Twin (Differ related') (pass x) (pass y))
    (frame : ∀ (f : Frame) n n', f.isClear → n.isEmpty = n'.isEmpty →
      Twin (Differ related') (pass n) (pass n') →
      Twin (Differ related') (pass (.frame f n)) (pass (.frame f n')))
    (differ : Differ related n n') : Twin (Differ related') (pass n) (pass n') := by
  induction differ with
  | here related => exact here _ _ related
  | frame clear inner ih =>
    obtain ⟨left, right⟩ := inner.isEmpty_eq filled
    exact frame _ _ _ clear (left.trans right.symm) ih
  | seq before after _ ih => exact walks.toSequences.differ before after ih
  | tag name entries _ ih =>
    obtain ⟨list, eq⟩ := walks.tag name entries
    rw [eq, eq]
    exact .same fun entries => ih.bind fun _ _ inside => .pure (.tag name entries inside)

/-- A pass that goes through frames only has to be looked at in the place where the trees differ. -/
theorem Descends.differ (descends : Descends pass all)
    (filled : ∀ x y, related x y → x.isEmpty = false ∧ y.isEmpty = false)
    (here : ∀ x y, related x y → Twin related' (pass x) (pass y)) (differ : Differ related n n') :
    Twin (Differ related') (pass n) (pass n') := by
  refine descends.toWalks.differ filled (fun x y inside => (here x y inside).mono fun _ _ => .here)
    ?_ differ
  intro f n n' clear _ ih
  rw [descends.frame f n clear, descends.frame f n' clear]
  exact ih.bind fun _ _ inside => .pure (.frame clear inside)

end Differ

end Node

end MarkupTemplate
