import MarkupTemplate.Proofs.Node.Differ
import MarkupTemplate.Proofs.Node.Grammar

/-!
# Trees that differ behind a number of lines

`DifferAt` says of two trees that they differ in one place, and how many lines are counted in front
of it. Only the code of an output is counted behind the block below it, if that is captured
(`Frame.lead`). A pass that replaces nodes by others that take up as many lines keeps the number
(`Sequences.differAt`, `Walked.differAt`).
-/

namespace MarkupTemplate

open List

/-- The lines of a frame that are counted in front of what is inside. -/
def Frame.lead (noCapture : Bool) : Frame → Nat
  | .control source => source.count '\n'
  | .output _ source => if noCapture then source.count '\n' else 0
  | _ => 0

/-! ## Computations that give something -/

section Gives

variable {m : Type → Type} [Monad m] {α β γ : Type}

/-- Whatever a computation gives has a property. -/
def Gives (good : α → Prop) (x : m α) : Prop :=
  Twin (fun a b => a = b ∧ good a) x x

variable {good : α → Prop} {good' : β → Prop}

theorem Gives.twin [LawfulMonad m] {related : β → γ → Prop} {x : m α} {f : α → m β} {g : α → m γ}
    (gives : Gives good x) (next : ∀ a, good a → Twin related (f a) (g a)) :
    Twin related (x >>= f) (x >>= g) := by
  refine Twin.bind gives ?_
  rintro a _ ⟨rfl, here⟩
  exact next a here

theorem Gives.pure [LawfulMonad m] {a : α} (here : good a) : Gives good (Pure.pure a : m α) :=
  Twin.pure ⟨rfl, here⟩

theorem Gives.bind [LawfulMonad m] {x : m α} {f : α → m β} (gives : Gives good x)
    (next : ∀ a, good a → Gives good' (f a)) : Gives good' (x >>= f) :=
  gives.twin next

theorem gives_of_yields {ε : Type} {allowed : ε → Prop} {x : Except ε α}
    (yields : Yields good allowed x) : Gives good x := by
  cases x with
  | ok a => exact Twin.pure ⟨rfl, yields⟩
  | error e => exact ⟨.error e, rfl, rfl⟩

theorem gives_of_state {ε σ : Type} {allowed : ε → Prop} {x : StateT σ (Except ε) α}
    (each : ∀ s, Yields (fun r => good r.1) allowed (x s)) : Gives good x := by
  refine twin_iff.mpr fun s => ?_
  have yields := each s
  cases ran : x s with
  | ok r =>
    rw [ran] at yields
    exact .ok ⟨⟨rfl, yields⟩, rfl⟩
  | error e => exact .error e

end Gives

namespace Node

/-! ## Places -/

/-- Two trees are the same but for one place, where they are related, behind so many lines. -/
inductive DifferAt (noCapture : Bool) (place : Node → Node → Prop) : Nat → Node → Node → Prop where
  | here {n n' : Node} : place n n' → DifferAt noCapture place 0 n n'
  | frame (f : Frame) {d : Nat} {n n' : Node} : DifferAt noCapture place d n n' →
    DifferAt noCapture place (f.lead noCapture + d) (.frame f n) (.frame f n')
  | seq (before after : List Node) {d : Nat} {n n' : Node} : DifferAt noCapture place d n n' →
    DifferAt noCapture place (extentOf 1 before + d) (.seq (before ++ n :: after))
    (.seq (before ++ n' :: after))
  | tag (name : Text) (entries : List Node) {d : Nat} {n n' : Node} :
    DifferAt noCapture place d n n' →
    DifferAt noCapture place (extentOf 1 entries + d) (.tag name entries (some n))
    (.tag name entries (some n'))

section Places

variable {noCapture : Bool} {place place' : Node → Node → Prop} {d : Nat} {n n' : Node}

theorem DifferAt.cast {d' : Nat} (differ : DifferAt noCapture place d n n') (same : d = d') :
    DifferAt noCapture place d' n n' :=
  same ▸ differ

theorem DifferAt.bind {e : Nat} (differ : DifferAt noCapture place d n n')
    (inside : ∀ x y, place x y → DifferAt noCapture place' e x y) :
    DifferAt noCapture place' (d + e) n n' := by
  induction differ with
  | here here => exact (inside _ _ here).cast (Nat.zero_add e).symm
  | frame f _ ih => exact ih.frame f |>.cast (Nat.add_assoc ..).symm
  | seq before after _ ih => exact ih.seq before after |>.cast (Nat.add_assoc ..).symm
  | tag name entries _ ih => exact ih.tag name entries |>.cast (Nat.add_assoc ..).symm

theorem DifferAt.isEmpty_eq (filled : ∀ x y, place x y → x.isEmpty = false ∧ y.isEmpty = false)
    (differ : DifferAt noCapture place d n n') : n.isEmpty = false ∧ n'.isEmpty = false := by
  induction differ with
  | here here => exact filled _ _ here
  | frame | tag => exact ⟨rfl, rfl⟩
  | seq before after _ ih => simp [isEmpty, allEmpty_append, allEmpty, ih]

theorem DifferAt.exists_context (differ : DifferAt noCapture place d n n') :
    ∃ (c : Context) (x y : Node), place x y ∧ n = c.fill x ∧ n' = c.fill y := by
  induction differ with
  | here here => exact ⟨.here, _, _, here, rfl, rfl⟩
  | frame f _ ih =>
    obtain ⟨c, x, y, here, rfl, rfl⟩ := ih
    exact ⟨.frame f c, x, y, here, rfl, rfl⟩
  | seq before after _ ih =>
    obtain ⟨c, x, y, here, rfl, rfl⟩ := ih
    exact ⟨.seq before c after, x, y, here, rfl, rfl⟩
  | tag name entries _ ih =>
    obtain ⟨c, x, y, here, rfl, rfl⟩ := ih
    exact ⟨.tag name entries c, x, y, here, rfl, rfl⟩

end Places

/-! ## One of several nodes -/

section OnceAt

variable {noCapture : Bool} {place : Node → Node → Prop} {d : Nat} {ns ns' : List Node}

/-- Two lists of nodes are the same but for one node, with its place behind so many lines. -/
inductive OnceAt (related : Nat → Node → Node → Prop) : Nat → List Node → List Node → Prop where
  | intro (before after : List Node) {d e : Nat} {n n' : Node} :
    related d n n' → extentOf 1 before + d = e →
    OnceAt related e (before ++ n :: after) (before ++ n' :: after)

theorem OnceAt.cast {related : Nat → Node → Node → Prop} {d' : Nat} (once : OnceAt related d ns ns')
    (same : d = d') : OnceAt related d' ns ns' :=
  same ▸ once

theorem OnceAt.seq (once : OnceAt (DifferAt noCapture place) d ns ns') :
    DifferAt noCapture place d (.seq ns) (.seq ns') := by
  obtain ⟨before, after, inside, total⟩ := once
  exact inside.seq before after |>.cast total

theorem OnceAt.within {related : Nat → Node → Node → Prop} (before after : List Node)
    (once : OnceAt related d ns ns') :
    OnceAt related (extentOf 1 before + d) (before ++ (ns ++ after))
    (before ++ (ns' ++ after)) := by
  obtain ⟨front, behind, inside, total⟩ := once
  have all := OnceAt.intro (before ++ front) (behind ++ after) inside rfl
  rw [extentOf_append, Nat.add_assoc, total] at all
  simpa using all

end OnceAt

/-! ## What fits around a place -/

section Fits

variable {k : Kinds} {format : Format}

theorem Fits.of_frame {f : Frame} {inner : Node} (fits : Fits k format .tree (.frame f inner)) :
    k.frame f ∧ Fits k format .tree inner := by
  cases fits with
  | frame _ allowed inside => exact ⟨allowed, inside⟩

theorem Fits.of_seq {ns : List Node} (fits : Fits k format .tree (.seq ns)) :
    ∀ n ∈ ns, Fits k format .tree n := by
  cases fits with
  | seq _ each => exact each

theorem Fits.of_tag {name : Text} {entries : List Node} {body : Node}
    (fits : Fits k format .tree (.tag name entries (some body))) :
    (∀ e ∈ entries, Fits k format k.entries e) ∧ Fits k format .tree body := by
  cases fits with
  | tag _ entries body => exact ⟨entries, body⟩

theorem DifferAt.fits {noCapture : Bool} {place : Node → Node → Prop} {d : Nat} {n n' : Node}
    (differ : DifferAt noCapture place d n n')
    (here : ∀ x y, place x y → Fits k format .tree x → Fits k format .tree y)
    (fits : Fits k format .tree n) : Fits k format .tree n' := by
  induction differ with
  | here related => exact here _ _ related fits
  | frame f _ ih => exact .frame rfl fits.of_frame.1 (ih fits.of_frame.2)
  | seq before after _ ih =>
    have each := forall_mem_append.mp fits.of_seq
    obtain ⟨inside, behind⟩ := forall_mem_cons.mp each.2
    exact .seq rfl (.append each.1 (.cons (ih inside) behind))
  | tag name entries _ ih =>
    cases fits with
    | tag markup entries body => exact .tag markup entries (ih body)

/-- Once control and output lines are statements, frames count no lines. -/
theorem lead_eq_zero {noCapture : Bool} {f : Frame} (stated : k.controls = false)
    (allowed : k.frame f) : f.lead noCapture = 0 := by
  cases f with
  | control | output => simp [Kinds.frame, stated] at allowed
  | _ => rfl

end Fits

/-! ## Passes -/

section Passes

variable {m : Type → Type} [Monad m] [LawfulMonad m] {pass : Node → m Node}
  {all : List Node → m (List Node)}
variable {noCapture : Bool} {place place' : Node → Node → Prop} {d : Nat} {n n' : Node}

/-- A pass that takes several nodes one after the other. -/
structure Visits (pass : Node → m Node) (all : List Node → m (List Node)) : Prop where
  nil : all [] = pure []
  cons : ∀ n ns, all (n :: ns) = do
    let n ← pass n
    let ns ← all ns
    pure (n :: ns)

omit [LawfulMonad m] in
theorem Sequences.visits (sequences : Sequences pass all) : Visits pass all :=
  ⟨sequences.nil, sequences.cons⟩

theorem Visits.lines (visits : Visits pass all) {ns : List Node}
    (each : ∀ n ∈ ns, Gives (fun n' => n'.extent 1 = n.extent 1) (pass n)) :
    Gives (fun ns' => extentOf 1 ns' = extentOf 1 ns) (all ns) := by
  induction ns with
  | nil =>
    rw [visits.nil]
    exact .pure rfl
  | cons n ns ih =>
    rw [forall_mem_cons] at each
    rw [visits.cons]
    refine each.1.bind fun n' first => (ih each.2).bind fun ns' rest => .pure ?_
    rw [extentOf_cons, extentOf_cons, first, rest]

theorem Visits.onceAt (visits : Visits pass all) {related : Nat → Node → Node → Prop}
    {before : List Node}
    (each : ∀ n ∈ before, Gives (fun n' => n'.extent 1 = n.extent 1) (pass n)) (after : List Node)
    (twin : Twin (related d) (pass n) (pass n')) :
    Twin (OnceAt related (extentOf 1 before + d)) (all (before ++ n :: after))
    (all (before ++ n' :: after)) := by
  induction before with
  | nil =>
    rw [nil_append, nil_append, visits.cons, visits.cons]
    exact twin.bind fun _ _ inside => .same fun after => .pure (.intro [] after inside rfl)
  | cons first before ih =>
    rw [forall_mem_cons] at each
    rw [cons_append, cons_append, visits.cons, visits.cons]
    refine each.1.twin fun first' kept => (ih each.2).bind ?_
    rintro _ _ ⟨before', after', inside, total⟩
    refine .pure (.intro (first' :: before') after' inside ?_)
    rw [extentOf_cons, extentOf_cons, kept, Nat.add_assoc, total, Nat.add_assoc]

theorem Sequences.differAt (sequences : Sequences pass all) {before : List Node}
    (each : ∀ n ∈ before, Gives (fun n' => n'.extent 1 = n.extent 1) (pass n)) (after : List Node)
    (twin : Twin (DifferAt noCapture place d) (pass n) (pass n')) :
    Twin (DifferAt noCapture place (extentOf 1 before + d)) (pass (.seq (before ++ n :: after)))
      (pass (.seq (before ++ n' :: after))) := by
  rw [sequences.seq, sequences.seq]
  exact (sequences.visits.onceAt each after twin).bind fun _ _ once => .pure once.seq

/-- A pass that replaces the nodes of a tree one by one, the entries of a tag before its body. -/
structure Walked (k : Kinds) (format : Format) (pass : Node → m Node)
    (all : List Node → m (List Node)) : Prop extends Sequences pass all where
  lines : ∀ n, Fits k format .tree n → Gives (fun n' => n'.extent 1 = n.extent 1) (pass n)
  tag : ∀ name entries, (∀ e ∈ entries, Fits k format k.entries e) →
    ∃ list : m (List Node), Gives (fun entries' => extentOf 1 entries' = extentOf 1 entries) list ∧
      ∀ body, pass (.tag name entries (some body)) = do
        let entries ← list
        let body ← pass body
        pure (.tag name entries (some body))

/-- A pass keeps the number of lines in front of a place, if it does so there and in frames. -/
theorem Walked.differAt {k : Kinds} {format : Format} (walked : Walked k format pass all)
    (filled : ∀ x y, place x y → x.isEmpty = false ∧ y.isEmpty = false)
    (here : ∀ x y, place x y → Fits k format .tree x →
      Twin (DifferAt noCapture place' 0) (pass x) (pass y))
    (frame : ∀ (f : Frame) d n n', k.frame f → n.isEmpty = false ∧ n'.isEmpty = false →
      Twin (DifferAt noCapture place' d) (pass n) (pass n') →
      Twin (DifferAt noCapture place' (f.lead noCapture + d)) (pass (.frame f n))
      (pass (.frame f n')))
    (differ : DifferAt noCapture place d n n') (fits : Fits k format .tree n) :
    Twin (DifferAt noCapture place' d) (pass n) (pass n') := by
  induction differ with
  | here related => exact here _ _ related fits
  | frame f inner ih =>
    exact frame f _ _ _ fits.of_frame.1 (inner.isEmpty_eq filled) (ih fits.of_frame.2)
  | seq before after _ ih =>
    have each := fits.of_seq
    refine walked.toSequences.differAt (fun n mem => walked.lines n (each n ?_)) after
      (ih (each _ ?_))
    · exact mem_append_left _ mem
    · exact mem_append_right _ (.head _)
  | tag name entries _ ih =>
    obtain ⟨list, gives, eq⟩ := walked.tag name entries fits.of_tag.1
    rw [eq, eq]
    refine gives.twin fun entries' same => (ih fits.of_tag.2).bind fun _ _ inside => .pure ?_
    rw [← same]
    exact inside.tag name entries'

theorem Walked.differAt_through {k : Kinds} {format : Format} (walked : Walked k format pass all)
    (through : ∀ (f : Frame) n, k.frame f → pass (.frame f n) = pass n >>= fun n =>
      pure (.frame f n))
    (filled : ∀ x y, place x y → x.isEmpty = false ∧ y.isEmpty = false)
    (here : ∀ x y, place x y → Fits k format .tree x → Twin place' (pass x) (pass y))
    (differ : DifferAt noCapture place d n n') (fits : Fits k format .tree n) :
    Twin (DifferAt noCapture place' d) (pass n) (pass n') := by
  refine walked.differAt filled (fun x y inside fits => (here x y inside fits).mono fun _ _ =>
    .here) ?_ differ fits
  intro f d n n' allowed _ twin
  rw [through f n allowed, through f n' allowed]
  exact twin.bind fun _ _ inside => .pure (inside.frame f)

end Passes

end Node

end MarkupTemplate
