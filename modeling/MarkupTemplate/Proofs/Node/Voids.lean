import MarkupTemplate.Proofs.Node.Carried
import MarkupTemplate.Proofs.Node.LineStarts

/-!
# The content of void elements

A void element is written without a closing tag as long as it holds nothing but line marks. `strays`
counts what it holds beyond that. No pass adds content to a void element, so a tree without strays
stays so up to the pass that writes markup (`hollow_of_runAll`), and there a tag is closed exactly
if it has a body and is not void.
-/

namespace MarkupTemplate

open List
open Element (isVoid)

open Outline (IsTextNode)

section Gives

variable {ε σ α : Type} {good : α → Prop}

theorem Gives.of_ok {x : Except ε α} (gives : Gives good x) {a : α} (ran : x = .ok a) : good a := by
  obtain ⟨both, first, _⟩ := gives
  rw [ran] at first
  cases both with
  | error e => nomatch first
  | ok p =>
    cases (Except.ok.inj first : a = p.1.1)
    exact p.2.2

theorem Gives.yields {x : StateT σ (Except ε) α} (gives : Gives good x) (s : σ) :
    Yields (fun r => good r.1) (fun _ => True) (x s) := by
  have concur := twin_iff.mp gives s
  cases ran : x s with
  | error e => trivial
  | ok r =>
    rw [ran] at concur
    cases concur with
    | ok related => exact related.1.2

end Gives

namespace Node

/-! ## Strays -/

/-- How many nodes of a list produce something other than line marks. -/
def filled (ns : List Node) : Nat :=
  ns.countP (!·.isEmpty)

/-- How many nodes in a body produce something other than line marks. -/
def contents : Node → Nat
  | .group .seq children => filled children
  | n => if n.isEmpty then 0 else 1

mutual

/-- How many nodes right in void elements are more than line marks, outside attribute lists. -/
def strays : Node → Nat
  | .leaf _ => 0
  | .frame _ inner => strays inner
  | .group .seq children => straysOf children
  | .group .attrs _ => 0
  | .tag _ _ none => 0
  | .tag name _ (some body) => (bif isVoid name then contents body else 0) + strays body

def straysOf : List Node → Nat
  | [] => 0
  | n :: ns => strays n + straysOf ns

end

@[simp] theorem straysOf_append (ns ms : List Node) :
    straysOf (ns ++ ms) = straysOf ns + straysOf ms := by
  induction ns with
  | nil => simp [straysOf]
  | cons n ns ih => simp [straysOf, ih, Nat.add_assoc]

@[simp] theorem filled_append (ns ms : List Node) : filled (ns ++ ms) = filled ns + filled ms :=
  countP_append

@[simp] theorem filled_cons (n : Node) (ns : List Node) :
    filled (n :: ns) = filled ns + if n.isEmpty then 0 else 1 := by
  rw [filled, countP_cons]
  cases n.isEmpty with
  | true | false => rfl

/-- A tree in which void elements hold line marks only. -/
def Hollow (n : Node) : Prop :=
  n.strays = 0

variable {ns entries : List Node} {name : Text} {body n : Node} {body? : Option Node}

theorem straysOf_eq_zero : straysOf ns = 0 ↔ ∀ n ∈ ns, n.Hollow := by
  induction ns with
  | nil => simp [straysOf]
  | cons n ns ih => simp [straysOf, ih, Hollow]

theorem contents_eq_zero (n : Node) : n.contents = 0 ↔ n.isEmpty := by
  unfold contents
  split
  next children => simp [filled, countP_eq_zero, isEmpty, allEmpty_eq]
  next => simp

theorem hollow_seq : Hollow (.seq ns) ↔ ∀ n ∈ ns, n.Hollow :=
  straysOf_eq_zero

theorem hollow_frame {f : Frame} {inner : Node} : Hollow (.frame f inner) ↔ inner.Hollow :=
  Iff.rfl

theorem hollow_tag :
    Hollow (.tag name entries (some body)) ↔ (isVoid name → body.isEmpty) ∧ body.Hollow := by
  rw [Hollow, strays, Nat.add_eq_zero_iff, ← contents_eq_zero]
  refine and_congr_left' ?_
  cases isVoid name with
  | true | false => simp

/-! ## Tags of a tree -/

theorem inert_of_isEntryOf {e : Node} (entry : Attribute.IsEntryOf Inert e) : Inert e := by
  obtain ⟨name, v, rfl | rfl, inert⟩ := Attribute.isEntryOf_iff.mp entry
  · exact .frame rfl inert
  · exact .frame rfl inert

theorem parts_inert (inert : Inert n) : .tag name entries body? ∉ n.parts := by
  induction inert with
  | leaf => simp [parts]
  | frame _ _ ih => simp [parts, ih]
  | seq _ ih =>
    simp only [parts, mem_cons, reduceCtorEq, mem_partsOf, false_or, not_exists, not_and]
    exact ih

/-- Without elements in attribute lists: no strays exactly if every void element is empty. -/
theorem Tidy.hollow_iff {blocks : Bool} {entry : Node → Prop} (inert : ∀ e, entry e → Inert e)
    (tidy : Tidy blocks entry n) :
    n.Hollow ↔ ∀ name entries body, .tag name entries (some body) ∈ n.parts → isVoid name →
    body.isEmpty := by
  have untagged : ∀ entries : List Node, (∀ e ∈ entries, entry e) → ∀ name entries' body?,
      Node.tag name entries' body? ∉ partsOf entries := by
    intro entries each name entries' body? mem
    obtain ⟨e, here, inside⟩ := mem_partsOf.mp mem
    exact parts_inert (inert e (each e here)) inside
  induction tidy with
  | leaf => simp [Hollow, strays, parts]
  | frame _ _ ih | trim _ _ _ ih => simpa [hollow_frame, parts] using ih
  | @embedded name nodes _ texts =>
    have inert : Inert (.seq nodes) := .seq fun n mem => by
      cases texts n mem with
      | newline | text => exact .leaf rfl
    have hollow : Hollow (.embedded name (.seq nodes)) := hollow_seq.mpr fun n mem => by
      cases texts n mem with
      | newline | text => rfl
    refine iff_of_true hollow fun name' entries body mem => ?_
    simp only [parts, mem_cons, reduceCtorEq, false_or] at mem
    have inside : Node.tag name' entries (some body) ∈ (Node.seq nodes).parts := by
      simp [parts, mem]
    exact absurd inside (parts_inert inert)
  | @seq children _ ih =>
    rw [hollow_seq]
    simp only [parts, mem_cons, reduceCtorEq, mem_partsOf, false_or]
    constructor
    · rintro each name entries body ⟨n, here, inside⟩
      exact (ih n here).mp (each n here) name entries body inside
    · intro each n here
      exact (ih n here).mpr fun name entries body inside => each name entries body ⟨n, here, inside⟩
  | closed each =>
    refine iff_of_true rfl fun name entries body mem => ?_
    simp only [parts, mem_cons, tag.injEq, reduceCtorEq, and_false, false_or] at mem
    exact absurd mem (untagged _ each name entries (some body))
  | @tag name entries body each _ ih =>
    rw [hollow_tag]
    constructor
    · rintro ⟨empty, inside⟩ name' entries' body' mem
      simp only [parts, mem_cons, mem_append] at mem
      rcases mem with here | listed | nested
      · cases here
        exact empty
      · exact absurd listed (untagged _ each _ _ _)
      · exact ih.mp inside name' entries' body' nested
    · intro all
      refine ⟨all name entries body (mem_parts_self _), ih.mpr fun name' entries' body' mem => ?_⟩
      exact all name' entries' body' (by simp [parts, mem])

/-! ## Passes -/

section Passes

variable {m : Type → Type} [Monad m] [LawfulMonad m] {pass : Node → m Node}
  {all : List Node → m (List Node)}
  (walks : Walks pass all) (leaf : ∀ l, Gives Hollow (pass (.leaf l)))
  (attrs : ∀ entries, ∃ list : m (List Node),
    pass (.group .attrs entries) = list >>= fun entries => pure (.group .attrs entries))
  (closed : ∀ name entries, ∃ list : m (List Node),
    pass (.tag name entries none) = list >>= fun entries => pure (.tag name entries none))

include walks leaf attrs closed

/-- A pass that keeps empty bodies fills no void elements, if it fills none in leaves and frames. -/
theorem Walks.hollow (frame : ∀ f inner, Gives Hollow (pass inner) →
    Gives Hollow (pass (.frame f inner)))
    {n : Node} (hollow : n.Hollow) : Gives Hollow (pass n) := by
  induction n using Node.induction with
  | leaf l => exact leaf l
  | frame f inner ih => exact frame f inner (ih hollow)
  | group g ns ih =>
    cases g with
    | attrs =>
      obtain ⟨list, eq⟩ := attrs ns
      rw [eq]
      exact Twin.same fun _ => Gives.pure rfl
    | seq =>
      have list : Gives (fun ns' => ∀ n ∈ ns', n.Hollow) (all ns) := by
        have each := hollow_seq.mp hollow
        clear hollow
        induction ns with
        | nil =>
          rw [walks.nil]
          exact .pure nofun
        | cons n ns ihList =>
          rw [forall_mem_cons] at ih each
          rw [walks.cons]
          exact (ih.1 each.1).bind fun _ first => (ihList ih.2 each.2).bind fun _ rest =>
            .pure (forall_mem_cons.mpr ⟨first, rest⟩)
      rw [walks.seq]
      exact list.bind fun _ each => .pure (hollow_seq.mpr each)
  | closed name entries _ =>
    obtain ⟨list, eq⟩ := closed name entries
    rw [eq]
    exact Twin.same fun _ => Gives.pure rfl
  | tag name entries body _ ih =>
    obtain ⟨list, eq⟩ := walks.tag name entries
    obtain ⟨empty, inside⟩ := hollow_tag.mp hollow
    rw [eq]
    refine Twin.same fun entries => ?_
    cases void : isVoid name with
    | true =>
      rw [walks.isEmpty (empty void), pure_bind]
      exact Gives.pure (hollow_tag.mpr ⟨empty, inside⟩)
    | false =>
      exact (ih inside).bind fun _ inside => .pure (hollow_tag.mpr ⟨by simp [void], inside⟩)

theorem Walks.hollow_through
    (through : ∀ f inner, pass (.frame f inner) = pass inner >>= fun inner => pure (.frame f inner))
    {n : Node} (hollow : n.Hollow) : Gives Hollow (pass n) := by
  refine walks.hollow leaf attrs closed (fun f inner gives => ?_) hollow
  rw [through]
  exact gives.bind fun _ here => .pure here

end Passes

theorem hollow_interpolated (hollow : n.Hollow) : Gives Hollow n.interpolated := by
  refine interpolated_descends.toWalks.hollow_through (fun l => ?_)
    (fun entries => ⟨interpolatedAll entries, rfl⟩)
    (fun _ entries => ⟨interpolatedAll entries, rfl⟩) (fun _ _ => rfl) hollow
  cases l with
  | unknown => exact ⟨.error .unknownNode, rfl, rfl⟩
  | interpolate text =>
    exact gives_of_yields (yields_ofInterpolated true (fun _ => rfl) (fun _ _ _ => rfl)
      (fun _ each => hollow_seq.mpr each) rfl)
  | _ => exact Gives.pure rfl

theorem hollow_statement (source : Text) (hollow : body.Hollow) :
    Hollow (statement source body) := by
  unfold statement
  split <;> exact hollow_seq.mpr (by simpa using ⟨rfl, hollow⟩)

theorem hollow_putOut (escaped : Bool) (source : Text) : Hollow (putOut escaped source) := by
  cases escaped with
  | true | false => rfl

theorem hollow_lowered (noCapture : Bool) (hollow : n.Hollow) :
    Gives Hollow (lowered noCapture n) := by
  refine (lowered_walks noCapture).hollow (fun l => ?_)
    (fun entries => ⟨fun used => controlledAll noCapture used entries, rfl⟩)
    (fun _ entries => ⟨fun used => controlledAll noCapture used entries, rfl⟩)
      (fun f inner gives => ?_) hollow
  · cases l with
    | unknown => exact ⟨fun _ => .error .unknownNode, rfl, rfl⟩
    | _ => exact Gives.pure rfl
  · cases f with
    | control source => exact gives.bind fun _ here => .pure (hollow_statement source here)
    | output escaped source =>
      cases inline : inner.isEmpty || noCapture with
      | true =>
        rw [lowered_inline escaped source inline]
        refine gives.bind fun _ here => .pure (hollow_seq.mpr ?_)
        simpa using ⟨hollow_putOut escaped source, here⟩
      | false =>
        rw [lowered_captured escaped source inline]
        refine Twin.same fun used => gives.bind fun _ here => .pure (hollow_seq.mpr ?_)
        simpa using ⟨here, rfl, hollow_putOut escaped source⟩
    | _ => exact gives.bind fun _ here => .pure (hollow_frame.mpr here)

theorem hollow_overridden (names : List Text) (hollow : n.Hollow) :
    Gives Hollow (n.overridden names) := by
  refine (overridden_descends names).toWalks.hollow_through (fun l => ?_)
    (fun entries => ⟨Attribute.overrideList names entries, rfl⟩)
    (fun _ entries => ⟨Attribute.overrideList names entries, rfl⟩) (fun _ _ => rfl) hollow
  cases l with
  | unknown => exact ⟨.error .unknownNode, rfl, rfl⟩
  | _ => exact Gives.pure rfl

theorem hollow_sorted (keys : List Text) (hollow : n.Hollow) : Gives Hollow (n.sorted keys) := by
  refine (sorted_descends keys).toWalks.hollow_through (fun l => ?_)
    (fun entries => ⟨Attribute.sortList keys entries, rfl⟩)
    (fun _ entries => ⟨Attribute.sortList keys entries, rfl⟩) (fun _ _ => rfl) hollow
  cases l with
  | unknown => exact ⟨.error .unknownNode, rfl, rfl⟩
  | _ => exact Gives.pure rfl

theorem hollow_attributed (o : Options) (hollow : n.Hollow) :
    Gives (m := Counting) Hollow (fun used => n.attributed o used) := by
  refine (attributed_descends o).toWalks.hollow_through (fun l => ?_)
    (fun entries => ⟨fun used => Attribute.mergeList o used entries, rfl⟩)
    (fun _ entries => ⟨fun used => Attribute.mergeList o used entries, rfl⟩) (fun _ _ => rfl) hollow
  cases l with
  | unknown => exact ⟨fun _ => .error .unknownNode, rfl, rfl⟩
  | _ => exact Gives.pure rfl

/-! ## Embedded blocks -/

theorem hollow_makesContent : Embedded.MakesContent Hollow where
  leaf _ := rfl
  escape _ _ _ := rfl
  deferred _ := rfl
  output _ _ := rfl
  seq each := hollow_seq.mpr each

theorem embed_sequences (engine : Text → Except Failure Embedded.Engine) (format : Format) :
    Sequences (embed engine format) (embedAll engine format) :=
  ⟨rfl, rfl, fun _ _ => rfl, fun _ => rfl⟩

theorem hollow_embed {engine : Text → Except Failure Embedded.Engine}
    (named : ∀ name e, engine name = .ok e → ∀ tag, e.settings.tag? = some tag → isVoid tag = false)
    (format : Format) (tidy : Outline.ReadTidy n) (hollow : n.Hollow) :
    Yields Hollow (fun _ => True) (n.embed engine format) := by
  induction tidy with
  | @leaf l free =>
    cases l with
    | unknown | trim => nomatch free
    | _ => rfl
  | @frame f inner free _ ih =>
    have same : embed engine format (.frame f inner) =
        embed engine format inner >>= fun inner => pure (.frame f inner) := by
      cases f with
      | embedded => nomatch free
      | _ => rfl
    rw [same]
    exact (ih hollow).bind fun _ here => hollow_frame.mpr here
  | trim side _ _ ih => exact (ih hollow).bind fun _ here => hollow_frame.mpr here
  | @embedded name nodes _ texts =>
    rw [embed]
    cases found : engine name with
    | error failure => trivial
    | ok e =>
      refine hollow_makesContent.render e format (fun tag set body here => ?_) texts
      exact hollow_tag.mpr ⟨by simp [named name e found tag set], here⟩
  | seq _ ih =>
    rw [embed, embedAll_eq]
    have each := hollow_seq.mp hollow
    exact (Yields.mapM fun n mem => ih n mem (each n mem)).bind fun _ each =>
      hollow_seq.mpr (forall_of_forall₂ each)
  | closed entries =>
    rw [embed, embed_isEntry _ _ entries]
    exact rfl
  | @tag name entries body each _ ih =>
    obtain ⟨empty, inside⟩ := hollow_tag.mp hollow
    rw [embed, embed_isEntry _ _ each]
    cases void : isVoid name with
    | true =>
      simp only [(embed_sequences engine format).isEmpty (empty void)]
      exact hollow_tag.mpr ⟨empty, inside⟩
    | false => exact (ih inside).bind fun _ inside => hollow_tag.mpr ⟨by simp [void], inside⟩

/-! ## Markup -/

def last? : Node → Option Node
  | .group _ children => children.getLast?
  | _ => none

def closing (name : Text) : Node :=
  .static ("</" ++ name ++ ">")

/-- A tag is closed exactly if it has content or may have some. -/
theorem last?_markup {o : Options} {p : Markup.Place} {s s' : Markup.Progress} {w : Node}
    (ran : (Node.tag name entries body?).markup o p s = .ok (w, s')) :
    w.last? = some (closing name) ↔ Markup.isContentless name body? = false := by
  cases body? with
  | none =>
    rw [markup] at ran
    generalize Markup.breakNodes _ _ _ _ = opened at ran
    obtain ⟨_, _, ran⟩ := exists_of_bind ran
    cases ran
    have other : Markup.emptyEnd o.format ≠ '<' :: '/' :: (name ++ ['>']) := by
      cases o.format with
      | html5 | html4 | xhtml => simp [Markup.emptyEnd]
    simp [last?, closing, Markup.isContentless, other]
  | some body =>
    rw [markup] at ran
    generalize Markup.breakNodes _ _ _ _ = opened at ran
    obtain ⟨_, _, ran⟩ := exists_of_bind ran
    simp only at ran
    split at ran
    next contentless =>
      rw [Bool.and_eq_true] at contentless
      rw [markup_of_isEmpty o p _ contentless.2] at ran
      cases ran
      have other : body ≠ closing name := by
        rintro rfl
        cases contentless.2
      simp [last?, Markup.isContentless, contentless, other]
    next content =>
      obtain ⟨_, _, ran⟩ := exists_of_bind ran
      cases ran
      simp only [last?, closing, Markup.isContentless, getLast?_concat, true_iff]
      exact Bool.eq_false_iff.mpr content

end Node

end MarkupTemplate
