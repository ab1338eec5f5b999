import MarkupTemplate.Proofs.Outline.LineCount
import MarkupTemplate.Proofs.Node.DifferAt

/-!
# Reading on behind an output mark

The lines below an output line are read alike, whether the line asks for escaping or not. The
layouts differ in one place only (`Layout.Switched`). Each line does the same to both
(`step_switched`), and at the end the trees differ by one switch (`foldlM_switched`,
`finish_switched`).
-/

namespace MarkupTemplate

open Node (extentOf OnceAt)

/-- What may differ in one place of a tree. -/
structure Places where
  lead : Opener → Nat
  related : Nat → Node → Node → Prop
  openers : Opener → Opener → Prop
  fill : ∀ (opener : Opener) {d : Nat} {ns ns' : List Node}, OnceAt related d ns ns' →
    related (lead opener + d) (opener.fill ns) (opener.fill ns')
  opened : ∀ {opener opener' : Opener}, openers opener opener' →
    ∀ children, related 0 (opener.fill children) (opener'.fill children)

variable {places : Places} {d : Nat}

/-! ## Levels -/

def Level.lead (places : Places) (v : Level) : Nat :=
  extentOf 1 v.before + places.lead v.opener

def Level.leads (places : Places) (outer : List Level) : Nat :=
  (outer.map (lead places)).sum

theorem Level.leads_cons (v : Level) (outer : List Level) :
    leads places (v :: outer) = v.lead places + leads places outer := by
  rw [leads, List.map_cons, List.sum_cons, leads]

/-- Two levels that differ in one place: in front of the node that is open, or in that node. -/
inductive Level.OnePlace (places : Places) : Nat → Level → Level → Prop where
  | before {d : Nat} {before before' : List Node} (opener : Opener) (after : List Node) :
    OnceAt places.related d before before' →
    OnePlace places d ⟨before, opener, after⟩ ⟨before', opener, after⟩
  | opener (before : List Node) {opener opener' : Opener} (after : List Node) :
    places.openers opener opener' →
    OnePlace places (extentOf 1 before) ⟨before, opener, after⟩ ⟨before, opener', after⟩

theorem Level.OnePlace.close {v v' : Level} (place : OnePlace places d v v')
    (children : List Node) : OnceAt places.related d (v.close children) (v'.close children) := by
  cases place with
  | before opener after once =>
    exact once.within [] (opener.fill children :: after) |>.cast (Nat.zero_add d)
  | opener before after open' =>
    exact .intro before after (places.opened open' children) (Nat.add_zero _)

theorem Level.onceAt_close (v : Level) {ns ns' : List Node}
    (once : OnceAt places.related d ns ns') :
    OnceAt places.related (v.lead places + d) (v.close ns) (v.close ns') :=
  .intro v.before v.after (places.fill v.opener once) (Nat.add_assoc ..).symm

/-! ## Layouts -/

/-- Two layouts that differ in one place. -/
inductive Layout.OnePlace (places : Places) : Nat → Layout → Layout → Prop where
  | inner (widths : List Nat) (outer : List Level) {d e : Nat} {inner inner' : List Node} :
    OnceAt places.related d inner inner' → Level.leads places outer + d = e →
    OnePlace places e ⟨widths, inner, outer⟩ ⟨widths, inner', outer⟩
  | outer (widths : List Nat) (inner : List Node) (inside outer : List Level) {d e : Nat}
    {v v' : Level} :
    Level.OnePlace places d v v' → Level.leads places outer + d = e →
    OnePlace places e ⟨widths, inner, inside ++ v :: outer⟩ ⟨widths, inner, inside ++ v' :: outer⟩

namespace Layout.OnePlace

variable {l l' : Layout}

variable (place : OnePlace places d l l')

include place

theorem widths_eq : l.widths = l'.widths := by
  cases place with
  | inner | outer => rfl

theorem width_eq : l.width = l'.width := by
  rw [width, width, place.widths_eq]

theorem expecting_eq : l.expecting = l'.expecting := by
  cases place with
  | inner => rfl
  | outer => simp [expecting]

theorem withWidths (widths : List Nat) :
    OnePlace places d { l with widths } { l' with widths } := by
  cases place with
  | inner _ outer once total => exact .inner widths outer once total
  | outer _ inner inside outer level total => exact .outer widths inner inside outer level total

theorem append (nodes : List Node) : OnePlace places d (l.append nodes) (l'.append nodes) := by
  cases place with
  | inner widths outer once total =>
    exact .inner widths outer (once.within [] nodes |>.cast (Nat.zero_add _)) total
  | outer widths inner inside outer level total =>
    exact .outer widths (inner ++ nodes) inside outer level total

theorem push (opener : Opener) (start after : List Node) :
    OnePlace places d (l.push opener start after) (l'.push opener start after) := by
  cases place with
  | inner widths outer once total =>
    exact .outer widths start [] outer (.before opener after once) total
  | outer widths inner inside outer level total =>
    exact .outer widths start (⟨inner, opener, after⟩ :: inside) outer level total

theorem close : OnePlace places d l.close l'.close := by
  cases place with
  | inner widths outer once total =>
    cases outer with
    | nil => exact .inner widths [] once total
    | cons v outer =>
      refine .inner widths outer (v.onceAt_close once) ?_
      rw [← total, Level.leads_cons]
      omega
  | outer widths inner inside outer level total =>
    cases inside with
    | nil => exact .inner widths outer (level.close inner) total
    | cons v inside => exact .outer widths (v.close inner) inside outer level total

theorem enter (w : Nat) :
    (l.enter w).1 = (l'.enter w).1 ∧ OnePlace places d (l.enter w).2 (l'.enter w).2 :=
  enter_related widths_eq expecting_eq close withWidths place w

omit place in
theorem steady (places : Places) (d : Nat) : Layout.Steady (OnePlace places d) where
  width_eq := width_eq
  append := append
  push := push
  enter := enter

theorem children : OnceAt places.related d l.children l'.children := by
  obtain ⟨widths, inner, outer⟩ := l
  induction outer generalizing inner l' with
  | nil =>
    generalize whole : Layout.mk widths inner [] = l at place
    cases place with
    | inner _ _ once total =>
      cases whole
      exact once.cast (by simpa [Level.leads] using total)
    | outer _ _ inside =>
      cases inside with
      | nil | cons => nomatch whole
  | cons v outer ih =>
    have closed := ih (v.close inner) place.close
    generalize whole : Layout.mk widths inner (v :: outer) = l at place
    cases place with
    | inner _ _ once =>
      cases whole
      exact closed
    | outer _ _ inside =>
      cases inside with
      | nil | cons =>
        cases whole
        exact closed

end Layout.OnePlace

theorem Outline.finish_onePlace {o : Options} {l l' : Layout}
    (place : Layout.OnePlace places d l l') (number : Nat) (lines : List Text) :
    Concur (places.related (places.lead .plain + d))
    (lines.foldlM (step o) ⟨number, l, .nothing⟩ >>= finish)
      (lines.foldlM (step o) ⟨number, l', .nothing⟩ >>= finish) := by
  have steady := Layout.OnePlace.steady places d
  have beside : State.Beside (Layout.OnePlace places d) ⟨number, l, .nothing⟩ ⟨number, l',
    .nothing⟩ :=
    ⟨rfl, rfl, place⟩
  refine (foldlM_beside steady beside lines).bind fun s s' beside =>
    (finish_beside steady beside).mono ?_
  rintro _ _ ⟨l, l', place, rfl, rfl⟩
  exact places.fill .plain place.children

/-! ## Trees and layouts -/

/-- The second tree has an output where the first has it inside a switch that turns escaping on.
Behind a tag nothing is nested below it. -/
def Node.Switched (inTag : Bool) (n n' : Node) : Prop :=
  ∃ (c : Context) (source : Text) (body : Node), (inTag → body.isEmpty) ∧
    n = c.fill (.escape true (.output true source body)) ∧ n' = c.fill (.output true source body)

variable {inTag : Bool}

namespace Node.Switched

theorem here (source : Text) {body : Node} (bare : inTag → body.isEmpty) :
    Switched inTag (.escape true (.output true source body)) (.output true source body) :=
  ⟨.here, source, body, bare, rfl, rfl⟩

theorem seq {d : Nat} {ns ns' : List Node} (once : OnceAt (fun _ => Switched inTag) d ns ns') :
    Switched inTag (.seq ns) (.seq ns') := by
  obtain ⟨before, after, ⟨c, source, body, bare, rfl, rfl⟩, _⟩ := once
  exact ⟨.seq before c after, source, body, bare, rfl, rfl⟩

theorem fill (opener : Opener) {d : Nat} {ns ns' : List Node}
    (once : OnceAt (fun _ => Switched inTag) d ns ns') :
    Switched inTag (opener.fill ns) (opener.fill ns') := by
  induction opener with
  | plain => exact seq once
  | frame f inner ih =>
    obtain ⟨c, source, body, bare, left, right⟩ := ih
    exact ⟨.frame f c, source, body, bare, congrArg (Node.frame f) left,
      congrArg (Node.frame f) right⟩
  | tag name entries =>
    obtain ⟨before, after, ⟨c, source, body, bare, rfl, rfl⟩, _⟩ := once
    exact ⟨.tag name entries (.seq before c after), source, body, bare, rfl, rfl⟩

end Node.Switched

/-- The output of a line whose mark is switched, as long as it is open. -/
inductive Opener.Switched (inTag : Bool) : Opener → Opener → Prop where
  | intro (source : Text) : inTag = false →
    Switched inTag (Outline.outputOpener .escaped source) (Outline.outputOpener .byDefault source)

/-- Trees and open nodes that differ by one switch; it does not matter behind how many lines. -/
def switches (inTag : Bool) : Places where
  lead _ := 0
  related _ := Node.Switched inTag
  openers := Opener.Switched inTag
  fill opener _ _ _ once := .fill opener once
  opened := by
    rintro _ _ ⟨source, line⟩ children
    exact .here source (by simp [line])

def Layout.Switched (inTag : Bool) (l l' : Layout) : Prop :=
  ∃ d, OnePlace (switches inTag) d l l'

theorem Layout.Switched.tree {l l' : Layout} (switched : Switched inTag l l') :
    Node.Switched inTag l.tree l'.tree := by
  obtain ⟨d, place⟩ := switched
  exact .seq place.children

namespace Outline

/-! ## States -/

/-- The output of a code asks for escaping in the first case, and leaves it open in the second. -/
inductive CodeUse.Switched (inTag : Bool) : CodeUse → CodeUse → Prop where
  | output : inTag = false → Switched inTag (.output .escaped) (.output .byDefault)
  | tagOutput (head : TagHead) :
    Switched inTag (.tagOutput .escaped head) (.tagOutput .byDefault head)

/-- Two states that differ in one place of their layouts, or in the use of a code that is broken. -/
inductive State.Switched (inTag : Bool) : State → State → Prop where
  | layout {s s' : State} : Beside (Layout.Switched inTag) s s' → Switched inTag s s'
  | code (number : Nat) (layout : Layout) (text : Text) {use use' : CodeUse} :
    CodeUse.Switched inTag use use' →
    Switched inTag ⟨number, layout, .code text use⟩ ⟨number, layout, .code text use'⟩

theorem takeCode_switched (number : Nat) (layout : Layout) (pending pending' : Pending)
    (code : Text) {use use' : CodeUse} (switched : CodeUse.Switched inTag use use') :
    State.Switched inTag (takeCode ⟨number, layout, pending⟩ code use)
      (takeCode ⟨number, layout, pending'⟩ code use') := by
  unfold takeCode
  split
  · exact .code number layout code switched
  · cases switched with
    | output line =>
      exact .layout ⟨rfl, rfl, _, .outer _ _ [] _ (.opener _ [] (.intro code line)) rfl⟩
    | tagOutput head =>
      have output : (switches inTag).related 0 ((outputOpener .escaped code).fill [])
          ((outputOpener .byDefault code).fill []) := Node.Switched.here code fun _ => rfl
      exact .layout ⟨rfl, rfl, _, .inner _ _ (.intro [] [.newline] output rfl) rfl⟩

/-! ## Steps -/

theorem switched_steady : Layout.Steady (Layout.Switched inTag) :=
  .exists fun d => Layout.OnePlace.steady (switches inTag) d

variable {o : Options} {s s' : State}

section

variable (switched : State.Switched inTag s s')

include switched

theorem step_switched (line : Text) :
    Concur (State.Switched inTag) (step o s line) (step o s' line) := by
  cases switched with
  | code number layout text use => exact .ok (takeCode_switched (number + 1) layout _ _ _ use)
  | layout switched =>
    exact (step_beside switched_steady switched line).mono fun _ _ => .layout

theorem foldlM_switched (lines : List Text) :
    Concur (State.Switched inTag) (lines.foldlM (step o) s) (lines.foldlM (step o) s') := by
  induction lines generalizing s s' with
  | nil => exact .ok switched
  | cons line lines ih =>
    rw [List.foldlM_cons, List.foldlM_cons]
    exact (step_switched switched line).bind fun _ _ => ih

theorem finish_switched : Concur (Node.Switched inTag) (finish s) (finish s') := by
  cases switched with
  | code number layout text use => exact .error _
  | layout switched =>
    refine (finish_beside switched_steady switched).mono ?_
    rintro _ _ ⟨l, l', layout, rfl, rfl⟩
    exact layout.tree

end

/-! ## The frames around the place -/

theorem isClear_of_isRead_frame {f : Frame} (read : f.isRead) : f.isClear := by
  cases f with
  | comment | condComment | control | output | trim => rfl
  | escape => exact read
  | _ => nomatch read

theorem not_isTextNode_fill (c : Node.Context) {f : Frame} {inner : Node} :
    ¬IsTextNode (c.fill (.frame f inner)) := by
  intro text
  cases c with
  | _ => nomatch text

/-- In a tree that templates give, no output is in an embedded block or under a switch for off. -/
theorem isClear_of_isRead {format : Format} {c : Node.Context} {source : Text} {body : Node}
    (read : IsRead format (c.fill (.escape true (.output true source body)))) : c.isClear := by
  induction c with
  | here => rfl
  | frame f inner ih =>
    generalize whole : (Node.Context.frame f inner).fill _ = n at read
    cases read with
    | leaf | seq | closed | tag => nomatch whole
    | frame allowed _ inside =>
      cases whole
      exact Bool.and_eq_true_iff.mpr ⟨isClear_of_isRead_frame allowed, ih inside⟩
    | @embedded name nodes texts =>
      obtain ⟨_, rest⟩ := Node.frame.inj whole
      cases inner with
      | here | frame | tag => nomatch rest
      | seq before inner after =>
        cases rest
        exact absurd (texts _ (List.mem_append_right before (.head _))) (not_isTextNode_fill inner)
  | seq before inner after ih =>
    cases read with
    | seq each => exact ih (each _ (by simp))
  | tag name entries inner ih =>
    cases read with
    | tag _ inside => exact ih inside

end Outline

end MarkupTemplate
