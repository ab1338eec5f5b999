import MarkupTemplate.Outline
import MarkupTemplate.Proofs.Line.Steady
import MarkupTemplate.Proofs.Node.Walk
import MarkupTemplate.Proofs.Text.Closed

/-!
# Two runs side by side

A line looks at what is left of it, at the indentations of the open blocks and at what is pending,
never at its number, the part that has been read or nodes that have been added. So a line does the
same to two states that agree on what it looks at (`step_parallel`), and stops at a fault for the
same cause.

`Spot.Parallel` and `Layout.Steady` collect what has to be shown of a relation between places or
layouts to go through all that reading a line does. A relation that holds only between a place and
itself tells where reading a line can end.
-/

namespace MarkupTemplate

open Scan (exactly)

/-! ## Places -/

/-- A relation between places with the same text ahead that goes on, however far is read. -/
structure Spot.Parallel (places : Spot → Spot → Prop) : Prop where
  rest_eq {s s' : Spot} : places s s' → s.rest = s'.rest
  advance {s s' : Spot} : places s s' → ∀ n, places (s.advance n) (s'.advance n)

/-- The same was found, and the places behind it are related. -/
inductive Spot.Beyond (places : Spot → Spot → Prop) {α : Type} : α × Spot → α × Spot → Prop where
  | found (a : α) (s s' : Spot) (left : places s s') : Beyond places (a, s) (a, s')

/-- Results that are related, or faults of the same cause at places that are related. -/
inductive Fault.Parallel (places : Spot → Spot → Prop) {α : Type} (related : α → α → Prop) :
    Except Fault α → Except Fault α → Prop where
  | ok {a a' : α} (here : related a a') : Parallel places related (.ok a) (.ok a')
  | error (cause : Cause) {s s' : Spot} (here : places s s') :
    Parallel places related (.error ⟨cause, s⟩) (.error ⟨cause, s'⟩)

section Results

variable {places : Spot → Spot → Prop} {α β : Type} {related : α → α → Prop}
  {related' : β → β → Prop}
  {x x' : Except Fault α}

theorem Fault.Parallel.bind {f f' : α → Except Fault β} (parallel : Parallel places related x x')
    (next : ∀ a a', related a a' → Parallel places related' (f a) (f' a')) :
    Parallel places related' (x >>= f) (x' >>= f') := by
  cases parallel with
  | ok here => exact next _ _ here
  | error cause here => exact .error cause here

theorem Fault.Parallel.map {f : α → β} (parallel : Parallel places related x x')
    (next : ∀ a a', related a a' → related' (f a) (f a')) :
    Parallel places related' (x.map f) (x'.map f) := by
  cases parallel with
  | ok here => exact .ok (next _ _ here)
  | error cause here => exact .error cause here

/-- What is read at one place from which only places of a kind can be reached. -/
theorem Fault.Parallel.yields {P : Spot → Prop}
    (parallel : Parallel (fun s s' => s = s' ∧ P s) related x x) :
    Yields (fun a => related a a) (fun fault => P fault.spot) x := by
  cases parallel with
  | ok here => exact here
  | error cause here => exact here.2

theorem Fault.Parallel.mono {further : α → α → Prop} (parallel : Parallel places related x x')
    (next : ∀ a a', related a a' → further a a') : Parallel places further x x' := by
  cases parallel with
  | ok here => exact .ok (next _ _ here)
  | error cause here => exact .error cause here

theorem Fault.Parallel.concur {further : α → α → Prop} (parallel : Parallel Eq related x x')
    (next : ∀ a a', related a a' → further a a') : Concur further x x' := by
  cases parallel with
  | ok here => exact .ok (next _ _ here)
  | error cause here =>
    rw [here]
    exact .error _

theorem Spot.parallel_eq : Spot.Parallel Eq :=
  ⟨congrArg Spot.rest, fun same n => congrArg (·.advance n) same⟩

variable {s s' : Spot} (parallel : Spot.Parallel places) (here : places s s')

include parallel here

theorem Spot.Parallel.scan? (p : Scan α) :
    Option.Rel (Beyond places) (s.scan? p) (s'.scan? p) := by
  unfold Spot.scan?
  rw [parallel.rest_eq here]
  cases p s'.rest with
  | none => exact .none
  | some found => exact .some (.found _ _ _ (parallel.advance here _))

theorem Spot.Parallel.atEnd_eq :
    s.atEnd = s'.atEnd := by
  rw [Spot.atEnd, Spot.atEnd, parallel.rest_eq here]

theorem Spot.Parallel.skipBlanks :
    places s.skipBlanks s'.skipBlanks := by
  rw [Spot.skipBlanks, Spot.skipBlanks, parallel.rest_eq here]
  exact parallel.advance here _

end Results

/-! ## Attributes -/

namespace Attribute

inductive Reading.Parallel (places : Spot → Spot → Prop) : Reading → Reading → Prop where
  | complete (entries : List Node) {s s' : Spot} (left : places s s') :
    Parallel places (.complete entries s) (.complete entries s')
  | continues (form : ListForm) (entries : List Node) {s s' : Spot} (left : places s s') :
    Parallel places (.continues form entries s) (.continues form entries s')

section Readers

variable {places : Spot → Spot → Prop} (parallel : Spot.Parallel places) {s s' : Spot}
  (here : places s s')

include parallel here

theorem readQuoted_parallel (quote : Char) :
    Fault.Parallel places (Spot.Beyond places) (readQuoted quote s) (readQuoted quote s') := by
  unfold readQuoted
  match s.scan? (quoted? quote 0), s'.scan? (quoted? quote 0),
    parallel.scan? here (quoted? quote 0) with
  | _, _, .none => exact .error _ here
  | _, _, .some found => exact .ok found

theorem readCode_parallel (form : ListForm) :
    Fault.Parallel places (Spot.Beyond places) (readCode form s) (readCode form s') := by
  unfold readCode
  rw [parallel.rest_eq here]
  cases code form.isTerminator {} s'.rest with
  | error close => exact .error _ here
  | ok found => exact .ok (.found _ _ _ (parallel.advance here _))

theorem readMarkupEntry_parallel :
    Fault.Parallel places (Spot.Beyond places) (readMarkupEntry s) (readMarkupEntry s') := by
  unfold readMarkupEntry
  match s.scan? assignedQuote, s'.scan? assignedQuote, parallel.scan? here assignedQuote with
  | _, _, .some (.found _ _ _ left) =>
    exact (readQuoted_parallel parallel left _).map
      fun | _, _, .found _ _ _ left => .found _ _ _ left
  | _, _, .none =>
    match s.scan? assigned, s'.scan? assigned, parallel.scan? here assigned with
    | _, _, .some (.found _ _ _ left) =>
      exact (readCode_parallel parallel left _).map
        fun | _, _, .found _ _ _ left => .found _ _ _ left
    | _, _, .none =>
      match s.scan? name, s'.scan? name, parallel.scan? here name with
      | _, _, .some (.found _ _ _ left) => exact .ok (.found _ _ _ left)
      | _, _, .none => exact .error _ here

theorem readHostValue_parallel (name : Text) :
    Fault.Parallel places (Spot.Beyond places) (readHostValue name s) (readHostValue name s') := by
  unfold readHostValue
  match s.scan? anyQuote, s'.scan? anyQuote, parallel.scan? here anyQuote with
  | _, _, .some (.found quote s₁ s₁' left) =>
    dsimp only
    match readQuoted quote s₁, readQuoted quote s₁', readQuoted_parallel parallel left quote with
    | _, _, .error _ left => exact .error _ left
    | _, _, .ok (.found _ s₂ s₂' left) =>
      dsimp only
      match s₂.scan? entryEnd, s₂'.scan? entryEnd, parallel.scan? left entryEnd with
      | _, _, .some (.found _ _ _ left) => exact .ok (.found _ _ _ left)
      | _, _, .none => exact .error _ left
  | _, _, .none =>
    dsimp only
    match readCode .host s, readCode .host s', readCode_parallel parallel here .host with
    | _, _, .error _ left => exact .error _ left
    | _, _, .ok (.found _ _ _ left) =>
      dsimp only
      split
      · exact .error _ left
      · exact .ok (.found _ _ _ left)

theorem readEntry_parallel (form : ListForm) :
    Fault.Parallel places (Spot.Beyond places) (readEntry form s) (readEntry form s') := by
  cases form with
  | markup => exact readMarkupEntry_parallel parallel here
  | host =>
    change Fault.Parallel _ _ (readHostEntry s) (readHostEntry s')
    unfold readHostEntry
    match s.scan? key, s'.scan? key, parallel.scan? here key with
    | _, _, .some (.found name _ _ left) => exact readHostValue_parallel parallel left name
    | _, _, .none => exact .error _ here

theorem skipGap_parallel (form : ListForm) : places (form.skipGap s) (form.skipGap s') := by
  rw [ListForm.skipGap, ListForm.skipGap, parallel.rest_eq here]
  exact parallel.advance here _

omit here in
theorem readEntries_parallel (form : ListForm) (entries : List Node) {s s' : Spot}
    (here : places s s') :
    Fault.Parallel places (Reading.Parallel places) (readEntries form entries s)
    (readEntries form entries s') := by
  have gap := skipGap_parallel parallel here form
  rw [readEntries_eq, readEntries_eq form entries s', parallel.atEnd_eq gap]
  split
  · exact .ok (.continues _ _ gap)
  · match (form.skipGap s).scan? (exactly [form.closer]),
      (form.skipGap s').scan? (exactly [form.closer]),
      parallel.scan? gap (exactly [form.closer]) with
    | _, _, .some (.found _ _ _ left) => exact .ok (.complete _ left)
    | _, _, .none =>
      dsimp only
      match read : readEntry form (form.skipGap s), readEntry form (form.skipGap s'),
        readEntry_parallel parallel gap form with
      | _, _, .error _ left => exact .error _ left
      | _, _, .ok (.found _ _ _ left) => exact readEntries_parallel form _ left
termination_by s.rest.length
decreasing_by
  have shorter := rest_length_of_readEntry read
  simp only [ListForm.skipGap, Spot.rest_advance, List.length_drop] at shorter
  omega

omit here in
theorem readShortcuts_parallel (entries : List Node) {s s' : Spot} (here : places s s') :
    Spot.Beyond places (readShortcuts entries s) (readShortcuts entries s') := by
  rw [readShortcuts_eq, readShortcuts_eq entries s']
  match read : s.scan? shortcut, s'.scan? shortcut, parallel.scan? here shortcut with
  | _, _, .none => exact .found _ _ _ here
  | _, _, .some (.found _ _ _ left) => exact readShortcuts_parallel _ left
termination_by s.rest.length
decreasing_by
  exact Spot.rest_length_of_scan?
    (Scan.andThen_shortens (Scan.char_shortens _) (Scan.run_shortens _).keeps) read

theorem read_parallel : Fault.Parallel places (Reading.Parallel places) (read s) (read s') := by
  unfold read
  match readShortcuts [] s, readShortcuts [] s', readShortcuts_parallel parallel [] here with
  | _, _, .found _ s₁ s₁' left =>
    dsimp only
    match s₁.scan? (exactly [ListForm.markup.opener]), s₁'.scan? (exactly [ListForm.markup.opener]),
      parallel.scan? left (exactly [ListForm.markup.opener]) with
    | _, _, .some (.found _ _ _ left) => exact readEntries_parallel parallel _ _ left
    | _, _, .none =>
      dsimp only
      match s₁.scan? (exactly [ListForm.host.opener]), s₁'.scan? (exactly [ListForm.host.opener]),
        parallel.scan? left (exactly [ListForm.host.opener]) with
      | _, _, .some (.found _ _ _ left) => exact readEntries_parallel parallel _ _ left
      | _, _, .none => exact .ok (.complete _ left)

end Readers

end Attribute

/-! ## Layouts -/

namespace Layout

/-- A relation between layouts that goes on, whatever is read. -/
structure Steady (related : Layout → Layout → Prop) : Prop where
  width_eq {l l' : Layout} : related l l' → l.width = l'.width
  append {l l' : Layout} : related l l' → ∀ nodes, related (l.append nodes) (l'.append nodes)
  push {l l' : Layout} : related l l' →
    ∀ opener start after, related (l.push opener start after) (l'.push opener start after)
  enter {l l' : Layout} : related l l' →
    ∀ w, (l.enter w).1 = (l'.enter w).1 ∧ related (l.enter w).2 (l'.enter w).2

theorem Steady.exists {ι : Sort _} {related : ι → Layout → Layout → Prop}
    (each : ∀ i, Steady (related i)) : Steady fun l l' => ∃ i, related i l l' where
  width_eq := fun ⟨i, here⟩ => (each i).width_eq here
  append := fun ⟨i, here⟩ nodes => ⟨i, (each i).append here nodes⟩
  push := fun ⟨i, here⟩ opener start after => ⟨i, (each i).push here opener start after⟩
  enter := fun ⟨i, here⟩ w => ⟨((each i).enter here w).1, i, ((each i).enter here w).2⟩

theorem steady_eq : Steady Eq where
  width_eq := congrArg width
  append := fun same _ => same ▸ rfl
  push := fun same _ _ _ => same ▸ rfl
  enter := fun same _ => same ▸ ⟨rfl, rfl⟩

/-- What two layouts share they share after making room for a line, if it is enough to close
containers and to change the indentations. -/
theorem enter_related {R : Layout → Layout → Prop} {l l' : Layout}
    (widths : ∀ {l l'}, R l l' → l.widths = l'.widths)
    (expecting : ∀ {l l'}, R l l' → l.expecting = l'.expecting)
    (close : ∀ {l l'}, R l l' → R l.close l'.close)
    (withWidths : ∀ {l l'}, R l l' → ∀ widths, R { l with widths } { l' with widths })
    (related : R l l') (w : Nat) :
    (l.enter w).1 = (l'.enter w).1 ∧ R (l.enter w).2 (l'.enter w).2 := by
  have deeper (ws : List Nat) : ∀ {l l'}, R l l' →
      R (closeDeeper w ws l) (closeDeeper w ws l') := by
    induction ws with
    | nil => exact fun related => withWidths related []
    | cons d ws ih =>
      intro l l' related
      rw [closeDeeper, closeDeeper]
      split
      · exact ih (close related)
      · exact withWidths related (d :: ws)
  have closed : R (if l'.expecting then l.close else l) (if l'.expecting then l'.close
      else l') := by
    split
    · exact close related
    · exact related
  have closed := deeper l'.widths closed
  unfold enter width
  rw [widths related, expecting related]
  split
  · split
    · exact ⟨rfl, withWidths related _⟩
    · exact ⟨rfl, related⟩
  · generalize closeDeeper w l'.widths (if l'.expecting then l.close else l) = here at closed
    generalize closeDeeper w l'.widths (if l'.expecting then l'.close else l') = there at closed
    simp only [widths closed]
    split <;> exact ⟨rfl, closed⟩

theorem enter_keeps {P : Layout → Prop} {l l' : Layout} {w : Nat} {cause? : Option Cause}
    (close : ∀ {l}, P l → P l.close) (withWidths : ∀ {l}, P l → ∀ widths, P { l with widths })
    (holds : P l) (entered : l.enter w = (cause?, l')) : P l' := by
  have both := enter_related (R := fun l l' => l = l' ∧ P l) (fun both => both.1 ▸ rfl)
    (fun both => both.1 ▸ rfl)
    (fun both => ⟨congrArg Layout.close both.1, close both.2⟩)
      (fun both ws => ⟨both.1 ▸ rfl, withWidths both.2 ws⟩)
    ⟨rfl, holds⟩ w
  rw [entered] at both
  exact both.2.2

end Layout

namespace Outline

/-! ## Lines that stand for themselves -/

inductive Pending.Parallel (places : Spot → Spot → Prop) : Pending → Pending → Prop where
  | nothing : Parallel places .nothing .nothing
  | silent : Parallel places .silent .silent
  | text (block : TextBlock) (use : TextUse) : Parallel places (.text block use) (.text block use)
  | attributes (form : Attribute.ListForm) (entries : List Node) (name : Text) (extraLines : Nat)
    {left left' : Spot}
    (here : places left left') :
    Parallel places (.attributes form entries left name extraLines)
    (.attributes form entries left' name extraLines)
  | code (text : Text) (use : CodeUse) : Parallel places (.code text use) (.code text use)

theorem Pending.Parallel.refl {places : Spot → Spot → Prop} (same : ∀ s, places s s) (p : Pending) :
    p.Parallel places p := by
  cases p with
  | attributes => exact .attributes _ _ _ _ (same _)
  | _ => constructor

theorem Pending.Parallel.eq {p p' : Pending} (pendings : p.Parallel Eq p') : p = p' := by
  cases pendings with
  | attributes _ _ _ _ here => rw [here]
  | _ => rfl

/-- States after so many lines each that differ in related places and layouts only. -/
structure State.Parallel (places : Spot → Spot → Prop) (related : Layout → Layout → Prop)
    (number number' : Nat) (s s' : State) : Prop where
  number_eq : s.number = number
  number_eq' : s'.number = number'
  layout : related s.layout s'.layout
  pending : s.pending.Parallel places s'.pending

section Lines

variable {places : Spot → Spot → Prop} {related : Layout → Layout → Prop} {number number' : Nat}
  {s s' : State}

section States

theorem State.Parallel.wait (states : State.Parallel places related number number' s s')
    {p p' : Pending} (pending : p.Parallel places p') :
    Parallel places related number number' { s with pending := p } { s' with pending := p' } :=
  ⟨states.number_eq, states.number_eq', states.layout, pending⟩

variable (steady : Layout.Steady related)
  (states : State.Parallel places related number number' s s')

include steady states

theorem State.Parallel.close (nodes : List Node) :
    Parallel places related number number' (s.close nodes) (s'.close nodes) :=
  ⟨states.number_eq, states.number_eq', steady.append states.layout _, .nothing⟩

theorem State.Parallel.openBlock (opener : Opener) (start after : List Node) :
    Parallel places related number number' (s.openBlock opener start after)
    (s'.openBlock opener start after) :=
  ⟨states.number_eq, states.number_eq', steady.push states.layout .., .nothing⟩

theorem State.Parallel.finishText (block : TextBlock) (use : TextUse) :
    Parallel places related number number' (s.finishText block use) (s'.finishText block use) := by
  cases use with
  | embedded | comment => exact states.close steady _
  | tag => exact states.openBlock steady ..

theorem State.Parallel.takeCode (code : Text) (use : CodeUse) :
    Parallel places related number number' (takeCode s code use) (takeCode s' code use) := by
  unfold Outline.takeCode
  split
  · exact states.wait (.code code use)
  · cases use with
    | control | output | tagOutput => exact states.openBlock steady ..

end States

variable (parallel : Spot.Parallel places) {spot spot' : Spot} (here : places spot spot')

section Text

include parallel here

theorem checkText_parallel : Fault.Parallel places Eq (checkText spot) (checkText spot') := by
  unfold checkText
  rw [parallel.rest_eq here]
  cases Interpolation.unclosed? spot'.rest with
  | none => exact .ok rfl
  | some offset => exact .error _ (parallel.advance here offset)

/-- What is made of a text that has been checked. -/
theorem checked_parallel {α : Type} {agree : α → α → Prop} {a a' : α} (same : agree a a') :
    Fault.Parallel places agree
      (match checkText spot with
        | .error fault => .error fault
        | .ok () => .ok a)
      (match checkText spot' with
        | .error fault => .error fault
        | .ok () => .ok a') := by
  have checked := checkText_parallel parallel here
  generalize checkText spot = x, checkText spot' = x' at checked
  cases checked with
  | ok => exact .ok same
  | error cause left => exact .error cause left

theorem addLine_parallel (block : TextBlock) (interpolated : Bool) (indent : Nat) :
    Fault.Parallel places Eq (block.addLine interpolated indent spot)
    (block.addLine interpolated indent spot') := by
  unfold TextBlock.addLine
  rw [parallel.rest_eq here]
  split
  · exact .error _ here
  · cases interpolated with
    | false => exact .ok rfl
    | true => exact checked_parallel parallel here rfl

end Text

variable (steady : Layout.Steady related)
  (states : State.Parallel places related number number' s s')

include parallel here steady states

theorem tagContent_parallel (head : TagHead) :
    Fault.Parallel places (State.Parallel places related number number') (tagContent s head spot)
      (tagContent s' head spot') := by
  have waits {text text' : Spot} (here : places text text') : State.Parallel places related number
    number'
      { s with pending := .text (.startingWith text.rest) (.tag head) }
      { s' with pending := .text (.startingWith text'.rest) (.tag head) } := by
    rw [parallel.rest_eq here]
    exact states.wait (.text ..)
  unfold tagContent
  rw [parallel.atEnd_eq here, parallel.rest_eq here]
  split
  · exact .error _ (parallel.skipBlanks here)
  · match spot.scan? Mark.tagOutput, spot'.scan? Mark.tagOutput,
      parallel.scan? here Mark.tagOutput with
    | _, _, .some (.found _ _ _ left) =>
      dsimp only
      rw [parallel.atEnd_eq left, parallel.rest_eq left]
      split
      · exact .error _ left
      · exact .ok (states.takeCode steady ..)
    | _, _, .none =>
      dsimp only
      split
      · exact .ok (states.openBlock steady ..)
      · match spot.scan? Mark.tagClosed, spot'.scan? Mark.tagClosed,
          parallel.scan? here Mark.tagClosed with
        | _, _, .some (.found _ _ _ left) =>
          dsimp only
          rw [parallel.rest_eq left]
          split
          · exact .ok (states.close steady _)
          · exact .error _ left
        | _, _, .none =>
          match spot.scan? Mark.tagText, spot'.scan? Mark.tagText,
            parallel.scan? here Mark.tagText with
          | _, _, .some (.found _ _ _ left) => exact checked_parallel parallel left (waits left)
          | _, _, .none => exact checked_parallel parallel here (waits here)

omit here in
theorem tagAttributes_parallel (name : Text) (extraLines : Nat)
    {reading reading' : Attribute.Reading} (readings : reading.Parallel places reading') :
    Fault.Parallel places (State.Parallel places related number number')
    (tagAttributes s name extraLines reading) (tagAttributes s' name extraLines reading') := by
  cases readings with
  | continues form entries left =>
    exact .ok (states.wait (.attributes form entries name extraLines left))
  | @complete entries spot spot' here =>
    simp only [tagAttributes, tagEnd]
    match spot.scan? Mark.angles, spot'.scan? Mark.angles, parallel.scan? here Mark.angles with
    | _, _, .some (.found _ _ _ left) => exact tagContent_parallel parallel left steady states _
    | _, _, .none => exact tagContent_parallel parallel here steady states _

theorem tag_parallel (name : Text) :
    Fault.Parallel places (State.Parallel places related number number') (tag s name spot)
    (tag s' name spot') := by
  unfold tag
  match Attribute.read spot, Attribute.read spot', Attribute.read_parallel parallel here with
  | _, _, .error _ left => exact .error _ left
  | _, _, .ok readings => exact tagAttributes_parallel parallel steady states name 0 readings

theorem marked_parallel (o : Options) (indicator : Indicator) :
    Fault.Parallel places (State.Parallel places related number number') (marked o s spot indicator)
      (marked o s' spot' indicator) := by
  cases indicator with
  | tag name => exact tag_parallel parallel here steady states name
  | shortcut => exact tag_parallel parallel here steady states _
  | condComment => exact .ok (states.openBlock steady ..)
  | stray => exact .error _ here
  | silent => exact .ok ((states.close steady []).wait .silent)
  | embedded name => exact .ok (states.wait (.text ..))
  | doctype =>
    simp only [marked, parallel.rest_eq here]
    exact .ok (states.close steady _)
  | control =>
    simp only [marked, parallel.rest_eq here]
    exact .ok (states.takeCode steady ..)
  | output mark =>
    simp only [marked, parallel.atEnd_eq here, parallel.rest_eq here]
    split
    · exact .error _ here
    · exact .ok (states.takeCode steady ..)
  | comment =>
    simp only [marked, comment, parallel.atEnd_eq here, parallel.rest_eq here]
    split
    · exact .ok (states.openBlock steady ..)
    · exact checked_parallel parallel here (states.wait (.text ..))
  | text =>
    simp only [marked, parallel.rest_eq here]
    exact checked_parallel parallel here (states.close steady _)

theorem dispatch_parallel (o : Options) :
    Fault.Parallel places (State.Parallel places related number number') (dispatch o s spot)
    (dispatch o s' spot') := by
  unfold dispatch
  match spot.scan? Indicator.read, spot'.scan? Indicator.read,
    parallel.scan? here Indicator.read with
  | _, _, .some (.found _ _ _ left) => exact marked_parallel parallel left steady states o _
  | _, _, .none => exact marked_parallel parallel here steady states o .text

end Lines

/-! ## Steps -/

section Steps

variable {places : Spot → Spot → Prop} (parallel : Spot.Parallel places)
  {related : Layout → Layout → Prop}
  (steady : Layout.Steady related) {number number' : Nat} {s s' : State} {o : Options}
    {line line' : Text}
  (width : Indent.width o.tabSize line = Indent.width o.tabSize line')
  (start : places (Spot.start number line).skipBlanks (Spot.start number' line').skipBlanks)

include parallel start

theorem trimLeft_parallel : Text.trimLeft line = Text.trimLeft line' := by
  simpa only [Spot.rest_skipBlanks, Spot.start] using parallel.rest_eq start

theorem allBlank_parallel : Text.allBlank line = Text.allBlank line' := by
  rw [← Text.allBlank_trimLeft, trimLeft_parallel parallel start, Text.allBlank_trimLeft]

include steady width

variable (states : State.Parallel places related number number' s s')

include states

theorem nested_parallel : nested o s line = nested o s' line' := by
  rw [nested, nested, allBlank_parallel parallel start, steady.width_eq states.layout, width]

theorem fresh_parallel :
    Fault.Parallel places (State.Parallel places related number number') (fresh o s line)
    (fresh o s' line') := by
  unfold fresh
  rw [allBlank_parallel parallel start, width, states.number_eq, states.number_eq']
  split
  · exact .ok (states.close steady [])
  · obtain ⟨cause, layout⟩ := steady.enter states.layout (Indent.width o.tabSize line')
    dsimp only
    generalize s.layout.enter (Indent.width o.tabSize line') = entered at cause layout
    generalize s'.layout.enter (Indent.width o.tabSize line') = entered' at cause layout
    obtain ⟨cause?, l⟩ := entered
    obtain ⟨_, l'⟩ := entered'
    cases cause
    cases cause? with
    | some cause => exact .error cause start
    | none =>
      have entered : State.Parallel places related number number' ⟨number, l, .nothing⟩
        ⟨number', l', .nothing⟩ :=
        ⟨rfl, rfl, layout, .nothing⟩
      exact dispatch_parallel parallel start steady entered o

omit start in
/-- A line does the same to both states. -/
theorem step_parallel
    (start : places (Spot.start (number + 1) line).skipBlanks
      (Spot.start (number' + 1) line').skipBlanks) :
    Fault.Parallel places (State.Parallel places related (number + 1) (number' + 1)) (step o s line)
      (step o s' line') := by
  obtain ⟨n, l, pending⟩ := s
  obtain ⟨n', l', pending'⟩ := s'
  obtain ⟨(rfl : n = number), (rfl : n' = number'), layout, pendings⟩ := states
  have counted : State.Parallel places related (n + 1) (n' + 1) ⟨n + 1, l, pending⟩ ⟨n' + 1, l',
    pending'⟩ :=
    ⟨rfl, rfl, layout, pendings⟩
  cases pendings with
  | nothing => exact fresh_parallel parallel steady width start counted
  | silent =>
    simp only [step, nested_parallel parallel steady width start counted]
    split
    · exact .ok ((counted.close steady []).wait .silent)
    · exact fresh_parallel parallel steady width start counted
  | text block use =>
    simp only [step, textLine, nested_parallel parallel steady width start counted,
      allBlank_parallel parallel start, width]
    split
    · exact .ok (counted.wait (.text ..))
    · split
      · match block.addLine use.interpolated (Indent.width o.tabSize line')
          (Spot.start (n + 1) line).skipBlanks,
          block.addLine use.interpolated (Indent.width o.tabSize line')
            (Spot.start (n' + 1) line').skipBlanks,
          addLine_parallel parallel start block use.interpolated (Indent.width o.tabSize line') with
        | _, _, .error _ left => exact .error _ left
        | _, _, .ok rfl => exact .ok (counted.wait (.text ..))
      · exact fresh_parallel parallel steady width start (counted.finishText steady block use)
  | attributes form entries name extraLines =>
    simp only [step, Attribute.resume]
    match Attribute.readEntries form entries (Spot.start (n + 1) line).skipBlanks,
      Attribute.readEntries form entries (Spot.start (n' + 1) line').skipBlanks,
      Attribute.readEntries_parallel parallel form entries start with
    | _, _, .error _ left => exact .error _ left
    | _, _, .ok readings => exact tagAttributes_parallel parallel steady counted name _ readings
  | code text use =>
    have same : Text.trim line = Text.trim line' :=
      congrArg Text.trimRight (trimLeft_parallel parallel start)
    simp only [step, same]
    exact .ok (counted.takeCode steady ..)

end Steps

/-! ## States that agree on what is pending -/

/-- Two states that agree on what is pending and whose layouts are related. -/
structure State.Beside (related : Layout → Layout → Prop) (s s' : State) : Prop where
  number : s.number = s'.number
  pending : s.pending = s'.pending
  layout : related s.layout s'.layout

section Beside

variable {related : Layout → Layout → Prop} {o : Options} {s s' : State}

theorem State.Beside.parallel (beside : State.Beside related s s') :
    State.Parallel Eq related s.number s.number s s' :=
  ⟨rfl, beside.number.symm, beside.layout, beside.pending ▸ .refl (fun _ => rfl) _⟩

theorem State.Parallel.beside {number : Nat}
    (states : State.Parallel Eq related number number s s') : State.Beside related s s' :=
  ⟨states.number_eq.trans states.number_eq'.symm, states.pending.eq, states.layout⟩

variable (steady : Layout.Steady related) (beside : State.Beside related s s')

include steady beside

theorem dispatch_beside (o : Options) (spot : Spot) :
    Concur (State.Beside related) (dispatch o s spot) (dispatch o s' spot) :=
  (dispatch_parallel Spot.parallel_eq rfl steady beside.parallel o).concur fun _ _ =>
    State.Parallel.beside

theorem step_beside (line : Text) :
    Concur (State.Beside related) (step o s line) (step o s' line) :=
  (step_parallel Spot.parallel_eq steady rfl beside.parallel rfl).concur fun _ _ =>
    State.Parallel.beside

theorem foldlM_beside (lines : List Text) :
    Concur (State.Beside related) (lines.foldlM (step o) s) (lines.foldlM (step o) s') := by
  induction lines generalizing s s' with
  | nil => exact .ok beside
  | cons line lines ih =>
    rw [List.foldlM_cons, List.foldlM_cons]
    exact (step_beside steady beside line).bind fun _ _ => ih

theorem finish_beside :
    Concur (fun n n' => ∃ l l', related l l' ∧ n = l.tree ∧ n' = l'.tree) (finish s)
    (finish s') := by
  have finished (block : TextBlock) (use : TextUse) :=
    (beside.parallel.finishText steady block use).layout
  obtain ⟨number, l, pending⟩ := s
  obtain ⟨_, l', _⟩ := s'
  obtain ⟨rfl, rfl, layout⟩ := beside
  cases pending with
  | nothing | silent => exact .ok ⟨l, l', layout, rfl, rfl⟩
  | text block use => exact .ok ⟨_, _, finished block use, rfl, rfl⟩
  | attributes form entries left name extraLines | code text use => exact .error _

end Beside

theorem ofLines_of_run {o : Options} {s : State} {before : List Text}
    (read : before.foldlM (step o) {} = .ok s) (line : Text) (after : List Text) :
    ofLines o (before ++ line :: after) =
      (step o s line >>= fun s => after.foldlM (step o) s >>= finish) := by
  rw [ofLines, List.foldlM_append, read]
  show ((line :: after).foldlM (step o) s >>= finish) = _
  rw [List.foldlM_cons, bind_assoc]

end Outline

end MarkupTemplate
