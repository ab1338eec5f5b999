import MarkupTemplate.Proofs.Outline.Depth

/-!
# What holds of everything that is read

If a property goes from the children of an open node to the node once it is filled, then it holds of
every node of the tree as soon as it holds of what each line adds. `Reads` collects what has to be
shown for this, and `Reads.run` says it of all lines that are read.
-/

namespace MarkupTemplate

open List

/-! ## Layouts -/

/-- A layout in which every node and every open node has a property. -/
structure Layout.Holds (each : Node → Prop) (opens : Opener → Prop) (l : Layout) : Prop where
  inner : ∀ n ∈ l.inner, each n
  before : ∀ v ∈ l.outer, ∀ n ∈ v.before, each n
  opener : ∀ v ∈ l.outer, opens v.opener
  after : ∀ v ∈ l.outer, ∀ n ∈ v.after, each n

namespace Layout.Holds

variable {each : Node → Prop} {opens : Opener → Prop} {l : Layout}

variable (holds : Holds each opens l)

include holds

theorem append {nodes : List Node} (added : ∀ n ∈ nodes, each n) :
    Holds each opens (l.append nodes) :=
  ⟨forall_mem_append.mpr ⟨holds.inner, added⟩, holds.before, holds.opener, holds.after⟩

theorem push {opener : Opener} {start after : List Node} (opened : opens opener)
    (starts : ∀ n ∈ start, each n) (follows : ∀ n ∈ after, each n) :
    Holds each opens (l.push opener start after) :=
  ⟨starts, forall_mem_cons.mpr ⟨holds.inner, holds.before⟩,
    forall_mem_cons.mpr ⟨opened, holds.opener⟩, forall_mem_cons.mpr ⟨follows, holds.after⟩⟩

theorem withWidths (widths : List Nat) : Holds each opens { l with widths } :=
  ⟨holds.inner, holds.before, holds.opener, holds.after⟩

variable (fill : ∀ {opener : Opener} {children : List Node}, opens opener →
  (∀ n ∈ children, each n) →
  each (opener.fill children))

include fill

theorem close : Holds each opens l.close := by
  obtain ⟨widths, inner, outer⟩ := l
  cases outer with
  | nil => exact holds
  | cons v outer =>
    obtain ⟨inside, before, opener, after⟩ := holds
    rw [forall_mem_cons] at before opener after
    refine ⟨?_, before.2, opener.2, after.2⟩
    exact forall_mem_append.mpr ⟨before.1, forall_mem_cons.mpr ⟨fill opener.1 inside, after.1⟩⟩

theorem enter {l' : Layout} {w : Nat} {cause? : Option Cause}
    (entered : l.enter w = (cause?, l')) : Holds each opens l' :=
  enter_keeps (fun holds => holds.close fill) withWidths holds entered

theorem children : ∀ n ∈ l.children, each n := by
  obtain ⟨widths, inner, outer⟩ := l
  induction outer generalizing inner with
  | nil => exact holds.inner
  | cons v outer ih => exact ih (v.close inner) (holds.close fill)

end Layout.Holds

namespace Outline

/-! ## Lines -/

def Effect.Holds (each : Node → Prop) (opens : Opener → Prop) : Effect → Prop
  | .close nodes => ∀ n ∈ nodes, each n
  | .block opener start after => opens opener ∧ (∀ n ∈ start, each n) ∧ ∀ n ∈ after, each n
  | .silent | .wait _ => True

/-- A property of everything that is read, given one of the unfinished text blocks. -/
structure Reads (o : Options) (each : Node → Prop) (opens : Opener → Prop)
    (texts : TextBlock → TextUse → Prop) : Prop where
  fill {opener : Opener} {children : List Node} :
    opens opener → (∀ n ∈ children, each n) → each (opener.fill children)
  newline : each .newline
  line {effect : Effect} : LineDoes o effect → effect.Holds each opens
  tag {extraLines : Nat} {effect : Effect} : TagDoes extraLines effect → effect.Holds each opens
  code {code : Text} {use : CodeUse} {effect : Effect} :
    CodeDoes code use effect → use.Good → effect.Holds each opens
  text {block : TextBlock} {use : TextUse} : (∀ n ∈ block.nodes, IsTextNode n) → use.Good →
    texts block use →
    (textEffect block use).Holds each opens

def Pending.Holds (texts : TextBlock → TextUse → Prop) : Pending → Prop
  | .text block use => texts block use
  | _ => True

namespace Reads

variable {o : Options} {each : Node → Prop} {opens : Opener → Prop}
  {texts : TextBlock → TextUse → Prop}

variable (reads : Reads o each opens texts)

include reads

theorem effect {s : State} (holds : s.layout.Holds each opens)
    {effect : Effect} (does : effect.Holds each opens) :
    (s.after effect).layout.Holds each opens := by
  have mark : ∀ n ∈ [Node.newline], each n := forall_mem_singleton.mpr reads.newline
  cases effect with
  | close nodes => exact holds.append (forall_mem_append.mpr ⟨does, mark⟩)
  | block opener start after =>
    exact holds.push does.1 (forall_mem_append.mpr ⟨does.2.1, mark⟩) does.2.2
  | silent => exact holds.append mark
  | wait pending => exact holds

theorem settled {s : State} (holds : s.layout.Holds each opens)
    (good : s.pending.Good) (inText : s.pending.Holds texts) : s.settled.Holds each opens := by
  unfold State.settled
  split
  next block use pending =>
    rw [pending] at good inText
    rw [finishText_eq]
    exact reads.effect holds (reads.text good.1 good.2 inText)
  next => exact holds

theorem step {s s' : State} (good : s.pending.Good)
    (inText : s.pending.Holds texts) (holds : s.layout.Holds each opens) (taken : Step o s s') :
    s'.layout.Holds each opens := by
  have mark : ∀ n ∈ [Node.newline], each n := forall_mem_singleton.mpr reads.newline
  cases taken with
  | blank | silent => exact holds.append mark
  | textBlank | textLine => exact holds
  | attributes _ does => exact reads.effect holds (reads.tag does)
  | code _ good _ does => exact reads.effect holds (reads.code does good)
  | line _ entered does =>
    refine reads.effect ?_ (reads.line does)
    exact (reads.settled holds good inText).enter reads.fill entered

/-- Lines add only what has the property, if no step spoils a text block. -/
theorem run {lines : List Text} (plain : ∀ line ∈ lines, '\n' ∉ line)
    (keeps : ∀ s s', s.pending.Holds texts → Step o s s' → s'.pending.Holds texts) {s : State}
    (run : lines.foldlM (Outline.step o) {} = .ok s) :
    s.pending.Good ∧ s.pending.Holds texts ∧ s.layout.Holds each opens := by
  have start : (State.pending {}).Holds texts ∧ (State.layout {}).Holds each opens :=
    ⟨trivial, nofun, fun _ mem => (nomatch mem), nofun,
      nofun⟩
  have good : (State.pending {}).Good := trivial
  have kept : ∀ s s' : State, s.pending.Good → s.pending.Holds texts ∧ s.layout.Holds each opens →
      Step o s.counted s' → s'.pending.Holds texts ∧ s'.layout.Holds each opens :=
    fun s s' good inv taken =>
      ⟨keeps s.counted s' inv.1 taken, reads.step (s := s.counted) good inv.1 inv.2 taken⟩
  exact run_invariant kept plain good start run

end Reads

end Outline

end MarkupTemplate
