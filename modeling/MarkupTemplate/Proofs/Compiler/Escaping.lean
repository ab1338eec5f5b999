import MarkupTemplate.Proofs.Compiler.Passes
import MarkupTemplate.Proofs.Node.Guarded

/-!
# Escaped output

A template that never asks for output without escaping gives none: every output of its tree is
guarded if escaping is on by default, and those of its attributes are in any case
(`transform_guarded`). The passes are split where attributes have been merged, since the tags that
are left there tell which outputs come from attributes.
-/

namespace MarkupTemplate

open Embedded (Registry Cache Agrees verbatim)
open Node (Fits Place)
open List (forall_mem_cons)

/-! ## Trees that are read -/

namespace Node

/-- Whether a node asks for output without escaping, or may do so as an embedded block. -/
def bypassesEscaping (n : Node) : Bool :=
  n.isRawOutput || n.isRawText || n.isEmbedded

theorem hasRaw_of_plain {n : Node} (plain : ∀ m ∈ n.parts, ¬m.bypassesEscaping) (t : Text)
    (mem : .interpolate t ∈ n.parts) : false || !Interpolation.hasRaw t := by
  simpa [bypassesEscaping, isRawOutput, isRawText, isEmbedded] using plain _ mem

theorem forall_parts_of_mem {holds : Node → Prop} {ns : List Node}
    (each : ∀ m ∈ partsOf ns, holds m) {n : Node} (mem : n ∈ ns) : ∀ m ∈ n.parts, holds m :=
  fun m inside => each m (mem_partsOf.mpr ⟨n, mem, inside⟩)

theorem said_of_isRead {format : Format} {n : Node} (read : Outline.IsRead format n)
    (plain : ∀ m ∈ n.parts, ¬m.bypassesEscaping) : Said false true n := by
  induction read with
  | @leaf l read =>
    refine .leaf ?_
    cases l with
    | newline | static | doctype => rfl
    | interpolate t => exact hasRaw_of_plain plain t (mem_parts_self _)
    | _ => cases read
  | @frame f inner read tags _ ih =>
    rw [parts, forall_mem_cons] at plain
    have said := ih plain.2
    cases f with
    | comment | condComment | escape => exact .frame read (by rintro ⟨⟩) said
    | trim => exact .frame rfl tags said
    | control source => exact .control source said
    | output escaped source =>
      cases escaped with
      | true => exact .output true source rfl said
      | false => exact absurd rfl plain.1
    | _ => cases read
  | embedded => exact absurd rfl (plain _ (mem_parts_self _))
  | seq _ ih =>
    rw [parts, forall_mem_cons] at plain
    exact .seq fun n mem => ih n mem (forall_parts_of_mem plain.2 mem)
  | closed entries =>
    rw [parts, forall_mem_cons] at plain
    exact .closed fun e mem =>
      said_isEntry (entries e mem) (hasRaw_of_plain (forall_parts_of_mem plain.2 mem))
  | tag entries _ ih =>
    rw [parts, forall_mem_cons, List.forall_mem_append] at plain
    refine .tag (fun e mem => ?_) (ih plain.2.2)
    exact said_isEntry (entries e mem) (hasRaw_of_plain (forall_parts_of_mem plain.2.1 mem))

/-! ## Nothing to render -/

theorem isRead_fits {format : Format} {n : Node} (read : Outline.IsRead format n)
    (plain : ∀ m ∈ n.parts, ¬m.isEmbedded) : Fits .rendered format .tree n := by
  induction read with
  | leaf read => exact .leaf rfl (Outline.kinds_leaf read)
  | frame read _ _ ih =>
    rw [parts, forall_mem_cons] at plain
    exact .frame rfl (Outline.kinds_frame read) (ih plain.2)
  | embedded => exact absurd rfl (plain _ (mem_parts_self _))
  | seq _ ih =>
    rw [parts, forall_mem_cons] at plain
    exact .seq rfl fun n mem => ih n mem fun m inside =>
      plain.2 m (mem_partsOf.mpr ⟨n, mem, inside⟩)
  | closed entries => exact .closed rfl fun e mem => fits_isEntry rfl rfl (entries e mem)
  | tag entries _ ih =>
    rw [parts, forall_mem_cons, List.forall_mem_append] at plain
    exact .tag rfl (fun e mem => fits_isEntry rfl rfl (entries e mem)) (ih plain.2.2)

section Rendered

variable {o : Options} {r : Registry}

theorem renderedAll_eq_pure {ns : List Node} (each : ∀ n ∈ ns, n.rendered o r = pure n) :
    renderedAll o r ns = pure ns := by
  induction ns with
  | nil => rfl
  | cons n ns ih =>
    rw [forall_mem_cons] at each
    rw [renderedAll, each.1, ih each.2, pure_bind, pure_bind]

theorem rendered_frame {f : Frame} (other : ∀ name, f ≠ .embedded name) {inner : Node}
    (same : inner.rendered o r = pure inner) :
    rendered o r (.frame f inner) = pure (.frame f inner) := by
  rw [rendered, same, pure_bind]
  exact other

theorem rendered_of_fits {format : Format} {p : Place} {n : Node}
    (fits : Fits .rendered format p n) : n.rendered o r = pure n := by
  induction fits with
  | @leaf p l nested allowed =>
    cases l with
    | unknown => nomatch allowed
    | _ => rfl
  | frame nested allowed _ ih => exact rendered_frame (by rintro name rfl; nomatch allowed) ih
  | seq _ _ ih | closed _ _ ih => rw [rendered, renderedAll_eq_pure ih, pure_bind]
  | tag _ _ _ ihEntries ihBody =>
    rw [rendered, renderedAll_eq_pure ihEntries, pure_bind, ihBody, pure_bind]
  | attr _ ih | shortcut _ ih => exact rendered_frame (by simp) ih
  | code => rfl
  | known _ _ ih => exact ih

end Rendered

end Node

/-! ## Passes -/

namespace Pass

variable {o : Options} {r : Registry}

def untilMerged (o : Options) : List Pass :=
  [embed, interpolate, control, override] ++ (if o.sortAttrs then [sort] else []) ++ [merge]

def fromMarkup (o : Options) : List Pass :=
  [markup, escape, flatten] ++ (if o.streaming then [] else [join])

theorem all_eq_append (o : Options) : all o = untilMerged o ++ fromMarkup o := by
  simp [all, untilMerged, fromMarkup]

variable {n kept : Node} {met met' : Cache}

theorem runAll_keeps_property {holds : Node → Prop} {passes : List Pass}
    (each : ∀ pass ∈ passes, ∀ n, holds n → ∀ met m met₁, pass.run o r n met = (.ok m, met₁) →
      holds m ∧ met₁ = met)
    {n' : Node} (here : holds n) (ran : runAll o r passes n met = (.ok n', met')) :
    holds n' ∧ met' = met := by
  induction passes generalizing n met with
  | nil =>
    cases ran
    exact ⟨here, rfl⟩
  | cons pass passes ih =>
    rw [forall_mem_cons] at each
    obtain ⟨m, met₁, first, rest⟩ := exists_of_runAll_cons ran
    obtain ⟨next, rfl⟩ := each.1 n here met m met₁ first
    exact ih each.2 next rest

theorem said_of_runAll (agrees : Agrees met r) (read : Outline.IsRead o.format n)
    (ran : runAll o r [embed, interpolate] n met = (.ok kept, met')) : kept.Said true false := by
  obtain ⟨m, met₁, first, rest⟩ := exists_of_runAll_cons ran
  obtain ⟨expanded, met₂, second, done⟩ := exists_of_runAll_cons rest
  cases done
  obtain ⟨_, rendered, _⟩ := Node.run_rendered o r n met agrees
  rw [run, rendered] at first
  have said := (Node.said_embed _ _ read).of_ok (Prod.mk.inj first).1
  exact (Node.said_interpolated said).of_ok (Prod.mk.inj second).1

theorem stated_of_run {pass : Pass} (lists : pass ∈ [override, sort]) {raw : Bool}
    {codes : List Text} {lo hi : Nat}
    (stated : Node.Stated raw codes lo hi n) (ran : pass.run o r n met = (.ok kept, met')) :
    Node.Stated raw codes lo hi kept ∧ met' = met := by
  rcases List.mem_pair.mp lists with rfl | rfl
  · obtain ⟨first, rfl⟩ := Prod.mk.inj ran
    exact ⟨((Node.overridden_listPass o.overrideAttrs).stated stated).of_ok first, rfl⟩
  · have yields : Yields (Node.Stated raw codes lo hi) (fun _ => True) (runPure o sort n) := by
      rw [runPure]
      split
      · exact (Node.sorted_listPass o.sortAttrKeys).stated stated
      · exact stated
    obtain ⟨first, rfl⟩ := Prod.mk.inj ran
    exact ⟨yields.of_ok first, rfl⟩

theorem stated_of_runAll {raw : Bool} (said : n.Said raw false)
    (ran : runAll o r (control :: override :: if o.sortAttrs then [sort] else []) n met =
      (.ok kept, met')) :
    (∃ hi, kept.Stated raw n.codes 0 hi) ∧ met' = met := by
  obtain ⟨controlled, _, first, ran⟩ := exists_of_runAll_cons ran
  obtain ⟨made, rfl⟩ := Prod.mk.inj first
  have numbered : Yields (fun m => ∃ hi, Node.Stated raw n.codes 0 hi m) (fun _ => True)
    (runPure o control n) :=
    (Node.stated_controlled said).map fun r stated => ⟨r.2, stated⟩
  obtain ⟨hi, stated⟩ := numbered.of_ok made
  have lists : ∀ pass ∈ override :: (if o.sortAttrs then [sort] else []),
      pass ∈ [override, sort] := by
    split
    · exact fun _ mem => mem
    · simp
  obtain ⟨stated, rfl⟩ := runAll_keeps_property
    (fun pass mem n stated met m met₁ ran => stated_of_run (lists pass mem) stated ran) stated ran
  exact ⟨⟨hi, stated⟩, rfl⟩

theorem guards_of_runAll (said : n.Said false true) (still : n.rendered o r = pure n)
    (ran : runAll o r (untilMerged o) n met = (.ok kept, met')) :
    Guards o.escapeHtml (kept.escapedEvents o.escapeHtml) ∧ met' = met := by
  obtain ⟨listed, _, first, last⟩ := exists_of_runAll_append ran
  obtain ⟨rendered, _, ranEmbed, rest⟩ := exists_of_runAll_cons first
  rw [run, still] at ranEmbed
  cases ranEmbed
  obtain ⟨expanded, _, ranInterpolate, rest⟩ := exists_of_runAll_cons rest
  obtain ⟨made, rfl⟩ := Prod.mk.inj ranInterpolate
  obtain ⟨⟨hi, stated⟩, rfl⟩ := stated_of_runAll ((Node.said_interpolated said).of_ok made) rest
  obtain ⟨kept', _, merged, done⟩ := exists_of_runAll_cons last
  cases done
  obtain ⟨attributed, rfl⟩ := Prod.mk.inj merged
  have guards : Yields (Node.GuardsUnder o.escapeHtml none) (fun _ => True)
    (runPure o merge listed) :=
    (Node.guards_attributed o stated 0 none (by simp)).map fun _ guards => guards
  exact ⟨guards.of_ok attributed, rfl⟩

theorem events_of_runAll {final : Node}
    (ran : runAll o r (fromMarkup o) kept met = (.ok final, met')) :
    final.events = (kept.escapedEvents o.escapeHtml).map Prod.snd := by
  obtain ⟨flat, met₁, first, last⟩ := exists_of_runAll_append ran
  obtain ⟨written, _, ranMarkup, rest⟩ := exists_of_runAll_cons first
  obtain ⟨escaped, _, ranEscape, rest⟩ := exists_of_runAll_cons rest
  obtain ⟨flat', _, ranFlatten, done⟩ := exists_of_runAll_cons rest
  cases done
  have acts := ((Node.sameActs_markup o kept ⟨o.pretty, 0⟩ {}).map fun _ same => same).of_ok
    (Prod.mk.inj ranMarkup).1
  have codes :=
    (Node.events_escaped o.escapeHtml written none none .content).of_ok (Prod.mk.inj ranEscape).1
  have same := (Node.sameEvents_flattened escaped).of_ok (Prod.mk.inj ranFlatten).1
  have small : Node.SameEvents flat final := by
    split at last
    · cases last
      exact .refl _
    · obtain ⟨joined, _, ranJoin, done⟩ := exists_of_runAll_cons last
      cases done
      exact (Node.sameEvents_joined flat).of_ok (Prod.mk.inj ranJoin).1
  calc final.events
    _ = (escaped.eventsBy (fun _ source => source) none .content).map Prod.snd := by
      rw [Node.events, small, same]
    _ = (written.eventsBy (Node.escapedCode o.escapeHtml) none .content).map Prod.snd := by
      rw [codes]
    _ = (kept.escapedEvents o.escapeHtml).map Prod.snd := acts _ _ _ _

end Pass

/-! ## Templates -/

/-- Where no output asks not to be escaped, every output of a template is guarded: those of
attributes always, and all if escaping is on by default. `kept` is the tree with its tags in place,
so that its events tell which of them come from attributes. -/
theorem transform_guarded {o : Options} {source : Source} {n : Node} (read : source.tree o = .ok n)
    (plain : ∀ m ∈ n.parts, ¬m.bypassesEscaping) {r : Registry} {met met' : Cache} {final : Node}
    (compiled : transform o r source met = (.ok final, met')) :
    ∃ kept, Pass.runAll o r (Pass.untilMerged o) n met = (.ok kept, met) ∧
      final.events = (kept.escapedEvents o.escapeHtml).map Prod.snd ∧
      ∀ before origin code after, kept.escapedEvents o.escapeHtml = before ++
        (origin, .output code) :: after →
        o.escapeHtml ∨ origin = .attribute → IsGuarded (before.map Prod.snd) code := by
  obtain ⟨t, parsed⟩ := Source.exists_of_tree read
  have tree := (Outline.isRead_of_source parsed).1
  have still := Node.rendered_of_fits (o := o) (r := r) (Node.isRead_fits tree fun m mem embedded =>
    plain m mem (by simp [Node.bypassesEscaping, embedded]))
  have ran := exists_of_transform read compiled
  rw [Pass.all_eq_append] at ran
  obtain ⟨kept, met₁, first, rest⟩ := Pass.exists_of_runAll_append ran
  obtain ⟨guards, rfl⟩ := Pass.guards_of_runAll (Node.said_of_isRead tree plain) still first
  exact ⟨kept, first, Pass.events_of_runAll rest, fun _ _ _ _ found due =>
    guards.isGuarded found due⟩

/-- A tag with a joined class and a text with code, and an output line with another below it. -/
def joinedClass : Source :=
  .text "%p.a(class=b d=e) #\x7bf\x7d\n&= g\n  = h"

def escapedInOrder : Options :=
  { escapeHtml := true, sortAttrs := false }

theorem transform_guarded_joinedClass :
    ∃ n final, joinedClass.tree escapedInOrder = .ok n ∧ (∀ m ∈ n.parts, ¬m.bypassesEscaping) ∧
      transform escapedInOrder (Registry.builtin verbatim) joinedClass [] = (.ok final, []) ∧
      ∃ kept, Pass.runAll escapedInOrder (Registry.builtin verbatim)
      (Pass.untilMerged escapedInOrder) n [] = (.ok kept, []) ∧
        final.events = (kept.escapedEvents true).map Prod.snd ∧
        ∀ before origin code after, kept.escapedEvents true = before ++ (origin, .output code) ::
          after → true ∨ origin = .attribute → IsGuarded (before.map Prod.snd) code := by
  have plain : (joinedClass.tree escapedInOrder).toOption.any
      fun n => n.parts.all fun m => !m.bypassesEscaping := by decide +kernel
  have compiles : (transform escapedInOrder (Registry.builtin verbatim) joinedClass []).1.isOk := by
    decide +kernel
  have still : (transform escapedInOrder (Registry.builtin verbatim) joinedClass []).2 = [] := by
    decide +kernel
  obtain ⟨n, read, plain⟩ := exists_of_any plain
  obtain ⟨final, compiled⟩ := exists_of_fst_isOk compiles still
  have plain : ∀ m ∈ n.parts, ¬m.bypassesEscaping := by simpa using plain
  exact ⟨n, final, read, plain, compiled, transform_guarded read plain compiled⟩

end MarkupTemplate
