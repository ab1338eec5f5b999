import MarkupTemplate.Proofs.Compiler.Strategies
import MarkupTemplate.Proofs.Node.LoweredMarkup
import MarkupTemplate.Proofs.Program.Suites

/-!
# Suites of templates

In the final tree of a template, every block is right behind a statement that ends in a colon, and a
control line that needs statements below it is such a statement, with what is nested below it in its
block (`transform_suites`). The program prints every block right behind its statement, and one that
says nothing as one that does nothing (`generate_suites`). Of a block of statements without ink only
blank lines are left (`generate_blank_suite`).
-/

namespace MarkupTemplate

open Node (Becomes Attached Lowers StatedList MergedList NoTags IsCore HasSuite)
open Embedded (Registry Cache Agrees verbatim)
open Embedded.Registry (builtin)

namespace Pass

variable {o : Options} {r : Registry} {met met' : Cache}

theorem of_run {holds : Node → Prop} {pass : Pass} {n m : Node}
    (ran : pass.run o r n met = (.ok m, met'))
    (pure : pass.run o r n met = (pass.runPure o n, met))
    (yields : Yields holds (fun _ => True) (pass.runPure o n)) : holds m := by
  rw [pure] at ran
  exact yields.of_ok (Prod.mk.inj ran).1

theorem becomes_untilMerged {n kept : Node} (agrees : Agrees met r)
    (read : Outline.IsRead o.format n)
    (ran : runAll o r (untilMerged o) n met = (.ok kept, met')) :
    Becomes .read .merged MergedList n kept := by
  obtain ⟨listed, _, ran, last⟩ := exists_of_runAll_append ran
  obtain ⟨kept, _, ranMerge, done⟩ := exists_of_runAll_cons last
  cases done
  obtain ⟨chosen, _, ran, ranSort⟩ := exists_of_runAll_append ran
  obtain ⟨rendered, _, ranEmbed, ran⟩ := exists_of_runAll_cons ran
  obtain ⟨expanded, _, ranInterpolate, ran⟩ := exists_of_runAll_cons ran
  obtain ⟨stated, _, ranControl, ran⟩ := exists_of_runAll_cons ran
  obtain ⟨chosen, _, ranOverride, done⟩ := exists_of_runAll_cons ran
  cases done
  obtain ⟨_, same, _⟩ := Node.run_rendered o r n met agrees
  rw [run, same] at ranEmbed
  have embedded :=
    (Node.becomes_embed _ _ (Node.attached_of_isRead read)).of_ok (Prod.mk.inj ranEmbed).1
  have texts := of_run ranInterpolate rfl (Node.becomes_interpolated embedded.attached)
  have lines : Becomes .read .read (StatedList) expanded stated :=
    of_run ranControl rfl
      ((Node.becomes_controlled texts.attached o.disableCapture 0).map fun _ becomes => becomes)
  have lists :=
    of_run ranOverride rfl ((Node.overridden_listPass o.overrideAttrs).becomes lines.attached)
  have sorted : Becomes .read .read (StatedList) n listed := by
    have chosen := embedded.trans (texts.trans (lines.trans lists))
    split at ranSort
    next sorts =>
      obtain ⟨listed, _, ranSort, done⟩ := exists_of_runAll_cons ranSort
      cases done
      refine chosen.trans (of_run ranSort rfl ?_)
      rw [runPure, if_pos sorts]
      exact (Node.sorted_listPass o.sortAttrKeys).becomes chosen.attached
    next =>
      cases ranSort
      exact chosen
  exact sorted.trans (of_run ranMerge rfl
    ((Node.becomes_attributed o sorted.attached 0).map fun _ becomes => becomes))

theorem becomes_fromMarkup {kept final : Node} (attached : Attached false MergedList kept)
    (ran : runAll o r (fromMarkup o) kept met = (.ok final, met')) :
    Becomes .merged .escaped NoTags kept final := by
  obtain ⟨flat, _, ran, last⟩ := exists_of_runAll_append ran
  obtain ⟨written, _, ranMarkup, ran⟩ := exists_of_runAll_cons ran
  obtain ⟨escaped, _, ranEscape, ran⟩ := exists_of_runAll_cons ran
  obtain ⟨flat, _, ranFlatten, done⟩ := exists_of_runAll_cons ran
  cases done
  have texts : Becomes .merged .merged NoTags kept written :=
    of_run ranMarkup rfl ((Node.becomes_markup o attached ⟨o.pretty, 0⟩ {}).map fun _ becomes =>
      becomes)
  have codes := of_run ranEscape rfl (Node.becomes_escaped o.escapeHtml texts.attached none)
  have flattened := of_run ranFlatten rfl (Node.becomes_flattened codes.attached)
  have small := texts.trans (codes.trans flattened)
  split at last
  · cases last
    exact small
  · obtain ⟨joined, _, ranJoin, done⟩ := exists_of_runAll_cons last
    cases done
    exact small.trans (of_run ranJoin rfl (Node.becomes_joined small.attached))

end Pass

/-! ## Templates -/

theorem becomes_of_transform {o : Options} {r : Registry} {source : Source} {tree final : Node}
    {met met' : Cache} (agrees : Agrees met r) (read : source.tree o = .ok tree)
    (compiled : transform o r source met = (.ok final, met')) :
    Outline.IsRead o.format tree ∧ Becomes .read .escaped NoTags tree final := by
  obtain ⟨t, parsed⟩ := Source.exists_of_tree read
  have isRead := (Outline.isRead_of_source parsed).1
  have ran := exists_of_transform read compiled
  rw [Pass.all_eq_append] at ran
  obtain ⟨kept, _, first, rest⟩ := Pass.exists_of_runAll_append ran
  have becomes := Pass.becomes_untilMerged agrees isRead first
  exact ⟨isRead, becomes.trans (Pass.becomes_fromMarkup becomes.attached rest)⟩

/-- Every template that is compiled gives a tree of core nodes in which each block stands right
behind a statement that ends in a colon. The tree does what the template says, and each control line
that needs statements below it is a statement with a block behind it that does what is nested below
the line. -/
theorem transform_suites {markdown : Embedded.Renderer} {o : Options} {source : Source}
    {tree final : Node} {met met' : Cache}
    (agrees : Agrees met (builtin markdown)) (read : source.tree o = .ok tree)
    (compiled : transform o (builtin markdown) source met = (.ok final, met')) :
    IsCore final ∧
      (∀ (c : Node.Context) (body : Node), final = c.fill (.block body) →
        ∃ (d : Node.Context) (before : List Node) (header : Text) (after : List Node),
          c = d.comp (.seq (before ++ [.code header]) .here after) ∧ Text.endsWith ':' header) ∧
      Lowers .read tree final.items ∧
      ∀ (c : Node.Context) (code : Text) (body : Node), tree = c.fill (.control code body) →
      Control.opensBlock code →
        ∃ block, final.HasSuite (Control.suiteHeader code) block ∧
        Lowers .read body block.items := by
  obtain ⟨isRead, becomes⟩ := becomes_of_transform agrees read compiled
  have core := (core_of_transform agrees read compiled).isCore rfl
  have other : final.isBlock = false := becomes.isBlock.trans (Node.isBlock_of_isRead isRead)
  have lowers : Lowers .read tree final.items :=
    becomes.lowers _ ((Node.lowers_items core becomes.attached).1 other)
  refine ⟨core, ?_, lowers, ?_⟩
  · rintro c body rfl
    rcases becomes.attached.block_place with rfl | place
    · nomatch other
    · exact place
  · rintro c code body rfl opens
    obtain ⟨js, inside, below⟩ := Node.inside_of_lowers opens isRead lowers
    obtain ⟨block, rfl, has⟩ := Node.hasSuite_of_inside core becomes.attached inside
    exact ⟨block, has, below⟩

/-- Two control lines inside a tag with an attribute whose code decides about it. -/
def linesInTag : Source :=
  .text "%p(a=b)\n  - if c\n    = d\n  - else:\n    e"

def belowElse : Node :=
  .seq [.newline, .interpolate "e", .newline]

def elsePlace : Node.Context :=
  .seq [] (.tag "p" [.attr "a" (.value true "b")]
    (.seq [.newline, .control "if c" (.seq [.newline, .output true "d" (.seq [.newline])])] .here
      [])) []

theorem transform_suites_linesInTag :
    ∃ final, linesInTag.tree {} = .ok (elsePlace.fill (.control "else:" belowElse)) ∧
      transform {} (builtin verbatim) linesInTag [] = (.ok final, []) ∧ IsCore final ∧
      (∀ (c : Node.Context) (body : Node), final = c.fill (.block body) →
        ∃ (d : Node.Context) (before : List Node) (header : Text) (after : List Node),
          c = d.comp (.seq (before ++ [.code header]) .here after) ∧ Text.endsWith ':' header) ∧
      Lowers .read (elsePlace.fill (.control "else:" belowElse)) final.items ∧
      ∃ block, final.HasSuite "else:" block ∧ Lowers .read belowElse block.items := by
  have read : linesInTag.tree {} = .ok (elsePlace.fill (.control "else:" belowElse)) := by
    decide +kernel
  have compiles : (transform {} (builtin verbatim) linesInTag []).1.isOk := by decide +kernel
  have still : (transform {} (builtin verbatim) linesInTag []).2 = [] := by decide +kernel
  obtain ⟨final, compiled⟩ := exists_of_fst_isOk compiles still
  have agrees : Agrees [] (builtin verbatim) := nofun
  obtain ⟨core, places, lowers, lines⟩ := transform_suites agrees read compiled
  exact ⟨final, read, compiled, core, places, lowers,
    lines elsePlace "else:" belowElse rfl (by decide)⟩

/-! ## Programs -/

theorem exists_of_generate {o : Options} {r : Registry} {source : Source} {p : Program}
    {met met' : Cache} (generated : generate o r source met = (.ok p, met')) :
    ∃ final, transform o r source met = (.ok final, met') ∧ Program.ofTree o final = .ok p := by
  unfold generate at generated
  split at generated
  next => nomatch generated
  next final met₁ compiled =>
    cases written : Program.ofTree o final with
    | error failure =>
      rw [written] at generated
      nomatch generated
    | ok p =>
      rw [written] at generated
      cases generated
      exact ⟨final, compiled, written⟩

/-- In the program of every template, the lines of each block stand right behind the line of a
statement that ends in a colon, one level deeper. A block without items does nothing, and some line
on its level has ink unless it is made of statements without ink. -/
theorem generate_suites {markdown : Embedded.Renderer} {o : Options} {source : Source} {p : Program}
    {met met' : Cache}
    (agrees : Agrees met (builtin markdown))
    (generated : generate o (builtin markdown) source met = (.ok p, met')) :
    ∃ final, transform o (builtin markdown) source met = (.ok final, met') ∧
      ∀ (c : Node.Context) (body : Node), final = c.fill (.block body) →
        ∃ header front line ss back, Text.endsWith ':' header ∧
          p.lines = front ++ Stmt.printed p.strategy c.blocks (.plain (.host header) line) ++
            Stmt.printedAll p.strategy (c.blocks + 1) ss ++ back ∧
          Stmt.ownLines p.strategy (c.blocks + 1) ss ⊆ p.lines ∧
          (body.items = [] → ∃ line, ss = [.plain .pass line]) ∧
          ((∃ l ∈ Stmt.ownLines p.strategy (c.blocks + 1) ss, Text.allBlank l.1 = false) ↔
            body.isSilent = false) := by
  obtain ⟨final, compiled, written⟩ := exists_of_generate generated
  refine ⟨final, compiled, ?_⟩
  obtain ⟨tree, read⟩ := Source.tree_of_transform compiled
  obtain ⟨isRead, becomes⟩ := becomes_of_transform agrees read compiled
  have core := (core_of_transform agrees read compiled).isCore rfl
  rintro c body rfl
  rcases becomes.attached.block_place with rfl | ⟨d, before, header, after, rfl, ends⟩
  · nomatch becomes.isBlock.trans (Node.isBlock_of_isRead isRead)
  · have place : (d.comp (.seq (before ++ [.code header]) .here after)).fill (.block body) =
        d.fill (.seq (before ++ .code header :: .block body :: after)) := by
      rw [Node.Context.fill_comp, Node.Context.fill, List.append_assoc]
      rfl
    obtain ⟨front, line, ss, back, lines, own, idle, ink⟩ :=
      Program.ofTree_suite written place core becomes.attached
    rw [Node.Context.blocks_comp]
    exact ⟨header, front, line, ss, back, ends, lines, own, idle, ink⟩

theorem generate_suites_linesInTag :
    ∃ p final, generate {} (builtin verbatim) linesInTag [] = (.ok p, []) ∧
      transform {} (builtin verbatim) linesInTag [] = (.ok final, []) ∧
      ∀ (c : Node.Context) (body : Node), final = c.fill (.block body) →
        ∃ header front line ss back, Text.endsWith ':' header ∧
          p.lines = front ++ Stmt.printed p.strategy c.blocks (.plain (.host header) line) ++
            Stmt.printedAll p.strategy (c.blocks + 1) ss ++ back ∧
          Stmt.ownLines p.strategy (c.blocks + 1) ss ⊆ p.lines ∧
          (body.items = [] → ∃ line, ss = [.plain .pass line]) ∧
          ((∃ l ∈ Stmt.ownLines p.strategy (c.blocks + 1) ss, Text.allBlank l.1 = false) ↔
            body.isSilent = false) := by
  have compiles : (generate {} (builtin verbatim) linesInTag []).1.isOk := by decide +kernel
  have still : (generate {} (builtin verbatim) linesInTag []).2 = [] := by decide +kernel
  obtain ⟨p, generated⟩ := exists_of_fst_isOk compiles still
  have agrees : Agrees [] (builtin verbatim) := nofun
  obtain ⟨final, compiled, suites⟩ := generate_suites agrees generated
  exact ⟨p, final, generated, compiled, suites⟩

/-- A control line without code below a condition. -/
def blankLine : Source :=
  .text "- if x\n  -"

/-- The block below the condition holds a statement without ink, so it does not count as empty, and
only a blank line is left below the condition. -/
theorem generate_blank_suite :
    (transform {} (builtin verbatim) blankLine []).1.toOption =
        some (.seq [.code "if x:", .block (.seq [.newline, .code [], .newline])]) ∧
      (generate {} (builtin verbatim) blankLine []).1.toOption.map Program.lines =
        some [("if x:".toList, 1), ("    ".toList, 2)] := by
  decide +kernel

end MarkupTemplate
