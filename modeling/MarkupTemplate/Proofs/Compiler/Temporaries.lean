import MarkupTemplate.Proofs.Compiler.Escaping
import MarkupTemplate.Proofs.Node.Deeds

/-!
# Temporaries of templates

Once blocks are rendered and interpolated texts expanded, the passes add code with temporaries.
Whatever the codes of the template are, these are fresh: each is bound once, differs from the other
names of programs, and is mentioned only behind the place where it is bound
(`transform_temporaries`).
-/

namespace MarkupTemplate

open Embedded (Registry Cache Agrees verbatim)
open Embedded.Registry (builtin)

namespace Pass

variable {o : Options} {r : Registry} {n n' : Node} {met met' : Cache}

theorem late_eq_append (o : Options) :
    late o = control :: override :: (if o.sortAttrs then [sort] else []) ++ [merge] ++
      fromMarkup o := by
  simp [late, fromMarkup]

theorem timely_of_runAll (said : n.Said true false)
    (ran : runAll o r (late o) n met = (.ok n', met')) :
    ∃ used hi ds, n'.events = ds.map Deed.event ∧ Timely [] n.codes 0 used 0 hi ds := by
  rw [late_eq_append] at ran
  obtain ⟨kept, _, ran, written⟩ := exists_of_runAll_append ran
  obtain ⟨listed, _, ran, merged⟩ := exists_of_runAll_append ran
  obtain ⟨_, _, merged, done⟩ := exists_of_runAll_cons merged
  cases done
  obtain ⟨⟨hi, stated⟩, _⟩ := stated_of_runAll said ran
  have told : Yields (fun m => ∃ used, Told n.codes 0 used 0 hi (m.escapedEvents o.escapeHtml))
    (fun _ => True)
      (runPure o merge listed) :=
        (stated.told o 0).map fun r told => ⟨r.2, told o.escapeHtml none .content⟩
  obtain ⟨used, ds, same, timely⟩ := told.of_ok (Prod.mk.inj merged).1
  exact ⟨used, hi, ds, by rw [events_of_runAll written, same], timely⟩

end Pass

/-- The temporaries of a template are fresh, whatever codes it has. `ds` tells for each event of its
tree why it is there; codes in it that no pass has made are codes of the template. -/
theorem transform_temporaries {markdown : Embedded.Renderer} {o : Options} {source : Source}
    {final : Node} {met met' : Cache}
    (agrees : Agrees met (builtin markdown))
    (compiled : transform o (builtin markdown) source met = (.ok final, met')) :
    ∃ (tree expanded : Node) (met₁ : Cache) (ds : List Deed), source.tree o = .ok tree ∧
      Pass.runAll o (builtin markdown) [.embed, .interpolate] tree met = (.ok expanded, met₁) ∧
      final.events = ds.map Deed.event ∧ (ds.flatMap Deed.codes).Subperm expanded.codes ∧
      (ds.filterMap Deed.binds).Nodup ∧
      (∀ temp ∈ ds.filterMap Deed.binds,
        temp ≠ Program.buffer ∧ temp ≠ Program.result ∧ temp ∉ Host.helperNames) ∧
      ∀ front d back, ds = front ++ d :: back → ∀ temp ∈ d.uses,
      temp ∈ front.filterMap Deed.binds := by
  obtain ⟨tree, read⟩ := Source.tree_of_transform compiled
  have ran : Pass.runAll o (builtin markdown) ([.embed, .interpolate] ++ Pass.late o) tree met =
    (.ok final, met') :=
    exists_of_transform read compiled
  obtain ⟨expanded, met₁, seen, ran⟩ := Pass.exists_of_runAll_append ran
  obtain ⟨t, parsed⟩ := Source.exists_of_tree read
  have said := Pass.said_of_runAll agrees (Outline.isRead_of_source parsed).1 seen
  obtain ⟨used, hi, ds, same, timely⟩ := Pass.timely_of_runAll said ran
  refine ⟨tree, expanded, met₁, ds, read, seen, same, timely.codes, timely.inOrder.nodup, ?_, ?_⟩
  · exact fun temp mem => (timely.temps temp mem).ne.2
  · rintro front d back rfl temp mentioned
    have found := timely.inOrder.uses_subset mentioned
    rwa [List.append_nil] at found

/-- Captured lines in captured lines, and a tag between them whose attributes are decided and
joined. The template starts with the very statement by which an attribute is decided. -/
def namesake : Source :=
  .text ("- _hamlc_codeattributes3 = x\n= block\n  %p.a(class=x class='[#\x7bx\x7d]' d=x)\n"
    ++ "    = f(block)\n      z")

def inOrder : Options :=
  { sortAttrs := false }

theorem transform_temporaries_namesake :
    Agrees [] (builtin verbatim) ∧ ∃ (final : Node) (met' : Cache),
    transform inOrder (builtin verbatim) namesake [] = (.ok final, met') ∧
      final.events.count (.statement "_hamlc_codeattributes3 = x") = 2 ∧
      ∃ (tree expanded : Node) (met₁ : Cache) (ds : List Deed), namesake.tree inOrder = .ok tree ∧
        Pass.runAll inOrder (builtin verbatim) [.embed, .interpolate] tree [] =
          (.ok expanded, met₁) ∧
        final.events = ds.map Deed.event ∧ (ds.flatMap Deed.codes).Subperm expanded.codes ∧
        (ds.filterMap Deed.binds).Nodup ∧
        (∀ temp ∈ ds.filterMap Deed.binds,
          temp ≠ Program.buffer ∧ temp ≠ Program.result ∧ temp ∉ Host.helperNames) ∧
        ∀ front d back, ds = front ++ d :: back → ∀ temp ∈ d.uses,
        temp ∈ front.filterMap Deed.binds := by
  have agrees : Agrees [] (builtin verbatim) := nofun
  have twice : (transform inOrder (builtin verbatim) namesake []).1.toOption.map (fun final =>
      final.events.count (.statement "_hamlc_codeattributes3 = x")) = some 2 := by decide +kernel
  refine ⟨agrees, ?_⟩
  cases compiled : transform inOrder (builtin verbatim) namesake [] with
  | mk result met' =>
    rw [compiled] at twice
    cases result with
    | error e => nomatch twice
    | ok final =>
      exact ⟨final, met', rfl, Option.some.inj twice, transform_temporaries agrees compiled⟩

end MarkupTemplate
