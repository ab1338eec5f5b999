import MarkupTemplate.Proofs.Compiler.LineBreaks
import MarkupTemplate.Proofs.Outline.Voids

/-!
# Void elements of templates

A void element of a template is empty unless lines stand below its tag. If there are none, it stays
empty up to the pass that writes markup, which then closes exactly the tags with a body that are not
void (`voids_of_source`).
-/

namespace MarkupTemplate

open Embedded (Registry Cache Agrees verbatim)
open Node (Tidy Inert)
open Element (isVoid)
open Outline (ofSource misplaced)

namespace Pass

variable {o : Options}

theorem isVoid_of_builtin {markdown : Embedded.Renderer} {name tag : Text} {e : Embedded.Engine}
    (found : Embedded.resolve o (.builtin markdown) name = .ok e)
    (set : e.settings.tag? = some tag) : isVoid tag = false := by
  have each : ∀ entry ∈ Registry.builtin markdown, entry.2.settings.tag?.all fun tag =>
      !isVoid tag := by
    simp only [Registry.builtin, List.forall_mem_cons]
    exact ⟨rfl, rfl, by decide, by decide, rfl, rfl, rfl, rfl, rfl, List.forall_mem_nil _⟩
  have listed : (name, e) ∈ Registry.builtin markdown := by
    unfold Embedded.resolve at found
    split at found
    · split at found
      next engine here =>
        cases found
        obtain ⟨before, after, eq, _⟩ := List.lookup_eq_some_iff.mp here
        rw [eq]
        exact List.mem_append_right _ (.head _)
      next => cases found
    · cases found
  simpa [set] using each (name, e) listed

theorem hollow_of_run {r : Registry} {pass : Pass}
    (early : pass ∈ [interpolate, control, override, sort, merge])
    {n : Node} (hollow : n.Hollow) {met met₁ : Cache} {m : Node}
    (ran : pass.run o r n met = (.ok m, met₁)) : m.Hollow ∧ met₁ = met := by
  cases pass with
  | interpolate =>
    obtain ⟨first, rfl⟩ := Prod.mk.inj ran
    exact ⟨(Node.hollow_interpolated hollow).of_ok first, rfl⟩
  | control =>
    obtain ⟨first, rfl⟩ := Prod.mk.inj ran
    have lowered := (Node.hollow_lowered o.disableCapture hollow).yields 0
    exact ⟨(lowered.map fun _ hollow => hollow).of_ok first, rfl⟩
  | override =>
    obtain ⟨first, rfl⟩ := Prod.mk.inj ran
    exact ⟨(Node.hollow_overridden o.overrideAttrs hollow).of_ok first, rfl⟩
  | sort =>
    obtain ⟨first, rfl⟩ := Prod.mk.inj ran
    refine ⟨?_, rfl⟩
    rw [runPure] at first
    split at first
    · exact (Node.hollow_sorted o.sortAttrKeys hollow).of_ok first
    · cases first
      exact hollow
  | merge =>
    obtain ⟨first, rfl⟩ := Prod.mk.inj ran
    have merged := (Node.hollow_attributed o hollow).yields 0
    exact ⟨(merged.map fun _ hollow => hollow).of_ok first, rfl⟩
  | _ => simp at early

theorem hollow_of_runAll {markdown : Embedded.Renderer} {n kept : Node} (tidy : Outline.ReadTidy n)
    (hollow : n.Hollow) {met met' : Cache} (agrees : Agrees met (.builtin markdown))
    (ran : runAll o (.builtin markdown) (untilMerged o) n met = (.ok kept, met')) :
    kept.Hollow := by
  obtain ⟨rendered, met₁, embedded, rest⟩ := exists_of_runAll_cons ran
  obtain ⟨_, same, _⟩ := Node.run_rendered o (.builtin markdown) n met agrees
  rw [run, same] at embedded
  have hollow :=
    (Node.hollow_embed (fun _ _ found _ set => isVoid_of_builtin found set) _ tidy hollow).of_ok
    (Prod.mk.inj embedded).1
  have early : ∀ pass ∈ [interpolate, control, override] ++ (if o.sortAttrs then [sort] else []) ++
    [merge],
      pass ∈ [interpolate, control, override, sort, merge] := by
    intro pass mem
    split at mem
    · exact mem
    · simp at mem ⊢
      tauto
  exact (runAll_keeps_property
    (fun pass mem n hollow met m met₁ ran => hollow_of_run (early pass mem) hollow ran) hollow
      rest).1

end Pass

/-! ## Templates -/

/-- The void elements of a template are empty exactly if no line but a silent comment stands right
below one. Then a tag is closed exactly if it has a body and is not void. -/
theorem voids_of_source {o : Options} {source : Text} {tree : Node}
    (read : ofSource o source = .ok tree) :
    ((∀ name entries body, .tag name entries (some body) ∈ tree.parts → isVoid name →
      body.isEmpty) ↔ misplaced o {} (Source.lines source) = []) ∧
      (misplaced o {} (Source.lines source) = [] → ∀ markdown met kept met',
        Agrees met (Registry.builtin markdown) →
        Pass.runAll o (.builtin markdown) (Pass.untilMerged o) tree met = (.ok kept, met') →
        ∀ name entries body?, .tag name entries body? ∈ kept.parts →
          ∀ p s w s', (Node.tag name entries body?).markup o p s = .ok (w, s') →
            (w.last? = some (Node.closing name) ↔ body?.isSome ∧ isVoid name = false)) := by
  have isRead := (Outline.isRead_of_source read).1
  have tidy := Outline.readTidy_of_isRead isRead
  have hollow : tree.Hollow ↔ misplaced o {} (Source.lines source) = [] := by
    rw [Node.Hollow, Outline.strays_of_source read, List.length_eq_zero_iff]
  constructor
  · rw [← hollow]
    exact (tidy.hollow_iff fun e entry => Node.inert_of_isEntryOf (Node.inert_isEntry entry)).symm
  · intro placed markdown met kept met' agrees ran name entries body? mem p s w s' wrote
    have kept_hollow := Pass.hollow_of_runAll tidy (hollow.mpr placed) agrees ran
    have empty :=
      ((Pass.tidy_of_runAll isRead agrees ran).hollow_iff fun _ inert => inert).mp kept_hollow
    rw [Node.last?_markup wrote]
    cases body? with
    | none => simp [Markup.isContentless]
    | some body =>
      have inside := empty name entries body mem
      cases void : isVoid name with
      | true => simp [Markup.isContentless, void, inside void]
      | false => simp [Markup.isContentless, void]

/-- A void element with a comment below it, one that is closed, one at a line end, and text. -/
def voidsInTag : Text :=
  "%p\n  %br\n    -# a\n       b\n  %img(src=c)>/\n  %hr\n  d"

theorem voids_of_source_voidsInTag :
    ∃ tree kept, ofSource {} voidsInTag = .ok tree ∧
      (∀ name entries body, .tag name entries (some body) ∈ tree.parts → isVoid name →
        body.isEmpty) ∧
      Pass.runAll {} (.builtin verbatim) (Pass.untilMerged {}) tree [] = (.ok kept, []) ∧
      ∀ name entries body?, .tag name entries body? ∈ kept.parts →
        ∀ p s w s', (Node.tag name entries body?).markup {} p s = .ok (w, s') →
          (w.last? = some (Node.closing name) ↔ body?.isSome ∧ isVoid name = false) := by
  have placed : misplaced {} {} (Source.lines voidsInTag) = [] := by decide +kernel
  have accepted : (ofSource {} voidsInTag).toOption.any fun tree =>
      let ran := Pass.runAll {} (.builtin verbatim) (Pass.untilMerged {}) tree []
      ran.1.isOk && ran.2.isEmpty := by decide +kernel
  obtain ⟨tree, read, ran⟩ := exists_of_any accepted
  simp only [Bool.and_eq_true, List.isEmpty_iff] at ran
  obtain ⟨empty, closed⟩ := voids_of_source read
  obtain ⟨kept, ran⟩ := exists_of_fst_isOk ran.1 ran.2
  exact ⟨tree, kept, read, empty.mpr placed, ran, closed placed verbatim [] kept [] nofun ran⟩

/-- A line below a void element becomes its content, and the element is closed behind it. -/
theorem void_with_text :
    ofSource {} "%br\n  hi".toList =
        .ok
          (.seq [.tag "br".toList [] (some (.seq [.newline, .interpolate "hi".toList, .newline]))])
          ∧
      misplaced {} {} (Source.lines "%br\n  hi".toList) = ["  hi".toList] ∧
      transform {} (.builtin verbatim) (.text "%br\n  hi".toList) [] =
        (.ok (.seq [.static "<br>hi</br>".toList, .newline, .newline]), []) := by
  refine ⟨by decide +kernel, by decide +kernel,
    Prod.ext (by decide +kernel) (List.isEmpty_iff.mp ?_)⟩
  decide +kernel

end MarkupTemplate
