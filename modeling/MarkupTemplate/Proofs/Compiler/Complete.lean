import MarkupTemplate.Proofs.Compiler.Passes
import MarkupTemplate.Proofs.Outline.LineCount
import MarkupTemplate.Proofs.Program.Statements

/-!
# What can go wrong in a compilation

A compilation stops early only if the template cannot be read, an engine cannot be used,
interpolated code is not closed, or an engine has lost output that was to be put back
(`generate_complete`), or else if tab stops are too far apart for a line to be measured.
-/

namespace MarkupTemplate

open Node (Fits)
open Embedded (Registry Renderer Cache Agrees verbatim)
open Embedded.Registry (builtin)

/-- Why a template is not compiled: it cannot be read, an engine it names cannot be used,
interpolated code is not closed, or an engine has lost a stand-in for output. -/
inductive Error.OfTemplate : Error → Prop where
  | unreadable (report : Report) : OfTemplate (.template report)
  | disabled (name : Text) : OfTemplate (.step (.engineDisabled name))
  | unknown (name : Text) : OfTemplate (.step (.engineNotFound name))
  | unclosed : OfTemplate (.step .unclosedInterpolation)
  | lost (index : Nat) : OfTemplate (.step (.lostOutput index))

theorem Error.ofTemplate_step {failure : Failure} (fails : Node.EmbedFails failure) :
    OfTemplate (.step failure) := by
  cases fails with
  | disabled name => exact .disabled name
  | unknown name => exact .unknown name
  | render fails =>
    cases fails with
    | unclosed => exact .unclosed
    | lost index => exact .lost index

theorem transform_core {o : Options} {r : Registry} (complete : ∀ entry ∈ r, entry.2.isComplete)
    {met : Cache} (agrees : Agrees met r) {source : Source} {n : Node}
    (read : source.tree o = .ok n) :
    ∃ result met', transform o r source met = (result, met') ∧ Agrees met' r ∧
      Yields (Fits .core o.format .tree) Error.OfTemplate result := by
  obtain ⟨t, parsed⟩ := Source.exists_of_tree read
  obtain ⟨met', agrees', transformed⟩ := transform_of_tree read agrees
  have yields := Pass.embed_interpolated complete (Outline.isRead_of_source parsed).1
  cases expanded : n.embed (Embedded.resolve o r) o.format >>= Node.interpolated with
  | error failure =>
    rw [expanded] at yields transformed
    exact ⟨_, met', transformed, agrees', Error.ofTemplate_step yields⟩
  | ok m =>
    rw [expanded] at yields transformed
    obtain ⟨n', rest, kept⟩ := Pass.runAll_keeps o r (Pass.leads_late o) met' yields.1
    simp only [rest] at transformed
    exact ⟨_, met', transformed, agrees', kept.fits⟩

/-- Every template is compiled, or refused for a reason that lies in the template, or cannot be
measured because tab stops are too far apart. No pass and no step of writing the program meets a
node that it has no rule for, or a document type that the format does not declare. -/
theorem generate_complete (markdown : Renderer) (o : Options) (t : Text) {met : Cache}
    (agrees : Agrees met (builtin markdown)) :
    (∀ n, (transform o (builtin markdown) (.text t) met).1 = .ok n →
        n.IsCore ∧ ∃ p, Program.ofTree o n = .ok p) ∧
      ((∃ p, (generate o (builtin markdown) (.text t) met).1 = .ok p) ∨
        (∃ e, (generate o (builtin markdown) (.text t) met).1 = .error e ∧ e.OfTemplate) ∨
        (generate o (builtin markdown) (.text t) met).1 = .error .tabOverflow) ∧
      ((generate o (builtin markdown) (.text t) met).1 = .error .tabOverflow ↔
        2147483648 ≤ o.tabSize ∧ ∃ line ∈ Source.lines t, Text.allBlank line = false) ∧
      Agrees (generate o (builtin markdown) (.text t) met).2 (builtin markdown) := by
  rw [← Outline.measurable_eq_false_iff, ← Source.tree_eq_tabOverflow_iff, generate]
  cases read : (Source.text t).tree o with
  | error e =>
    rw [transform_of_error read]
    refine ⟨by rintro _ ⟨⟩, ?_, by simp, agrees⟩
    rcases Source.error_of_tree read with ⟨rfl, _⟩ | ⟨report, rfl⟩
    · exact .inr (.inr rfl)
    · exact .inr (.inl ⟨_, rfl, .unreadable report⟩)
  | ok n =>
    obtain ⟨result, met', transformed, agrees', yields⟩ :=
      transform_core Embedded.isComplete_builtin agrees read
    rw [transformed]
    cases result with
    | error e =>
      have other : e ≠ .tabOverflow := by
        rintro rfl
        cases yields
      exact ⟨by rintro _ ⟨⟩, .inr (.inl ⟨e, rfl, yields⟩), by simp [other], agrees'⟩
    | ok n =>
      obtain ⟨p, written⟩ := Program.ofTree_core o yields
      simp only [written]
      refine ⟨?_, .inl ⟨p, rfl⟩, by simp, agrees'⟩
      intro n' same
      cases same
      exact ⟨yields.isCore rfl, p, written⟩

theorem generate_complete_plain :
    Agrees [("plain", { kind := .plain, markdown := verbatim })] (builtin verbatim) ∧
      ∃ p, (generate {} (builtin verbatim) (.text "%p\n  :plain\n    #\x7ba\x7d")
        [("plain", { kind := .plain, markdown := verbatim })]).1 = .ok p := by
  have agrees : Agrees [("plain", { kind := .plain, markdown := verbatim })]
      (builtin verbatim) := by
    intro name engine found
    rw [List.lookup_cons] at found
    split at found
    next same =>
      rw [beq_iff_eq.mp same, ← found]
      rfl
    next => nomatch found
  refine ⟨agrees, ?_⟩
  have accepted : (generate {} (builtin verbatim) (.text "%p\n  :plain\n    #\x7ba\x7d")
      [("plain", { kind := .plain, markdown := verbatim })]).1.isOk := by
    decide +kernel
  rcases (generate_complete verbatim {} "%p\n  :plain\n    #\x7ba\x7d" agrees).2.1 with
    compiled | ⟨e, refused, _⟩ | refused
  · exact compiled
  · rw [refused] at accepted
    nomatch accepted
  · rw [refused] at accepted
    nomatch accepted

/-- Where tab stops are too far apart, not even a text without tabs is compiled. -/
theorem generate_far_tabs :
    (generate { tabSize := 2147483648 } (builtin verbatim) (.text "a") []).1 =
      .error .tabOverflow := by
  have refused : (Source.text "a").tree { tabSize := 2147483648 } = .error .tabOverflow :=
    Source.tree_eq_tabOverflow_iff.mpr (by decide)
  rw [generate, transform_of_error refused]

end MarkupTemplate
