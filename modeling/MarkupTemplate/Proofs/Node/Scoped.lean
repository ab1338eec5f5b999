import MarkupTemplate.Proofs.Node.Deeds

/-!
# The scope of temporaries

In the order of events, a temporary is bound once, by a name that is not in use, and mentioned only
from there on (`Scoped`). If the code of a template mentions no reserved names, all its events are
in scope (`scoped_of_inOrder`).
-/

namespace MarkupTemplate

open List

open Host (Lookers KeepsTo IsName isOwn isReserved isComplete helperNames keepsTo_of_isOwn)

/-! ## Events in scope -/

/-- A name that a program has not used yet. -/
def IsFresh (known : List Text) (name : Text) : Prop :=
  isReserved name ∧ name ∉ known ∧ name ≠ Program.buffer ∧ name ≠ Program.result

/-- Events that mention reserved names only if they are known, and bind fresh ones only. The names
known before them become those known behind them. -/
inductive Scoped (looking : Lookers) : List Text → List Event → List Text → Prop where
  | nil (known : List Text) : Scoped looking known [] known
  | statement {known after : List Text} {source : Text} {es : List Event} :
    KeepsTo looking known source → Scoped looking known es after →
    Scoped looking known (.statement source :: es) after
  | assign {known after : List Text} {temp code : Text} {es : List Event} : IsFresh known temp →
    KeepsTo looking (temp :: known) (temp ++ " = " ++ code) →
    Scoped looking (temp :: known) es after →
    Scoped looking known (.statement (temp ++ " = " ++ code) :: es) after
  | output {known after : List Text} {source : Text} {es : List Event} :
    KeepsTo looking known source → Scoped looking known es after →
    Scoped looking known (.output source :: es) after
  | deferred {known after : List Text} (text : Text) {es : List Event} :
    Scoped looking known es after →
    Scoped looking known (.output (Embedded.deferredCode text) :: es) after
  | capture {known after : List Text} {name : Text} {es : List Event} :
    IsFresh known name → Scoped looking (name :: known) es after →
    Scoped looking known (.capture name :: es) after

namespace Scoped

variable {looking : Lookers} {known mid after : List Text} {es es' : List Event}

theorem of_append (here : Scoped looking known (es ++ es') after) :
    ∃ mid, Scoped looking known es mid ∧ Scoped looking mid es' after := by
  induction es generalizing known with
  | nil => exact ⟨known, .nil known, here⟩
  | cons e es ih =>
    rw [cons_append] at here
    cases here with
    | statement keeps rest =>
      obtain ⟨mid, first, rest⟩ := ih rest
      exact ⟨mid, .statement keeps first, rest⟩
    | assign fresh keeps rest =>
      obtain ⟨mid, first, rest⟩ := ih rest
      exact ⟨mid, .assign fresh keeps first, rest⟩
    | output keeps rest =>
      obtain ⟨mid, first, rest⟩ := ih rest
      exact ⟨mid, .output keeps first, rest⟩
    | deferred text rest =>
      obtain ⟨mid, first, rest⟩ := ih rest
      exact ⟨mid, .deferred text first, rest⟩
    | capture fresh rest =>
      obtain ⟨mid, first, rest⟩ := ih rest
      exact ⟨mid, .capture fresh first, rest⟩

theorem subset (here : Scoped looking known es after) : known ⊆ after := by
  induction here with
  | nil => exact Subset.refl _
  | statement _ _ ih | output _ _ ih | deferred _ _ ih => exact ih
  | assign _ _ _ ih | capture _ _ ih => exact Subset.trans (subset_cons_self _ _) ih

theorem not_mem_buffer (here : Scoped looking known es after) (other : Program.buffer ∉ known) :
    Program.buffer ∉ after := by
  induction here with
  | nil => exact other
  | statement _ _ ih | output _ _ ih | deferred _ _ ih => exact ih other
  | assign fresh _ _ ih | capture fresh _ ih =>
    exact ih (not_mem_cons_of_ne_of_not_mem fresh.2.2.1.symm other)

end Scoped

/-! ## Deeds in scope -/

section

open Deed (InOrder bound)

variable {looking : Lookers} {known after : List Text} {es : List Event} {d : Deed}

theorem isOwn_suiteHeader {source : Text} (own : isOwn looking source) :
    isOwn looking (Control.suiteHeader source) := by
  rw [isOwn, Host.words_suiteHeader]
  exact own

theorem Attribute.joinStatement_eq (temp delimiter : Text) (parts : List Text) : ∃ code,
    joinStatement temp delimiter parts = temp ++ " = ".toList ++ code := by
  have front : " = _hamlc_join_attr(".toList = " = ".toList ++ "_hamlc_join_attr(".toList := by
    decide
  refine ⟨"_hamlc_join_attr(".toList ++ (Text.quote delimiter ++ (", [".toList
    ++ (Text.joinWith ", ".toList parts ++ "])".toList))), ?_⟩
  rw [joinStatement, front]
  simp only [append_assoc]

theorem Attribute.Part.isPhrase {part : Part} (helpers : helperNames ⊆ known)
    (names : ∀ temp ∈ part.temp?, IsName temp ∧ temp ∈ known)
    (own : ∀ code ∈ part.code?, isOwn looking code) : Host.IsPhrase looking known part.written := by
  cases part with
  | text text => exact Host.isPhrase_literal (helpers (by decide)) text
  | code source complete =>
    exact Host.isPhrase_code complete (keepsTo_of_isOwn (own source rfl) known)
  | captured temp =>
    obtain ⟨isName, mem⟩ := names temp rfl
    exact Host.isPhrase_name isName fun _ => mem

/-- A deed that binds nothing mentions no reserved names but helpers and known temporaries. -/
theorem Scoped.use (silent : d.binds = none) (helpers : helperNames ⊆ known)
    (names : ∀ temp ∈ d.uses, IsName temp ∧ temp ∈ known)
    (own : ∀ code ∈ d.codes, isOwn looking code)
    (rest : Scoped looking known es after) : Scoped looking known (d.event :: es) after := by
  have escape : "_hamlc_escape".toList ∈ known := helpers (by decide)
  cases d with
  | capture | assign | join => nomatch silent
  | run source => exact .statement (keepsTo_of_isOwn (own source (mem_singleton_self _)) known) rest
  | start source =>
    have own := own source (mem_singleton_self _)
    exact .statement (keepsTo_of_isOwn (isOwn_suiteHeader own) known) rest
  | put escaped source =>
    have keeps := keepsTo_of_isOwn (own source (mem_singleton_self _)) known
    exact .output (keeps.escaped escape escaped none) rest
  | fill text => exact .deferred text rest
  | otherwise => exact .statement (keepsTo_of_isOwn rfl known) rest
  | hand temp =>
    obtain ⟨isName, mem⟩ := names temp (mem_singleton_self _)
    have keeps : KeepsTo looking known temp := Host.keepsTo_name isName fun _ => mem
    refine .statement (keeps.assign (Host.isName_of_all (by decide) (by decide)) ?_) rest
    exact fun reserved => absurd reserved (by decide)
  | ifTrue temp | ifFalse temp =>
    obtain ⟨isName, mem⟩ := names temp (mem_singleton_self _)
    refine .statement (Host.keepsTo_wordTest ?_ (by decide) isName (fun _ => mem) _) rest
    exact Host.isName_of_all (by decide) (by decide)
  | ifAny temp =>
    obtain ⟨isName, mem⟩ := names temp (mem_singleton_self _)
    exact .statement (Host.keepsTo_test isName fun _ => mem) rest
  | putTemp escaped temp =>
    obtain ⟨isName, mem⟩ := names temp (mem_singleton_self _)
    exact .output ((Host.keepsTo_name isName fun _ => mem).escaped escape escaped none) rest

/-- A deed that binds a fresh temporary, with helpers and known temporaries as reserved names. -/
theorem Scoped.bind {temp : Text} (binds : d.binds = some temp) (isName : IsName temp)
    (fresh : IsFresh known temp)
    (helpers : helperNames ⊆ known) (names : ∀ temp ∈ d.uses, IsName temp ∧ temp ∈ known)
    (own : ∀ code ∈ d.codes, isOwn looking code) (rest : Scoped looking (temp :: known) es after) :
    Scoped looking known (d.event :: es) after := by
  have here : isReserved temp → temp ∈ temp :: known := fun _ => .head _
  cases d with
  | run | start | put | fill | hand | ifTrue | ifFalse | otherwise | ifAny | putTemp =>
    nomatch binds
  | capture name =>
    cases binds
    exact .capture fresh rest
  | assign name source =>
    cases binds
    have keeps := keepsTo_of_isOwn (own source (mem_singleton_self _)) (temp :: known)
    exact .assign fresh (keeps.assign isName here) rest
  | join name delimiter parts =>
    cases binds
    have more : known ⊆ temp :: known := subset_cons_self _ _
    have phrases : ∀ part ∈ parts.map Attribute.Part.written,
        Host.IsPhrase looking (temp :: known) part := by
      rw [forall_mem_map]
      intro part mem
      refine part.isPhrase (Subset.trans helpers more) ?_ ?_
      · intro temp mentioned
        have known := names temp (mem_filterMap.mpr ⟨part, mem, mentioned⟩)
        exact ⟨known.1, more known.2⟩
      · exact fun code found => own code (mem_filterMap.mpr ⟨part, mem, found⟩)
    have keeps :=
      Host.keepsTo_joinStatement isName here (more (helpers (by decide))) delimiter phrases
    obtain ⟨code, same⟩ :=
      Attribute.joinStatement_eq temp delimiter (parts.map Attribute.Part.written)
    rw [same] at keeps
    rw [Deed.event, same]
    exact .assign fresh keeps rest

theorem scoped_of_inOrder {used used' lo hi : Nat} {ds : List Deed} (order : InOrder known ds)
    (temps : ∀ temp ∈ known ++ bound ds, IsTemp used used' lo hi temp)
    (own : ∀ code ∈ ds.flatMap Deed.codes, isOwn looking code) :
    ∃ after, Scoped looking (known ++ helperNames) (ds.map Deed.event) after := by
  have helpers : ∀ known, helperNames ⊆ known ++ helperNames := fun known => subset_append_right _ _
  induction order with
  | nil known => exact ⟨_, .nil _⟩
  | @use known d ds silent knows _ ih =>
    rw [Deed.bound_cons_none silent] at temps
    rw [flatMap_cons, forall_mem_append] at own
    obtain ⟨after, rest⟩ := ih temps own.2
    refine ⟨after, rest.use silent (helpers known) (fun temp mentioned => ?_) own.1⟩
    have mem := knows mentioned
    exact ⟨(temps temp (mem_append_left _ mem)).isName, mem_append_left _ mem⟩
  | @bind known d ds temp binds knows other _ ih =>
    rw [Deed.bound_cons_some binds] at temps
    rw [flatMap_cons, forall_mem_append] at own
    have isTemp := temps temp (mem_append_right _ (.head _))
    obtain ⟨reserved, noBuffer, noResult, noHelper⟩ := isTemp.ne
    obtain ⟨after, rest⟩ := ih (fun temp mem => temps temp (perm_middle.mem_iff.mpr mem)) own.2
    refine ⟨after, rest.bind binds isTemp.isName ⟨reserved, ?_, noBuffer, noResult⟩
      (helpers known) ?_ own.1⟩
    · exact fun mem => (mem_append.mp mem).elim other noHelper
    · intro temp mentioned
      have mem := knows mentioned
      exact ⟨(temps temp (mem_append_left _ mem)).isName, mem_append_left _ mem⟩

end

end MarkupTemplate
