import Mathlib.Data.List.Forall2
import MarkupTemplate.Node.Basic

/-!
# Walking over trees

A step on a tree treats the nodes of a list one after the other, some with a state that goes along,
and stops at the first failure. `Yields good allowed` says of a result that it is good, or a failure
that is allowed. It goes through the sequencing of steps (`Yields.bind`) and lists (`Yields.mapM`,
`Yields.thread`).
-/

namespace MarkupTemplate

open List

/-! ## Results -/

section Results

variable {ε α β σ : Type} {allowed : ε → Prop}

/-- What holds of a result: it is good, or a failure that is allowed. -/
def Yields (good : α → Prop) (allowed : ε → Prop) : Except ε α → Prop
  | .ok a => good a
  | .error e => allowed e

namespace Yields

variable {good : α → Prop} {x : Except ε α} {good' : β → Prop} {f : α → Except ε β}

theorem exists_ok (yields : Yields good (fun _ => False) x) : ∃ a, x = .ok a ∧ good a := by
  cases x with
  | ok a => exact ⟨a, rfl, yields⟩
  | error e => exact yields.elim

theorem of_ok {a : α} (yields : Yields good allowed x) (same : x = .ok a) : good a := by
  rw [same] at yields
  exact yields

theorem of_error {e : ε} (yields : Yields good allowed x) (same : x = .error e) : allowed e := by
  rw [same] at yields
  exact yields

theorem mono {good' : α → Prop} {allowed' : ε → Prop} (yields : Yields good allowed x)
    (weaker : ∀ a, good a → good' a) (more : ∀ e, allowed e → allowed' e) :
    Yields good' allowed' x := by
  cases x with
  | ok a => exact weaker a yields
  | error e => exact more e yields

theorem imp {good' : α → Prop} (yields : Yields good allowed x) (weaker : ∀ a, good a → good' a) :
    Yields good' allowed x :=
  yields.mono weaker fun _ failed => failed

theorem bind (yields : Yields good allowed x) (next : ∀ a, good a → Yields good' allowed (f a)) :
    Yields good' allowed (x >>= f) := by
  cases x with
  | ok a => exact next a yields
  | error e => exact yields

theorem of_bind {good : β → Prop} (yields : Yields good allowed (x >>= f)) :
    Yields (fun a => Yields good allowed (f a)) allowed x := by
  cases x with
  | ok a | error e => exact yields

theorem map {f : α → β} (yields : Yields good allowed x) (next : ∀ a, good a → good' (f a)) :
    Yields good' allowed (x.map f) := by
  cases x with
  | ok a => exact next a yields
  | error e => exact yields

/-- Nothing is said of a result. -/
theorem always (x : Except ε α) : Yields (fun _ => True) (fun _ => True) x := by
  cases x with
  | ok a | error e => trivial

theorem and {good' : α → Prop} (yields : Yields good allowed x) (yields' : Yields good' allowed x) :
    Yields (fun a => good a ∧ good' a) allowed x := by
  cases x with
  | ok a => exact ⟨yields, yields'⟩
  | error e => exact yields

theorem mapM {related : α → β → Prop} {as : List α}
    (each : ∀ a ∈ as, Yields (related a) allowed (f a)) :
    Yields (Forall₂ related as) allowed (as.mapM f) := by
  induction as with
  | nil => exact .nil
  | cons a as ih =>
    rw [mapM_cons]
    refine bind (each a (.head _)) ?_
    intro b first
    refine bind (ih fun a' mem => each a' (.tail _ mem)) ?_
    intro bs rest
    exact .cons first rest

end Yields

/-- A recursion through a list that treats one element after the other. -/
theorem eq_mapM {f : α → Except ε β} (g : List α → Except ε (List β)) (nil : g [] = .ok [])
    (cons : ∀ a as, g (a :: as) = do return (← f a) :: (← g as)) (as : List α) :
    g as = as.mapM f := by
  induction as with
  | nil => exact nil
  | cons a as ih => rw [cons, ih, mapM_cons]

theorem forall_of_forall₂ {holds : β → Prop} {as : List α} {bs : List β}
    (each : Forall₂ (fun _ b => holds b) as bs) : ∀ b ∈ bs, holds b := by
  induction each with
  | nil => nofun
  | cons here _ ih => exact forall_mem_cons.mpr ⟨here, ih⟩

theorem flatMap_eq_of_forall₂ {γ : Type} {f : α → List γ} {g : β → List γ} {as : List α}
    {bs : List β} (each : Forall₂ (fun a b => g b = f a) as bs) : bs.flatMap g = as.flatMap f := by
  induction each with
  | nil => rfl
  | cons first _ ih => rw [flatMap_cons, flatMap_cons, first, ih]

/-- Takes the elements of a list one after the other, with a state that goes along. -/
def thread (f : σ → α → Except ε (β × σ)) : σ → List α → Except ε (List β × σ)
  | s, [] => .ok ([], s)
  | s, a :: as => do
    let (b, s) ← f s a
    let (bs, s) ← thread f s as
    return (b :: bs, s)

variable {as : List α} {x : Except ε α} {f : α → Except ε β}

theorem Yields.thread {related : α → β → Prop} {f : σ → α → Except ε (β × σ)}
    (each : ∀ a ∈ as, ∀ s, Yields (fun r => related a r.1) allowed (f s a)) (s : σ) :
    Yields (fun r => Forall₂ related as r.1) allowed (thread f s as) := by
  induction as generalizing s with
  | nil => exact .nil
  | cons a as ih =>
    rw [MarkupTemplate.thread]
    refine bind (each a (.head _) s) ?_
    intro (b, s) first
    refine bind (ih (fun a' mem => each a' (.tail _ mem)) s) ?_
    intro (bs, s) rest
    exact .cons first rest

theorem Yields.thread_still {related : α → β → Prop} {f : σ → α → Except ε (β × σ)} {s : σ}
    (each : ∀ a ∈ as, Yields (fun r => r.2 = s ∧ related a r.1) allowed (f s a)) :
    Yields (fun r => r.2 = s ∧ Forall₂ related as r.1) allowed (MarkupTemplate.thread f s as) := by
  induction as with
  | nil => exact ⟨rfl, .nil⟩
  | cons a as ih =>
    rw [forall_mem_cons] at each
    refine bind each.1 ?_
    rintro ⟨b, last⟩ ⟨rfl, first⟩
    refine bind (ih each.2) ?_
    rintro ⟨bs, last⟩ ⟨rfl, rest⟩
    exact ⟨rfl, .cons first rest⟩

theorem thread_append {f : σ → α → Except ε (β × σ)} {as' : List α} {bs bs' : List β} {s s' s'' : σ}
    (first : thread f s as = .ok (bs, s')) (rest : thread f s' as' = .ok (bs', s'')) :
    thread f s (as ++ as') = .ok (bs ++ bs', s'') := by
  induction as generalizing s bs with
  | nil =>
    cases first
    exact rest
  | cons a as ih =>
    rw [thread] at first
    rw [cons_append, thread]
    cases head : f s a with
    | error e =>
      rw [head] at first
      nomatch first
    | ok found =>
      rw [head] at first
      cases tail : thread f found.2 as with
      | error e =>
        simp only [bind, Except.bind, tail] at first
        nomatch first
      | ok others =>
        simp only [bind, Except.bind, tail, pure, Except.pure, Except.ok.injEq,
          Prod.mk.injEq] at first
        obtain ⟨rfl, rfl⟩ := first
        simp only [bind, Except.bind, ih tail]
        rfl

theorem exists_of_bind {b : β} (same : (x >>= f) = .ok b) : ∃ a, x = .ok a ∧ f a = .ok b := by
  cases x with
  | ok a => exact ⟨a, rfl, same⟩
  | error e => nomatch same

theorem exists_of_isOk (ok : x.isOk) : ∃ a, x = .ok a := by
  cases x with
  | ok a => exact ⟨a, rfl⟩
  | error e => nomatch ok

theorem exists_of_any {p : α → Bool} (any : x.toOption.any p) : ∃ a, x = .ok a ∧ p a := by
  cases x with
  | ok a => exact ⟨a, rfl, any⟩
  | error e => nomatch any

theorem exists_of_toOption {g : α → β} {b : β} (same : x.toOption.map g = some b) :
    ∃ a, x = .ok a ∧ g a = b := by
  cases x with
  | ok a => exact ⟨a, rfl, Option.some.inj same⟩
  | error e => nomatch same

theorem exists_of_fst_isOk {r : Except ε α × σ} {s : σ} (ok : r.1.isOk) (same : r.2 = s) :
    ∃ a, r = (.ok a, s) := by
  obtain ⟨a, first⟩ := exists_of_isOk ok
  exact ⟨a, Prod.ext first same⟩

/-- A result that is no failure. -/
def Succeeds (x : Except ε α) : Prop :=
  ∃ a, x = .ok a

theorem succeeds_ok (a : α) : Succeeds (.ok a : Except ε α) :=
  ⟨a, rfl⟩

theorem succeeds_bind : Succeeds (x >>= f) ↔ ∃ a, x = .ok a ∧ Succeeds (f a) := by
  constructor
  · rintro ⟨b, same⟩
    obtain ⟨a, first, rest⟩ := exists_of_bind same
    exact ⟨a, first, b, rest⟩
  · rintro ⟨a, rfl, succeeds⟩
    exact succeeds

/-- A step that cannot fail behind another one does not matter. -/
theorem succeeds_bind_ok {f : α → β} : Succeeds (x >>= fun a => .ok (f a)) ↔ Succeeds x := by
  rw [succeeds_bind]
  exact ⟨fun ⟨a, same, _⟩ => ⟨a, same⟩, fun ⟨a, same⟩ => ⟨a, same, succeeds_ok _⟩⟩

theorem succeeds_bind_congr {γ : Type} {g : α → Except ε γ}
    (same : ∀ a, Succeeds (f a) ↔ Succeeds (g a)) : Succeeds (x >>= f) ↔ Succeeds (x >>= g) := by
  rw [succeeds_bind, succeeds_bind]
  exact exists_congr fun a => and_congr_right fun _ => same a

theorem succeeds_mapM_cons {a : α} :
    Succeeds ((a :: as).mapM f) ↔ Succeeds (f a) ∧ Succeeds (as.mapM f) := by
  rw [mapM_cons, succeeds_bind]
  constructor
  · rintro ⟨b, first, rest⟩
    exact ⟨⟨b, first⟩, succeeds_bind_ok.mp rest⟩
  · rintro ⟨⟨b, first⟩, rest⟩
    exact ⟨b, first, succeeds_bind_ok.mpr rest⟩

theorem succeeds_mapM : Succeeds (as.mapM f) ↔ ∀ a ∈ as, Succeeds (f a) := by
  induction as with
  | nil => exact ⟨fun _ _ mem => (nomatch mem), fun _ => succeeds_ok []⟩
  | cons a as ih => rw [succeeds_mapM_cons, forall_mem_cons, ih]

theorem succeeds_mapM_mapM {γ : Type} {g : β → Except ε γ} :
    Succeeds (as.mapM f >>= fun bs => bs.mapM g) ↔ ∀ a ∈ as, Succeeds (f a >>= g) := by
  induction as with
  | nil => exact ⟨fun _ _ mem => (nomatch mem), fun _ => succeeds_ok []⟩
  | cons a as ih =>
    rw [forall_mem_cons, ← ih, mapM_cons]
    simp only [bind_assoc, pure_bind, succeeds_bind, succeeds_mapM_cons]
    constructor
    · rintro ⟨b, first, bs, rest, here, there⟩
      exact ⟨⟨b, first, here⟩, bs, rest, there⟩
    · rintro ⟨⟨b, first, here⟩, bs, rest, there⟩
      exact ⟨b, first, bs, rest, here, there⟩

end Results

/-! ## Two results -/

section Concur

variable {ε α β α' β' σ : Type} {related : α → β → Prop} {related' : α' → β' → Prop}

/-- Two results are related, or they are the same failure. -/
inductive Concur (related : α → β → Prop) : Except ε α → Except ε β → Prop where
  | ok {a : α} {b : β} : related a b → Concur related (.ok a) (.ok b)
  | error (e : ε) : Concur related (.error e) (.error e)

namespace Concur

variable {x : Except ε α} {y : Except ε β} {f : α → Except ε α'}

theorem bind {g : β → Except ε β'} (concur : Concur related x y)
    (next : ∀ a b, related a b → Concur related' (f a) (g b)) :
    Concur related' (x >>= f) (y >>= g) := by
  cases concur with
  | ok here => exact next _ _ here
  | error e => exact .error e

theorem same {g : α → Except ε β'} (next : ∀ a, Concur related' (f a) (g a)) :
    Concur related' (x >>= f) (x >>= g) := by
  cases x with
  | ok a => exact next a
  | error e => exact .error e

theorem mono {related' : α → β → Prop} (concur : Concur related x y)
    (weaker : ∀ a b, related a b → related' a b) : Concur related' x y := by
  cases concur with
  | ok here => exact .ok (weaker _ _ here)
  | error e => exact .error e

theorem refl {related : α → α → Prop} (x : Except ε α) (here : ∀ a, related a a) :
    Concur related x x := by
  cases x with
  | ok a => exact .ok (here a)
  | error e => exact .error e

theorem map {f : α → α'} {g : β → β'} (concur : Concur related x y)
    (next : ∀ a b, related a b → related' (f a) (g b)) : Concur related' (x.map f) (y.map g) := by
  cases concur with
  | ok here => exact .ok (next _ _ here)
  | error e => exact .error e

theorem map_eq {γ : Type} (concur : Concur related x y) {f : α → γ} {g : β → γ}
    (same : ∀ a b, related a b → f a = g b) : x.map f = y.map g := by
  cases concur with
  | ok here => exact congrArg Except.ok (same _ _ here)
  | error e => rfl

theorem eq {y : Except ε α} (concur : Concur Eq x y) : x = y := by
  cases concur with
  | ok here => rw [here]
  | error e => rfl

end Concur

end Concur

/-! ## Trees -/

/-- What holds of every tree by the shapes of its nodes. -/
theorem Node.induction {motive : Node → Prop} (leaf : ∀ l, motive (.leaf l))
    (frame : ∀ f inner, motive inner → motive (.frame f inner))
    (group : ∀ g children, (∀ n ∈ children, motive n) → motive (.group g children))
    (closed : ∀ name entries, (∀ e ∈ entries, motive e) → motive (.tag name entries none))
    (tag : ∀ name entries body, (∀ e ∈ entries, motive e) → motive body →
      motive (.tag name entries (some body))) : ∀ n, motive n := by
  intro n
  refine @Node.rec motive (fun ns => ∀ n ∈ ns, motive n)
    (fun body? => ∀ body, body? = some body → motive body) leaf frame group ?_ ?_ ?_ ?_ ?_ n
  · intro name entries body? ihEntries ihBody
    cases body? with
    | none => exact closed name entries ihEntries
    | some body => exact tag name entries body ihEntries (ihBody body rfl)
  · nofun
  · exact fun _ _ ihNode ihRest => forall_mem_cons.mpr ⟨ihNode, ihRest⟩
  · nofun
  · intro body ih other same
    cases same
    exact ih

end MarkupTemplate
