import MarkupTemplate.Proofs.Attribute.Merge
import MarkupTemplate.Proofs.Node.Events
import MarkupTemplate.Proofs.Node.Stated

/-!
# Guarded outputs

An output is guarded if its code goes through the escaping helper, or if it is a variable that has
just been bound to joined attribute values, which were escaped then. `Guards` says of events that
outputs of attributes are guarded, and those of content as well where escaping is on by default. If
no output of a tree asks not to be escaped, merging its attributes gives guarded events
(`guards_attributed`).
-/

namespace MarkupTemplate

open List
open Attribute (tempName joinStatement isEntryOf_iff wordTest mergeList_merges)

/-! ## Events -/

/-- A code that goes through the escaping helper. -/
def guardedCode (source : Text) : Text :=
  "_hamlc_escape((" ++ source ++ "))"

/-- Whether an output is guarded by its code or by the events right before it. -/
def IsGuarded (before : List Event) (source : Text) : Prop :=
  (∃ inner, source = guardedCode inner) ∨
    ∃ front number delimiter parts, source = tempName number ∧
      before = front ++ [.statement (joinStatement source delimiter parts),
        .statement ("if " ++ source ++ ":")]

theorem IsGuarded.cons {before : List Event} {source : Text} (guarded : IsGuarded before source)
    (e : Event) : IsGuarded (e :: before) source := by
  rcases guarded with escaped | ⟨front, number, delimiter, parts, same, rfl⟩
  · exact .inl escaped
  · exact .inr ⟨e :: front, number, delimiter, parts, same, rfl⟩

/-- Outputs of attributes are guarded, and those of content too where escaping is on by default. -/
inductive Guards (byDefault : Bool) : List (Origin × Event) → Prop where
  | nil : Guards byDefault []
  | statement (origin : Origin) (source : Text) {es : List (Origin × Event)} :
    Guards byDefault es → Guards byDefault ((origin, .statement source) :: es)
  | capture (origin : Origin) (name : Text) {es : List (Origin × Event)} :
    Guards byDefault es → Guards byDefault ((origin, .capture name) :: es)
  | escaped (origin : Origin) (source : Text) {es : List (Origin × Event)} :
    Guards byDefault es → Guards byDefault ((origin, .output (guardedCode source)) :: es)
  | content (source : Text) {es : List (Origin × Event)} :
    byDefault = false → Guards byDefault es → Guards byDefault ((.content, .output source) :: es)
  | joined (origin : Origin) (number : Nat) (delimiter : Text) (parts : List Text)
    {es : List (Origin × Event)} :
    Guards byDefault es →
    Guards byDefault (
      (origin, .statement (joinStatement (tempName number) delimiter parts)) ::
      (origin, .statement ("if " ++ tempName number ++ ":")) ::
      (origin, .output (tempName number)) :: es)

namespace Guards

variable {byDefault : Bool} {es es' : List (Origin × Event)}

theorem append (first : Guards byDefault es) (rest : Guards byDefault es') :
    Guards byDefault (es ++ es') := by
  induction first with
  | nil => exact rest
  | statement origin source _ ih => exact .statement origin source ih
  | capture origin name _ ih => exact .capture origin name ih
  | escaped origin source _ ih => exact .escaped origin source ih
  | content source off _ ih => exact .content source off ih
  | joined origin number delimiter parts _ ih => exact .joined origin number delimiter parts ih

theorem flatMap {α : Type} {f : α → List (Origin × Event)} {as : List α}
    (each : ∀ a ∈ as, Guards byDefault (f a)) : Guards byDefault (as.flatMap f) := by
  induction as with
  | nil => exact .nil
  | cons a as ih =>
    rw [forall_mem_cons] at each
    rw [flatMap_cons]
    exact each.1.append (ih each.2)

theorem isGuarded (guards : Guards byDefault es) {before after : List (Origin × Event)}
    {origin : Origin} {source : Text} (found : es = before ++ (origin, .output source) :: after)
    (due : byDefault ∨ origin = .attribute) : IsGuarded (before.map Prod.snd) source := by
  induction guards generalizing before with
  | nil => exact absurd found.symm (by simp)
  | statement _ _ _ ih | capture _ _ _ ih =>
    cases before with
    | nil => nomatch found
    | cons e before => exact (ih (List.cons.inj found).2).cons e.2
  | escaped _ inner _ ih =>
    cases before with
    | nil =>
      cases found
      exact .inl ⟨inner, rfl⟩
    | cons e before => exact (ih (List.cons.inj found).2).cons e.2
  | content _ off _ ih =>
    cases before with
    | nil =>
      cases found
      simp [off] at due
    | cons e before => exact (ih (List.cons.inj found).2).cons e.2
  | joined _ number delimiter parts _ ih =>
    match before, found with
    | [], found => nomatch found
    | [_], found => nomatch found
    | [_, _], found =>
      cases found
      exact .inr ⟨[], number, delimiter, parts, rfl, rfl⟩
    | e :: e' :: e'' :: before, found =>
      have rest := (List.cons.inj (List.cons.inj (List.cons.inj found).2).2).2
      exact (((ih rest).cons e''.2).cons e'.2).cons e.2

end Guards

/-! ## Merged attributes -/

namespace Node

variable {n v : Node} {byDefault : Bool} {on? : Option Bool}

theorem eventsBy_silent {raw texts : Bool} {put : Option Bool → Text → Text} {l : Leaf}
    (silent : l.isSilent raw texts) (origin : Origin) : eventsBy put on? origin (.leaf l) = [] := by
  cases l with
  | newline | static | doctype | interpolate => exact eventsBy_leaf (by simp) (by simp)
  | _ => nomatch silent

theorem attributed_cons (o : Options) (used : Nat) (n : Node) (ns : List Node) :
    (Node.seq (n :: ns)).attributed o used = (n.attributed o used >>= fun r =>
      Node.attributedAll o r.2 ns >>= fun others => .ok (.seq (r.1 :: others.1), others.2)) := by
  rw [Node.attributed, Node.attributedAll, bind_assoc]
  refine bind_congr fun r => ?_
  rw [bind_assoc]
  rfl

theorem attributed_captured (o : Options) (used : Nat) (escaped : Bool) (source temp : Text)
    (body : Node) : (Node.captured escaped source temp body).attributed o used =
      body.attributed o used >>= fun r => .ok (Node.captured escaped source temp r.1, r.2) := by
  have inside : (Node.capture temp body).attributed o used =
      body.attributed o used >>= fun r => .ok (.capture temp r.1, r.2) := rfl
  rw [Node.captured, attributed_cons, inside, bind_assoc]
  refine bind_congr fun r => ?_
  cases escaped with
  | true | false => rfl

theorem guards_content (notOff : on? ≠ some false) (source : Text) :
    Guards byDefault [(.content, .output (escapedCode byDefault on? source))] := by
  cases on? with
  | none =>
    cases byDefault with
    | true => exact .escaped .content source .nil
    | false => exact .content source rfl .nil
  | some on =>
    cases on with
    | true => exact .escaped .content source .nil
    | false => exact absurd rfl notOff

theorem guards_text (stated : StatedText false n) (origin : Origin) :
    Guards byDefault (eventsBy (escapedCode byDefault) (some true) origin n) := by
  induction stated with
  | static =>
    rw [eventsBy_leaf (by simp) (by simp)]
    exact .nil
  | putOut escaped source allowed =>
    cases (show escaped = true from allowed)
    show Guards byDefault (eventsBy (escapedCode byDefault) (some true) origin (.dynamic source))
    rw [eventsBy_dynamic]
    exact .escaped origin source .nil
  | seq _ ih =>
    rw [eventsBy_seq]
    exact .flatMap ih

theorem guards_value (stated : StatedValue false v) (origin : Origin) :
    Guards byDefault (eventsBy (escapedCode byDefault) on? origin v) := by
  cases stated with
  | static text =>
    rw [eventsBy_static]
    exact .nil
  | text stated =>
    rw [eventsBy_escape]
    exact guards_text stated origin
  | code =>
    rw [eventsBy_leaf (by simp) (by simp)]
    exact .nil

theorem escapedCode_on (source : Text) :
    escapedCode byDefault (some true) source = guardedCode source :=
  rfl

theorem eventsBy_decided (origin : Origin) (name : Text) (escaped : Bool) (source temp : Text) :
    eventsBy (escapedCode byDefault) on? origin (Attribute.decided name escaped source temp) =
      [(origin, .statement (temp ++ " = " ++ source)),
        (origin, .statement (wordTest "if" temp Attribute.trueWords)),
        (origin, .statement (wordTest "elif" temp Attribute.falseWords)),
        (origin, .statement "else:"),
        (origin, .output (escapedCode byDefault (some escaped) temp))] := by
  simp only [Attribute.decided, eventsBy_seq, flatMap_cons, flatMap_nil, eventsBy_code,
    eventsBy_escape,
    eventsBy_frame, eventsBy_static, eventsBy_dynamic, append_nil, nil_append, cons_append, ne_eq,
      reduceCtorEq,
    not_false_eq_true, implies_true]

theorem guards_merges (merges : Attribute.Merges (StatedValue false) n) (origin : Origin) :
    Guards byDefault (eventsBy (escapedCode byDefault) on? origin n) := by
  cases merges with
  | nothing =>
    rw [eventsBy_seq]
    exact .nil
  | text name text =>
    rw [eventsBy_frame (by simp) (by simp), eventsBy_static]
    exact .nil
  | value name guarded =>
    rw [eventsBy_frame (by simp) (by simp)]
    exact guards_value guarded origin
  | @decided name escaped source number guarded =>
    cases guarded
    rw [eventsBy_decided, escapedCode_on]
    exact .statement _ _ (.statement _ _ (.statement _ _ (.statement _ _ (.escaped _ _ .nil))))
  | joined name delimiter number captures parts =>
    rw [eventsBy_seq, flatMap_append]
    refine .append (.flatMap fun c mem => ?_) ?_
    · cases captures c mem with
      | value number guarded =>
        rw [eventsBy_capture]
        exact (guards_value guarded origin).append (.capture origin _ .nil)
    · simp only [flatMap_cons, flatMap_nil, eventsBy_code, append_nil, singleton_append]
      rw [eventsBy_frame (by simp) (by simp), eventsBy_frame (by simp) (by simp), eventsBy_escape,
        eventsBy_dynamic]
      exact .joined origin number delimiter _ .nil

/-- The outputs of a tree are guarded, once escaping is applied under a switch. -/
def GuardsUnder (byDefault : Bool) (on? : Option Bool) (n : Node) : Prop :=
  Guards byDefault (eventsBy (escapedCode byDefault) on? .content n)

theorem guards_attributed (o : Options) {codes : List Text} {lo hi : Nat}
    (stated : Stated false codes lo hi n)
    (used : Nat) (on? : Option Bool) (notOff : on? ≠ some false) :
    Yields (fun r => GuardsUnder byDefault on? r.1) (fun _ => True) (n.attributed o used) := by
  induction stated generalizing used on? with
  | @leaf _ l silent =>
    have same : (Node.leaf l).attributed o used = .ok (.leaf l, used) := by
      cases l with
      | unknown => nomatch silent
      | _ => rfl
    rw [same]
    show GuardsUnder byDefault on? (.leaf l)
    rw [GuardsUnder, eventsBy_silent silent]
    exact .nil
  | statement _ source | suite _ source =>
    show GuardsUnder byDefault on? (.code _)
    rw [GuardsUnder, eventsBy_code]
    exact .statement .content _ .nil
  | putOut _ escaped source allowed =>
    cases (show escaped = true from allowed)
    show GuardsUnder byDefault on? (.dynamic source)
    rw [GuardsUnder, eventsBy_dynamic]
    exact guards_content notOff source
  | deferred _ _ allowed => nomatch allowed
  | @frame _ _ _ f inner silent _ _ ih =>
    cases f with
    | escape on =>
      cases (show on = true from silent)
      refine (ih used (some true) (by simp)).bind fun r guards => ?_
      show GuardsUnder byDefault on? (.escape true r.1)
      rw [GuardsUnder, eventsBy_escape]
      exact guards
    | comment | condComment | trim | block =>
      refine (ih used on? notOff).bind fun r guards => ?_
      show GuardsUnder byDefault on? (.frame _ r.1)
      rw [GuardsUnder, eventsBy_frame (by simp) (by simp)]
      exact guards
    | _ => nomatch silent
  | captured escaped source allowed _ ih =>
    cases (show escaped = true from allowed)
    rw [attributed_captured]
    refine (ih used none (by simp)).bind fun r guards => ?_
    show GuardsUnder byDefault on? (captured true source _ r.1)
    simp only [GuardsUnder, captured, putOut, reduceIte, eventsBy_seq, flatMap_cons, flatMap_nil,
      eventsBy_capture,
      eventsBy_code, eventsBy_dynamic, append_nil, append_assoc]
    exact guards.append (.capture .content _ (.statement .content _ (guards_content notOff source)))
  | nil =>
    show GuardsUnder byDefault on? (.seq [])
    rw [GuardsUnder, eventsBy_seq]
    exact .nil
  | cons _ _ first rest =>
    rw [attributed_cons]
    refine (first used on? notOff).bind fun r guards =>
      (rest r.2 on? notOff).of_bind.bind fun others guards' => ?_
    replace guards' : GuardsUnder byDefault on? (.seq others.1) := guards'
    show GuardsUnder byDefault on? (.seq (r.1 :: others.1))
    rw [GuardsUnder, eventsBy_seq] at guards' ⊢
    exact guards.append guards'
  | @closed _ _ name entries each _ =>
    obtain ⟨r, read, merges⟩ := mergeList_merges o used each
    rw [attributed, read]
    show GuardsUnder byDefault on? (.tag name r.1 none)
    rw [GuardsUnder, eventsBy_closed]
    exact .flatMap fun n mem => guards_merges (merges n mem) .attribute
  | @tag _ _ _ _ name entries body each _ _ ih =>
    obtain ⟨r, read, merges⟩ := mergeList_merges o used each
    rw [attributed, read]
    refine (ih r.2 on? notOff).bind fun r' guards => ?_
    show GuardsUnder byDefault on? (.tag name r.1 (some r'.1))
    rw [GuardsUnder, eventsBy_tag]
    exact .append (.flatMap fun n mem => guards_merges (merges n mem) .attribute) guards

end Node

end MarkupTemplate
