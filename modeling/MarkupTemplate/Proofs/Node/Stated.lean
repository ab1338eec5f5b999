import MarkupTemplate.Proofs.Node.Said

/-!
# Trees with numbered captures

What is nested below an output line is captured in a temporary with a number, given from the outside
in: `Stated raw codes lo hi` says of a tree that the numbers of its captures are those above `lo` up
to `hi`, and that it has the codes `codes` from the template. Choosing and ordering attributes keeps
the numbers, but may leave out and move codes. As in `Said`, `raw` tells whether output without
escaping is allowed.
-/

namespace MarkupTemplate

open List

open Host (isComplete)

namespace Node

/-! ## Codes of values -/

/-- The code that a node of a value has from the template, once output lines are dynamic outputs. -/
def valueCode? : Node → Option Text
  | .leaf (.dynamic source) | .leaf (.value _ source) => some source
  | _ => none

/-- The codes of a template in the value of an attribute, once output lines are outputs. -/
def valueCodes (v : Node) : List Text :=
  v.parts.filterMap valueCode?

theorem valueCodes_frame (f : Frame) (inner : Node) :
    valueCodes (.frame f inner) = inner.valueCodes := by
  rw [valueCodes, parts, filterMap_cons_none rfl, valueCodes]

theorem valueCodes_seq (ns : List Node) : valueCodes (.seq ns) = ns.flatMap valueCodes := by
  rw [valueCodes, parts, filterMap_cons_none rfl, filterMap_partsOf]
  rfl

variable {raw : Bool}

theorem valueCodes_putOut (escaped : Bool) (source : Text) :
    valueCodes (putOut escaped source) = [source] := by
  cases escaped with
  | true | false => rfl

theorem codes_silent {texts : Bool} {l : Leaf} (silent : l.isSilent raw texts) :
    codes (.leaf l) = [] := by
  cases l with
  | newline | static | doctype | interpolate => rfl
  | _ => nomatch silent

theorem codes_frame {f : Frame} (silent : f.isSilent raw) (inner : Node) :
    codes (.frame f inner) = inner.codes := by
  cases f with
  | comment | condComment | trim | escape | block => rfl
  | _ => nomatch silent

theorem codes_seq (ns : List Node) : codes (.seq ns) = ns.flatMap codes := by
  rw [codes, parts, filterMap_cons_none rfl, filterMap_partsOf]
  rfl

theorem codes_closed (name : Text) (entries : List Node) :
    codes (.tag name entries none) = entries.flatMap codes := by
  rw [codes, parts, filterMap_cons_none rfl, filterMap_partsOf]
  rfl

theorem codes_tag (name : Text) (entries : List Node) (body : Node) :
    codes (.tag name entries (some body)) = entries.flatMap codes ++ body.codes := by
  rw [codes, parts, filterMap_cons_none rfl, filterMap_append, filterMap_partsOf]
  rfl

/-! ## Trees -/

/-- The text of an attribute once output lines are dynamic outputs. -/
inductive StatedText (raw : Bool) : Node → Prop where
  | static (text : Text) : StatedText raw (.static text)
  | putOut (escaped : Bool) (source : Text) :
    raw || escaped → StatedText raw (putOut escaped source)
  | seq {children : List Node} : (∀ n ∈ children, StatedText raw n) → StatedText raw (.seq children)

/-- The value of an attribute once output lines are dynamic outputs. -/
inductive StatedValue (raw : Bool) : Node → Prop where
  | static (text : Text) : StatedValue raw (.static text)
  | text {inner : Node} : StatedText raw inner → StatedValue raw (.escape true inner)
  | code {source : Text} : isComplete source → StatedValue raw (.value true source)

/-- A tree with statements for its lines and some codes of the template; the numbers of its captures
are those above `lo` up to `hi`. -/
inductive Stated (raw : Bool) : (codes : List Text) → (lo hi : Nat) → Node → Prop where
  | leaf (n : Nat) {l : Leaf} : l.isSilent raw false → Stated raw [] n n (.leaf l)
  | statement (n : Nat) (source : Text) : Stated raw [source] n n (.code source)
  | suite (n : Nat) (source : Text) : Stated raw [source] n n (.code (Control.suiteHeader source))
  | putOut (n : Nat) (escaped : Bool) (source : Text) : raw || escaped →
    Stated raw [source] n n (putOut escaped source)
  | deferred (n : Nat) (text : Text) :
    raw → Stated raw [] n n (.escape false (.dynamic (Embedded.deferredCode text)))
  | frame {codes : List Text} {lo hi : Nat} {f : Frame} {inner : Node} :
    f.isSilent raw → (f.isTrim → inner.isTag) → Stated raw codes lo hi inner →
    Stated raw codes lo hi (.frame f inner)
  | captured {codes : List Text} {lo hi : Nat} (escaped : Bool) (source : Text) {body : Node} :
    raw || escaped → Stated raw codes (lo + 1) hi body →
    Stated raw (source :: codes) lo hi (captured escaped source (Control.tempName (lo + 1)) body)
  | nil (n : Nat) : Stated raw [] n n (.seq [])
  | cons {codes codes' : List Text} {lo mid hi : Nat} {first : Node} {rest : List Node} :
    Stated raw codes lo mid first → Stated raw codes' mid hi (.seq rest) →
    Stated raw (codes ++ codes') lo hi (.seq (first :: rest))
  | closed (n : Nat) {codes : List Text} {name : Text} {entries : List Node} :
    (∀ e ∈ entries, Attribute.IsEntryOf (StatedValue raw) e) →
    (entries.flatMap valueCodes).Subperm codes →
    Stated raw codes n n (.tag name entries none)
  | tag {codes codes' : List Text} {lo hi : Nat} {name : Text} {entries : List Node} {body : Node} :
    (∀ e ∈ entries, Attribute.IsEntryOf (StatedValue raw) e) →
    (entries.flatMap valueCodes).Subperm codes →
    Stated raw codes' lo hi body →
    Stated raw (codes ++ codes') lo hi (.tag name entries (some body))

variable {codes codes' : List Text} {lo mid hi : Nat}

theorem Stated.le {n : Node} (stated : Stated raw codes lo hi n) : lo ≤ hi := by
  induction stated with
  | leaf | statement | suite | putOut | deferred | nil | closed => exact le_rfl
  | frame _ _ _ ih | tag _ _ _ ih => exact ih
  | captured _ _ _ _ ih => exact Nat.le_of_succ_le ih
  | cons _ _ first rest => exact Nat.le_trans first rest

theorem Stated.pair {n n' : Node} (first : Stated raw codes lo mid n)
    (second : Stated raw codes' mid hi n') : Stated raw (codes ++ codes') lo hi (.seq [n, n']) := by
  have last := second.cons (.nil hi)
  rw [append_nil] at last
  exact first.cons last

/-! ## Control lines -/

theorem stated_statement (source : Text) {body : Node} (stated : Stated raw codes lo hi body) :
    Stated raw (source :: codes) lo hi (statement source body) := by
  unfold statement
  split
  · exact (Stated.suite lo source).pair (.frame rfl nofun stated)
  · exact (Stated.statement lo source).pair stated

theorem controlled_leaf (noCapture : Bool) (used : Nat) {l : Leaf} (known : l ≠ .unknown) :
    controlled noCapture used (.leaf l) = .ok (.leaf l, used) := by
  cases l with
  | unknown => exact absurd rfl known
  | _ => rfl

theorem ne_unknown_of_isSilent {texts : Bool} {l : Leaf} (silent : l.isSilent raw texts) :
    l ≠ .unknown := by
  rintro rfl
  nomatch silent

/-- What becomes of a part of an attribute list: it has the same codes. -/
def Restates (holds : Node → Prop) (n n' : Node) : Prop :=
  holds n' ∧ n'.valueCodes = n.codes

section Controlled

variable {noCapture : Bool} {used : Nat}

/-- No lines are nested in the text of an attribute, so nothing is captured there. -/
theorem statedText_controlled {n : Node} (said : SaidText raw false n) :
    Yields (fun r => r.2 = used ∧ Restates (StatedText raw) n r.1) (fun _ => True)
    (n.controlled noCapture used) := by
  induction said with
  | static text => exact ⟨rfl, .static text, rfl⟩
  | interpolate unexpanded => nomatch unexpanded
  | output escaped source allowed =>
    refine ⟨rfl, .seq (forall_mem_cons.mpr ⟨.putOut escaped source allowed,
      forall_mem_singleton.mpr (.seq nofun)⟩), ?_⟩
    rw [valueCodes_seq, flatMap_cons, valueCodes_putOut]
    rfl
  | seq _ ih =>
    rw [controlled, controlledAll_eq]
    refine (Yields.thread_still ih).bind ?_
    rintro ⟨children, last⟩ ⟨same, each⟩
    refine ⟨same, .seq (forall_of_forall₂ (each.imp fun _ _ restates => restates.1)), ?_⟩
    rw [valueCodes_seq, codes_seq, flatMap_eq_of_forall₂ (each.imp fun _ _ restates => restates.2)]

theorem statedValue_controlled {v : Node} (said : SaidValue raw false v) :
    Yields (fun r => r.2 = used ∧ Restates (StatedValue raw) v r.1) (fun _ => True)
    (v.controlled noCapture used) := by
  cases said with
  | static text => exact ⟨rfl, .static text, rfl⟩
  | text said =>
    refine (statedText_controlled said).bind ?_
    rintro ⟨inner, last⟩ ⟨same, stated, codes⟩
    exact ⟨same, .text stated, by rw [valueCodes_frame, codes]; rfl⟩
  | code complete => exact ⟨rfl, .code complete, rfl⟩

theorem statedEntries_controlled {entries : List Node}
    (each : ∀ e ∈ entries, Attribute.IsEntryOf (SaidValue raw false) e) :
    Yields (fun r => r.2 = used ∧ (∀ e ∈ r.1, Attribute.IsEntryOf (StatedValue raw) e) ∧
        r.1.flatMap valueCodes = entries.flatMap Node.codes)
      (fun _ => True) (controlledAll noCapture used entries) := by
  have one : ∀ e ∈ entries,
    Yields (fun r => r.2 = used ∧ Restates (Attribute.IsEntryOf (StatedValue raw)) e r.1)
      (fun _ => True) (e.controlled noCapture used) := by
    intro e mem
    obtain ⟨name, v, rfl | rfl, said⟩ := Attribute.isEntryOf_iff.mp (each e mem)
    · refine (statedValue_controlled said).bind ?_
      rintro ⟨v', last⟩ ⟨same, stated, codes⟩
      exact ⟨same, ⟨_, rfl, stated⟩, by rw [valueCodes_frame, codes]; rfl⟩
    · refine (statedValue_controlled said).bind ?_
      rintro ⟨v', last⟩ ⟨same, stated, codes⟩
      exact ⟨same, ⟨_, rfl, stated⟩, by rw [valueCodes_frame, codes]; rfl⟩
  rw [controlledAll_eq]
  refine (Yields.thread_still one).mono ?_ fun _ _ => trivial
  rintro r ⟨same, each⟩
  exact ⟨same, forall_of_forall₂ (each.imp fun _ _ restates => restates.1),
    flatMap_eq_of_forall₂ (each.imp fun _ _ restates => restates.2)⟩

theorem statedAll_controlled {ns : List Node}
    (each : ∀ n ∈ ns, ∀ used,
      Yields (fun r => Stated raw n.codes used r.2 r.1) (fun _ => True)
      (n.controlled noCapture used)) :
    Yields (fun r => Stated raw (ns.flatMap Node.codes) used r.2 (.seq r.1)) (fun _ => True)
      (thread (controlled noCapture) used ns) := by
  induction ns generalizing used with
  | nil => exact .nil used
  | cons n ns ih =>
    rw [forall_mem_cons] at each
    refine (each.1 used).bind ?_
    intro (n', mid) first
    refine (ih each.2).bind ?_
    intro (ns', hi) rest
    exact .cons first rest

theorem isTag_controlled {n : Node} (isTag : n.isTag) :
    Yields (fun r => r.1.isTag) (fun _ => True) (n.controlled noCapture used) := by
  induction isTag using isTag_induction with
  | tag _ _ body? =>
    cases body? with
    | none => exact (Yields.always _).bind fun _ _ => rfl
    | some _ => exact (Yields.always _).bind fun _ _ => (Yields.always _).bind fun _ _ => rfl
  | trim _ _ _ ih => exact ih.bind fun _ tag => tag

/-- Each capture gets the number behind those used before, and those inside it the next ones. -/
theorem stated_controlled {n : Node} (said : Said raw false n) :
    Yields (fun r => Stated raw n.codes used r.2 r.1) (fun _ => True)
    (n.controlled noCapture used) := by
  induction said generalizing used with
  | leaf silent =>
    rw [controlled_leaf _ _ (ne_unknown_of_isSilent silent), codes_silent silent]
    exact .leaf used silent
  | statement source => exact .statement used source
  | deferred text allowed => exact .deferred used text allowed
  | @frame f inner silent tags _ ih =>
    rw [codes_frame silent]
    cases f with
    | comment | condComment | escape | block =>
      exact ih.bind fun _ stated => .frame silent nofun stated
    | trim =>
      exact (ih.and (isTag_controlled (tags rfl))).bind fun _ both =>
        .frame silent (fun _ => both.2) both.1
    | _ => nomatch silent
  | control source _ ih => exact ih.bind fun _ stated => stated_statement source stated
  | output escaped source allowed _ ih =>
    unfold controlled
    split
    · exact ih.bind fun _ stated => (Stated.putOut used escaped source allowed).pair stated
    · exact ih.bind fun _ stated => .captured escaped source allowed stated
  | seq _ ih =>
    rw [controlled, controlledAll_eq, codes_seq]
    exact (statedAll_controlled fun n mem _ => ih n mem).bind fun _ stated => stated
  | closed entries =>
    refine (statedEntries_controlled entries).bind ?_
    rintro ⟨entries', last⟩ ⟨rfl, stated, same⟩
    rw [codes_closed]
    exact .closed _ stated (by rw [same])
  | tag entries _ ih =>
    refine (statedEntries_controlled entries).bind ?_
    rintro ⟨entries', last⟩ ⟨rfl, stated, same⟩
    rw [codes_tag]
    exact ih.bind fun _ body => .tag stated (by rw [same]) body

end Controlled

/-! ## Attribute lists -/

section Lists

variable {pass : Node → Except Failure Node} {list : List Node → Except Failure (List Node)}
  {n : Node}

theorem ListPass.isTag (walks : ListPass pass list) (isTag : n.isTag) :
    Yields (fun n' => n'.isTag) (fun _ => True) (pass n) := by
  induction isTag using isTag_induction with
  | tag _ _ body? =>
    cases body? with
    | none =>
      rw [walks.closed]
      exact (Yields.always _).bind fun _ _ => rfl
    | some _ =>
      rw [walks.tag]
      exact (Yields.always _).bind fun _ _ => (Yields.always _).bind fun _ _ => rfl
  | trim _ _ _ ih =>
    rw [walks.frame]
    exact ih.bind fun _ tag => tag

theorem ListPass.putOut (walks : ListPass pass list) (escaped : Bool) (source : Text) :
    pass (putOut escaped source) = .ok (putOut escaped source) := by
  cases escaped with
  | true => exact walks.leaf _ (by simp)
  | false =>
    rw [show Node.putOut false source = .escape false (.dynamic source) from rfl, walks.frame,
      walks.leaf _ (by simp)]
    rfl

theorem ListPass.stated (walks : ListPass pass list) (stated : Stated raw codes lo hi n) :
    Yields (Stated raw codes lo hi) (fun _ => True) (pass n) := by
  have fewer : ∀ {entries entries' : List Node} {codes : List Text}, list entries = .ok entries' →
      (entries.flatMap valueCodes).Subperm codes → (entries'.flatMap valueCodes).Subperm codes :=
    fun made within => (subperm_flatMap_of_subperm (walks.fewer made) valueCodes).trans within
  induction stated with
  | leaf used silent =>
    rw [walks.leaf _ (ne_unknown_of_isSilent silent)]
    exact .leaf used silent
  | statement used source =>
    rw [walks.leaf _ (by simp)]
    exact .statement used source
  | suite used source =>
    rw [walks.leaf _ (by simp)]
    exact .suite used source
  | putOut used escaped source allowed =>
    rw [walks.putOut]
    exact .putOut used escaped source allowed
  | deferred used text allowed =>
    rw [walks.frame, walks.leaf _ (by simp)]
    exact .deferred used text allowed
  | @frame _ _ _ f inner silent tags _ ih =>
    rw [walks.frame]
    cases trim : f.isTrim with
    | false => exact ih.bind fun _ stated => .frame silent (by simp [trim]) stated
    | true =>
      exact (ih.and (walks.isTag (tags trim))).bind fun _ both =>
        .frame silent (fun _ => both.2) both.1
  | captured escaped source allowed _ ih =>
    rw [Node.captured, walks.seq, mapM_cons, walks.frame, mapM_cons, walks.leaf _ (by simp),
      mapM_cons,
      walks.putOut, mapM_nil]
    simp only [bind_assoc, pure_bind]
    exact ih.bind fun _ stated => .captured escaped source allowed stated
  | nil used =>
    rw [walks.seq, mapM_nil]
    exact .nil used
  | cons _ _ first rest =>
    rw [walks.seq] at rest
    rw [walks.seq, mapM_cons]
    simp only [bind_assoc, pure_bind]
    exact first.bind fun _ stated => rest.of_bind.bind fun _ others => .cons stated others
  | closed used entries within =>
    obtain ⟨entries', same, stated⟩ := walks.list entries
    rw [walks.closed, same]
    exact .closed used stated (fewer same within)
  | tag entries within _ ih =>
    obtain ⟨entries', same, stated⟩ := walks.list entries
    rw [walks.tag, same]
    exact ih.bind fun _ body => .tag stated (fewer same within) body

end Lists

end Node

end MarkupTemplate
