import MarkupTemplate.Proofs.Node.Lowered

/-!
# Control lines up to the merging of attributes

The blocks of control lines come from the pass on control and output lines. Engines make none, and
values of attributes hold no statements, so an attribute list gives no block until its values are
merged. A control line that needs statements below it is then found among the items
(`inside_of_lowers`).
-/

namespace MarkupTemplate.Node

open List

variable {n : Node} {is : List Item}

/-- An attribute list before texts are expanded, or behind that. -/
abbrev SaidList (texts : Bool) (entries : List Node) : Prop :=
  ∀ e ∈ entries, Attribute.IsEntryOf (SaidValue true texts) e

/-- An attribute list once output lines are dynamic outputs. -/
abbrev StatedList (entries : List Node) : Prop :=
  ∀ e ∈ entries, Attribute.IsEntryOf (StatedValue true) e

/-! ## Embedded blocks -/

/-- A node that an engine has made: its items have at most text and outputs below them. -/
abbrev Made : Node → Prop :=
  Shaped .read (SaidList true) Item.isShallow

theorem gives_isShallow {l : Leaf} (gives : l.Gives .read is) : is.all Item.isShallow := by
  cases gives with
  | newline | dynamic | code | trim => rfl
  | static | doctype => simp [Item.ofText, Item.isShallow]

theorem Made.output (escaped : Bool) (source : Text) : Made (.output escaped source (.seq [])) where
  attached := .frame nofun rfl (.seq rfl nofun)
  isBlock := rfl
  items := by
    intro is lowers
    cases lowers with
    | frame inside wraps =>
      cases inside with
      | seq inside =>
        cases inside
        cases wraps with
        | output | captured => rfl

theorem Made.leaf {l : Leaf} (known : l ≠ .unknown) : Made (.leaf l) where
  attached := .leaf known
  isBlock := rfl
  items := by
    intro is lowers
    cases lowers with
    | leaf gives => exact gives_isShallow gives
    | @text text _ _ expanded lowers =>
      have made : Yields Made (fun _ => True) (ofInterpolated text) :=
        yields_ofInterpolated true (fun _ => Shaped.leaf nofun nofun fun _ => gives_isShallow)
          (fun escaped source _ => Made.output escaped source)
            (fun _ each => Shaped.seq (.of_forall each)) rfl
      exact (made.of_ok expanded).items is lowers

theorem Made.tag (name : Text) (attributes : List (Text × Text)) {body : Node} (made : Made body) :
    Made (.tag name (attributes.map fun (key, text) => .attr key (.static text)) (some body)) where
  attached := by
    refine .tag (fun e mem => ?_) made.isBlock made.attached
    obtain ⟨_, _, rfl⟩ := mem_map.mp mem
    exact ⟨_, rfl, .static _⟩
  isBlock := rfl
  items := by
    intro is lowers
    have texts (text : Text) : (Item.ofText text).all Item.isShallow := by
      simp [Item.ofText, Item.isShallow]
    cases lowers with
    | tag start middle stop entries inside =>
      cases entries with
      | merged read => exact absurd rfl read
      | read _ shallow => simp only [all_append, texts, shallow, made.items _ inside, Bool.and_true]

theorem made_makes : Embedded.Makes Made where
  leaf made := .leaf (by rintro rfl; nomatch made)
  escape on _ made := .escape on (Made.leaf (by rintro rfl; nomatch made))
  deferred text := .escape false (Made.leaf nofun)
  output := .output
  seq each := .seq (.of_forall each)
  tag name attributes _ made := .tag name attributes made

theorem becomes_embed (engine : Text → Except Failure Embedded.Engine) (format : Format)
    (attached : Attached true (fun entries => ∀ e ∈ entries, Attribute.IsEntry e) n) :
    Yields (Becomes .read .read (SaidList true) n) (fun _ => True) (n.embed engine format) := by
  have still : Phase.LeadsTo .read .read := nofun
  have lists {entries : List Node} (each : ∀ e ∈ entries, Attribute.IsEntry e) :
    SaidList true entries :=
    fun e mem => said_isEntry (each e mem) fun _ _ => rfl
  induction attached with
  | @leaf l known =>
    cases l with
    | unknown => exact absurd rfl known
    | _ => exact .leaf still nofun
  | @frame f inner other nested _ ih =>
    have same : embed engine format (.frame f inner) =
        embed engine format inner >>= fun inner => pure (.frame f inner) := by
      cases f with
      | embedded name => exact absurd rfl (other name)
      | _ => rfl
    rw [same]
    exact ih.bind fun _ becomes => .frame still other nested becomes
  | @embedded name nodes _ texts =>
    rw [embed]
    cases engine name with
    | error failure => trivial
    | ok e =>
      refine (made_makes.render e format texts).mono (fun n made => ?_) fun _ _ => trivial
      exact ⟨made.attached, made.isBlock, by rintro _ ⟨⟩, by rintro _ _ ⟨⟩,
        fun is lowers => .embedded (made.items is lowers)⟩
  | seq chain _ ih =>
    rw [embed, embedAll_eq]
    exact (Yields.mapM ih).bind fun _ each => .seq chain each
  | closed entries =>
    rw [embed, embed_isEntry _ _ entries]
    exact .closed (lists entries) fun _ lowers => lowers
  | tag entries nested _ ih =>
    rw [embed, embed_isEntry _ _ entries]
    exact ih.bind fun _ becomes => .tag (lists entries) (fun _ lowers => lowers) nested becomes

/-! ## Expanded texts -/

/-- As long as attribute lists are as they were read, what they hold does not matter. -/
theorem LowersList.of_read {entries entries' : List Node} (lowers : LowersList .read entries' is) :
    LowersList .read entries is := by
  cases lowers with
  | read _ shallow => exact .read rfl shallow
  | merged read => exact absurd rfl read

theorem becomes_interpolated (attached : Attached false (SaidList true) n) :
    Yields (Becomes .read .read (SaidList false) n) (fun _ => True) n.interpolated := by
  have still : Phase.LeadsTo .read .read := nofun
  induction attached with
  | @leaf l known =>
    cases l with
    | interpolate text =>
      rw [interpolated]
      cases expanded : ofInterpolated text with
      | error failure => trivial
      | ok n =>
        have becomes : Becomes .read .read (SaidList false) n n := .expanded still expanded
        have sequence : n.isBlock = false := by
          obtain ⟨segments, rfl⟩ := exists_of_ofInterpolated expanded
          rfl
        exact ⟨becomes.attached, sequence, by rintro _ ⟨⟩, by rintro _ _ ⟨⟩,
          fun is lowers => .text expanded lowers⟩
    | unknown => exact absurd rfl known
    | _ => exact .leaf still known
  | frame other nested _ ih => exact ih.bind fun _ becomes => .frame still other nested becomes
  | embedded blocks => cases blocks
  | seq chain _ ih =>
    rw [interpolated, interpolatedAll_eq]
    exact (Yields.mapM ih).bind fun _ each => .seq chain each
  | closed entries =>
    exact (entries_interpolated (fun _ => saidValue_interpolated) entries).bind fun _ each =>
      .closed each fun _ => .of_read
  | tag entries nested _ ih =>
    exact (entries_interpolated (fun _ => saidValue_interpolated) entries).bind fun _ each =>
      ih.bind fun _ becomes =>
      .tag each (fun _ => .of_read) nested becomes

/-! ## Control and output lines -/

theorem endsWith_suiteHeader (source : Text) : Text.endsWith ':' (Control.suiteHeader source) := by
  unfold Control.suiteHeader
  simp only
  split
  next ends => exact ends
  next => simp [Text.endsWith]

section Controlled

variable {list : List Node → Prop} {body body' : Node}
  (becomes : Becomes .read .read list body body')
  (nested : body.isBlock = false)

include becomes nested

theorem Becomes.statement (source : Text) :
    Becomes .read .read list (.control source body) (statement source body') := by
  unfold Node.statement
  split
  next opens =>
    refine ⟨?_, rfl, by rintro _ ⟨⟩, by rintro _ _ ⟨⟩, ?_⟩
    · refine .seq (by simp [chained, endsWith_suiteHeader]) ?_
      simp only [forall_mem_cons]
      exact ⟨.leaf (by simp), .frame (by simp) (becomes.isBlock.trans nested) becomes.attached,
        forall_mem_nil _⟩
    · intro is lowers
      cases lowers with
      | seq lowers =>
        obtain ⟨js, ks, rfl, inside, rest⟩ := lowers.of_suite
        cases rest
        exact .frame (becomes.lowers _ inside) (.suite _ opens)
  next plain =>
    have closed : body'.isBlock = false := becomes.isBlock.trans nested
    refine ⟨?_, rfl, by rintro _ ⟨⟩, by rintro _ _ ⟨⟩, ?_⟩
    · refine .seq (chained_of_forall ?_) ?_
      · simp only [forall_mem_cons]
        exact ⟨rfl, closed, forall_mem_nil _⟩
      · simp only [forall_mem_cons]
        exact ⟨.leaf (by simp), becomes.attached, forall_mem_nil _⟩
    · intro is lowers
      cases lowers with
      | seq lowers =>
        obtain ⟨js, ks, rfl, here, rest⟩ := lowers.of_cons (chained_cons closed rfl)
        cases here with
        | leaf gives =>
          cases gives
          exact .frame (becomes.lowers _ rest.of_singleton)
            (.statement _ (Bool.eq_false_iff.mpr plain))

omit becomes nested in
variable (list) in
theorem attached_putOut (escaped : Bool) (source : Text) :
    Attached false list (putOut escaped source) ∧ (putOut escaped source).isBlock = false := by
  cases escaped with
  | true => exact ⟨.leaf nofun, rfl⟩
  | false => exact ⟨.frame nofun rfl (.leaf nofun), rfl⟩

omit becomes nested in
theorem exists_of_lowers_putOut {escaped : Bool} {source : Text} {is : List Item}
    (lowers : Lowers .read (putOut escaped source) is) :
    ∃ source', is = [.output source'] ∧ Phase.Evaluates .read source source' := by
  have dynamic {is : List Item} (lowers : Lowers .read (.dynamic source) is) :
      ∃ source', is = [.output source'] ∧ Phase.Evaluates .read source source' := by
    cases lowers with
    | leaf gives =>
      cases gives with
      | dynamic evaluates => exact ⟨_, rfl, evaluates⟩
  cases escaped with
  | true => exact dynamic lowers
  | false =>
    cases lowers with
    | frame inside wraps =>
      cases wraps
      exact dynamic inside

theorem Becomes.inline (escaped : Bool) (source : Text) :
    Becomes .read .read list (.output escaped source body)
    (.seq [putOut escaped source, body']) := by
  have closed : body'.isBlock = false := becomes.isBlock.trans nested
  obtain ⟨attached, plain⟩ := attached_putOut list escaped source
  refine ⟨?_, rfl, nofun, nofun, ?_⟩
  · refine .seq (chained_cons plain (chained_cons closed rfl)) ?_
    simp only [forall_mem_cons]
    exact ⟨attached, becomes.attached, nofun⟩
  · intro is lowers
    cases lowers with
    | seq lowers =>
      obtain ⟨js, ks, rfl, here, rest⟩ := lowers.of_cons (chained_cons closed rfl)
      obtain ⟨source', rfl, evaluates⟩ := exists_of_lowers_putOut here
      exact .frame (becomes.lowers _ rest.of_singleton) (.output escaped _ evaluates)

theorem Becomes.captured (escaped : Bool) (source temp : Text) :
    Becomes .read .read list (.output escaped source body)
    (captured escaped source temp body') := by
  obtain ⟨attached, plain⟩ := attached_putOut list escaped source
  refine ⟨?_, rfl, nofun, nofun, ?_⟩
  · refine .seq (chained_cons rfl (chained_cons rfl (chained_cons plain rfl))) ?_
    simp only [forall_mem_cons]
    exact ⟨.frame nofun (becomes.isBlock.trans nested) becomes.attached, .leaf nofun, attached,
      nofun⟩
  · intro is lowers
    cases lowers with
    | seq lowers =>
      obtain ⟨js, ks, rfl, here, rest⟩ := lowers.of_cons (chained_cons rfl (chained_cons plain rfl))
      obtain ⟨ks, ls, rfl, bound, rest⟩ := rest.of_cons (chained_cons plain rfl)
      obtain ⟨source', rfl, evaluates⟩ := exists_of_lowers_putOut rest.of_singleton
      cases bound with
      | leaf gives =>
        cases gives
        cases here with
        | frame inside wraps =>
          cases wraps
          exact .frame (becomes.lowers _ inside) (.captured escaped temp _ evaluates)

end Controlled

theorem becomes_controlled (attached : Attached false (SaidList false) n) (noCapture : Bool)
    (used : Nat) : Yields (fun r => Becomes .read .read (StatedList) n r.1) (fun _ => True)
      (n.controlled noCapture used) := by
  have still : Phase.LeadsTo .read .read := nofun
  induction attached generalizing used with
  | @leaf l known =>
    cases l with
    | unknown => exact absurd rfl known
    | _ => exact .leaf still known
  | @frame f inner other nested _ ih =>
    cases f with
    | control source => exact (ih used).bind fun _ becomes => .statement becomes nested source
    | output escaped source =>
      rw [controlled]
      split
      · exact (ih used).bind fun _ becomes => .inline becomes nested escaped source
      · exact (ih (used + 1)).bind fun _ becomes => .captured becomes nested escaped source _
    | embedded name => exact absurd rfl (other name)
    | _ => exact (ih used).bind fun _ becomes => .frame still other nested becomes
  | embedded blocks => cases blocks
  | seq chain _ ih =>
    rw [controlled, controlledAll_eq]
    exact (Yields.thread ih used).bind fun _ each => .seq chain each
  | closed entries =>
    exact (statedEntries_controlled entries).bind fun _ each => .closed each.2.1 fun _ => .of_read
  | tag entries nested _ ih =>
    exact (statedEntries_controlled entries).bind fun _ each =>
      (ih _).bind fun _ becomes => .tag each.2.1 (fun _ => .of_read) nested becomes

theorem ListPass.becomes {pass : Node → Except Failure Node}
    {change : List Node → Except Failure (List Node)}
    (walks : ListPass pass change) (attached : Attached false (StatedList) n) :
    Yields (Becomes .read .read (StatedList) n) (fun _ => True) (pass n) := by
  have still : Phase.LeadsTo .read .read := nofun
  induction attached with
  | leaf known =>
    rw [walks.leaf _ known]
    exact .leaf still known
  | frame other nested _ ih =>
    rw [walks.frame]
    exact ih.bind fun _ becomes => .frame still other nested becomes
  | embedded blocks => nomatch blocks
  | seq chain _ ih =>
    rw [walks.seq]
    exact (Yields.mapM ih).bind fun _ each => .seq chain each
  | closed entries =>
    obtain ⟨entries', read, each⟩ := walks.list entries
    rw [walks.closed, read]
    exact .closed each fun _ => .of_read
  | tag entries nested _ ih =>
    obtain ⟨entries', read, each⟩ := walks.list entries
    rw [walks.tag, read]
    exact ih.bind fun _ becomes => .tag each (fun _ => .of_read) nested becomes

/-! ## Templates as they are read -/

theorem isBlock_of_isRead {format : Format} (read : Outline.IsRead format n) :
    n.isBlock = false := by
  cases read with
  | @frame f inner read =>
    cases f with
    | block => nomatch read
    | _ => rfl
  | _ => rfl

theorem attached_of_isRead {format : Format} (read : Outline.IsRead format n) :
    Attached true (fun entries => ∀ e ∈ entries, Attribute.IsEntry e) n := by
  induction read with
  | leaf read => exact .leaf (by rintro rfl; nomatch read)
  | frame read _ inside ih =>
    exact .frame (Outline.ne_embedded_of_isRead read) (isBlock_of_isRead inside) ih
  | embedded texts => exact .embedded rfl texts
  | seq each ih => exact .seq (chained_of_forall fun n mem => isBlock_of_isRead (each n mem)) ih
  | closed entries => exact .closed entries
  | tag entries inside ih => exact .tag entries (isBlock_of_isRead inside) ih

theorem fill_ne_texts (c : Context) (f : Frame) (inner : Node) {nodes : List Node}
    (texts : ∀ n ∈ nodes, Outline.IsTextNode n) : c.fill (.frame f inner) ≠ .seq nodes := by
  intro same
  cases c with
  | here | frame | tag => nomatch same
  | seq before c after =>
    cases same
    have text := texts (c.fill (.frame f inner)) (by simp)
    generalize filled : c.fill (.frame f inner) = n at text
    cases c with
    | _ =>
      cases text with
      | _ => nomatch filled

/-- A control line that needs statements below it is among the items of a template, with the items
of what is nested below it. -/
theorem inside_of_lowers {c : Context} {source : Text} {body : Node}
    (opens : Control.opensBlock source)
    {format : Format} (read : Outline.IsRead format (c.fill (.control source body)))
    (lowers : Lowers .read (c.fill (.control source body)) is) :
    ∃ js, Item.Inside (.suite (Control.suiteHeader source) js) is ∧ Lowers .read body js := by
  induction c generalizing is with
  | here =>
    cases lowers with
    | frame inside wraps =>
      cases wraps with
      | suite => exact ⟨_, .here (mem_singleton_self _), inside⟩
      | statement _ plain => nomatch opens.symm.trans plain
  | frame f c ih =>
    rcases Outline.isRead_of_frame read with ⟨name, nodes, rfl, same, texts⟩ | ⟨other, read⟩
    · exact absurd same (fill_ne_texts c _ _ texts)
    · cases lowers with
      | frame lowers wraps =>
        obtain ⟨js, inside, below⟩ := ih read lowers
        exact ⟨js, wraps.inside inside, below⟩
      | embedded => nomatch other
  | seq before c after ih =>
    cases read with
    | seq each =>
      have plain : ∀ n ∈ before ++ c.fill (.control source body) :: after, n.isBlock = false :=
        fun n mem => isBlock_of_isRead (each n mem)
      simp only [forall_mem_append, forall_mem_cons] at plain
      have chain := chained_of_forall plain.2.2
      cases lowers with
      | seq lowers =>
        obtain ⟨front, back, rfl, _, rest⟩ := lowers.of_append (chained_cons plain.2.1 chain)
        obtain ⟨here, back, rfl, lowers, _⟩ := rest.of_cons chain
        obtain ⟨js, inside, below⟩ := ih (each _ (by simp)) lowers
        exact ⟨js, inside.mono fun i mem => by simp [mem], below⟩
  | tag name entries c ih =>
    cases read with
    | tag _ read =>
      cases lowers with
      | tag start middle stop _ lowers =>
        obtain ⟨js, inside, below⟩ := ih read lowers
        exact ⟨js, inside.mono fun i mem => by simp [mem], below⟩

end MarkupTemplate.Node
