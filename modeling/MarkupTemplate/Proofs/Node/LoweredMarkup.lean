import MarkupTemplate.Proofs.Node.Written
import MarkupTemplate.Proofs.Node.LoweredLines

/-!
# Control lines from the merging of attributes on

Merging makes statements with blocks out of attributes. The passes behind it neither make blocks nor
separate them from their statements: flattening puts the children of a sequence in its place, of
which the first is no block, and joining moves line marks behind texts but not across statements.
The items of the final tree are then those read off it (`lowers_items`).
-/

namespace MarkupTemplate.Node

open List
open Markup (breakNodes emptyEnd)

/-! ## Merged attributes -/

/-- No attribute list: there are no tags. -/
def NoTags (_ : List Node) : Prop :=
  False

/-- What stands for an attribute list: statements with blocks that only put something out. -/
def MergedList (entries : List Node) : Prop :=
  ∀ e ∈ entries, Shaped .merged NoTags Item.isShallow e

section Merged

variable {phase : Phase} {list : List Node → Prop}

theorem Shaped.static (text : Text) : Shaped phase list Item.isPlain (.static text) :=
  .leaf nofun nofun fun is gives => by
    cases gives
    exact all_isPlain_ofText _

theorem Shaped.dynamic (source : Text) : Shaped phase list Item.isPlain (.dynamic source) :=
  .leaf nofun nofun fun is gives => by
    cases gives
    rfl

theorem Shaped.statement (source : Text) : Shaped phase list Item.isShallow (.code source) :=
  .leaf nofun nofun fun is gives => by
    cases gives
    rfl

variable {v : Node}

theorem Shaped.attr (name : Text) (inside : Shaped phase list Item.isPlain v) :
    Shaped phase list Item.isPlain (.attr name v) where
  attached := .frame nofun inside.isBlock inside.attached
  isBlock := rfl
  items := by
    intro is lowers
    cases lowers with
    | frame lowers wraps =>
      cases wraps
      simp only [all_append, all_isPlain_ofText, inside.items _ lowers, Bool.and_true]

theorem Shaped.capture (name : Text) (inside : Shaped phase list Item.isPlain v) :
    Shaped phase list Item.isShallow (.capture name v) where
  attached := .frame nofun inside.isBlock inside.attached
  isBlock := rfl
  items := by
    intro is lowers
    cases lowers with
    | frame lowers wraps =>
      cases wraps
      rw [all_cons, Item.isShallow, inside.items _ lowers]
      rfl

theorem StatedValue.shaped {raw : Bool} (stated : StatedValue raw v) :
    Shaped phase list Item.isPlain v := by
  have text : ∀ {v : Node}, StatedText raw v → Shaped phase list Item.isPlain v := by
    intro v stated
    induction stated with
    | static text => exact .static text
    | putOut escaped source =>
      cases escaped with
      | true => exact .dynamic source
      | false => exact (Shaped.dynamic source).escape false
    | seq _ ih => exact .seq (.of_forall ih)
  cases stated with
  | static text => exact .static text
  | text stated => exact (text stated).escape true
  | code => exact .leaf nofun nofun nofun

theorem endsWith_append (front : Text) {c : Char} {back : Text} (ends : Text.endsWith c back) :
    Text.endsWith c (front ++ back) := by
  unfold Text.endsWith at ends ⊢
  rw [beq_iff_eq] at ends ⊢
  rw [getLast?_append, ends]
  rfl

theorem shaped_merges {e : Node} (merges : Attribute.Merges (StatedValue true) e) :
    Shaped phase list Item.isShallow e := by
  cases merges with
  | nothing => exact .seq .nil
  | text name text => exact (Shaped.attr name (.static text)).shallow
  | value name stated => exact (Shaped.attr name stated.shaped).shallow
  | @decided name escaped source number =>
    refine .seq (.cons (.statement _) ?_)
    refine .suite (endsWith_append _ rfl) (.attr name (.static name)) ?_
    refine .suite (endsWith_append _ rfl) (.seq .nil) ?_
    exact .suite (by decide) (.attr name ((Shaped.dynamic _).escape escaped)) .nil
  | joined name delimiter number captures =>
    refine .seq (.append (.of_forall fun c mem => ?_) (.cons (.statement _) ?_))
    · obtain ⟨number, stated, _⟩ := captures c mem
      exact .capture _ stated.shaped
    · exact .suite (endsWith_append _ rfl) (.attr name ((Shaped.dynamic _).escape false)) .nil

end Merged

theorem mergedList_mergeList (o : Options) (used : Nat) {entries : List Node}
    (each : StatedList entries) :
    ∃ r, Attribute.mergeList o used entries = .ok r ∧ MergedList r.1 := by
  obtain ⟨r, merged, each⟩ := Attribute.mergeList_merges o used each
  exact ⟨r, merged, fun e mem => shaped_merges (each e mem)⟩

variable {is : List Item} {n : Node}

/-- What an attribute list gives after merging was left open before. -/
theorem LowersList.of_merged {entries entries' : List Node} (each : MergedList entries')
    (lowers : LowersList .merged entries' is) : LowersList .read entries is := by
  cases lowers with
  | read read => nomatch read
  | merged _ lowers => exact .read rfl ((ShapedAll.of_forall each).items is lowers)

theorem becomes_attributed (o : Options) (attached : Attached false (StatedList) n) (used : Nat) :
    Yields (fun r => Becomes .read .merged MergedList n r.1) (fun _ => True)
    (n.attributed o used) := by
  have leads : Phase.LeadsTo .read .merged := nofun
  induction attached generalizing used with
  | @leaf l known =>
    cases l with
    | unknown => exact absurd rfl known
    | _ => exact .leaf leads nofun
  | frame other nested _ ih =>
    exact (ih used).bind fun _ becomes => .frame leads other nested becomes
  | embedded blocks => nomatch blocks
  | seq chain _ ih =>
    rw [attributed, attributedAll_eq]
    exact (Yields.thread ih used).bind fun _ each => .seq chain each
  | closed entries =>
    obtain ⟨r, merged, each⟩ := mergedList_mergeList o used entries
    rw [attributed, merged]
    exact .closed each fun _ => .of_merged each
  | tag entries nested _ ih =>
    obtain ⟨r, merged, each⟩ := mergedList_mergeList o used entries
    rw [attributed, merged]
    exact (ih r.2).bind fun _ becomes => .tag each (fun _ => .of_merged each) nested becomes

/-! ## Markup as text -/

section Texts

variable {phase : Phase} {list : List Node → Prop}

theorem chained_texts (texts : List Text) {ns : List Node} (chain : chained ns) :
    chained (texts.map static ++ ns) := by
  refine chained_append (chained_of_forall fun n mem => ?_) chain
  obtain ⟨_, _, rfl⟩ := mem_map.mp mem
  rfl

theorem attached_texts (texts : List Text) : ∀ n ∈ texts.map static, Attached false list n := by
  intro n mem
  obtain ⟨_, _, rfl⟩ := mem_map.mp mem
  exact .leaf nofun

variable {texts : List Text} {is : List Item}

theorem exists_of_lowers_texts (lowers : LowersAll phase (texts.map static) is) :
    ∃ text, is = Item.ofText text := by
  induction texts generalizing is with
  | nil =>
    cases lowers
    exact ⟨[], rfl⟩
  | cons text texts ih =>
    cases lowers with
    | cons first rest =>
      obtain ⟨behind, rfl⟩ := ih rest
      cases first with
      | leaf gives =>
        cases gives with
        | @static _ text' => exact ⟨text' ++ behind, by simp [Item.ofText]⟩

theorem exists_of_lowers_behind {n : Node} {ns : List Node} (other : n.isBlock = false)
    (chain : chained ns) (lowers : LowersAll phase (texts.map static ++ n :: ns) is) :
    ∃ start js ks, is = Item.ofText start ++ (js ++ ks) ∧ Lowers phase n js ∧
    LowersAll phase ns ks := by
  obtain ⟨_, _, rfl, front, rest⟩ := lowers.of_append (chained_cons other chain)
  obtain ⟨start, rfl⟩ := exists_of_lowers_texts front
  obtain ⟨js, ks, rfl, here, behind⟩ := rest.of_cons chain
  exact ⟨start, js, ks, rfl, here, behind⟩

theorem exists_breakNodes (wanted : Bool) (indent : Nat) (place : Markup.Place)
    (s : Markup.Progress) :
    ∃ texts : List Text, (breakNodes wanted indent place s).1 = texts.map static := by
  unfold breakNodes
  split
  · exact ⟨[_], rfl⟩
  · exact ⟨[], rfl⟩

end Texts

section Markup

variable {inner inner' : Node} (becomes : Becomes .merged .merged NoTags inner inner')
  (nested : inner.isBlock = false)

include becomes nested

theorem Becomes.around {f : Frame}
    (wraps : ∀ start stop is, f.Wraps .merged is (Item.ofText start ++ is ++ Item.ofText stop))
    (texts texts' : List Text) {ns : List Node}
    (same : ns = texts.map static ++ inner' :: texts'.map static) :
    Becomes .merged .merged NoTags (.frame f inner) (.seq ns) := by
  subst same
  have closed : inner'.isBlock = false := becomes.isBlock.trans nested
  have chain : chained (texts'.map static) := by
    simpa using chained_texts texts' (rfl : chained [])
  have noBlock : f ≠ .block := by
    rintro rfl
    nomatch wraps [] [] []
  refine ⟨?_, ?_, nofun, ?_, ?_⟩
  · refine .seq (chained_texts texts (chained_cons closed chain)) ?_
    simp only [forall_mem_append, forall_mem_cons]
    exact ⟨attached_texts texts, becomes.attached, attached_texts texts'⟩
  · cases f with
    | block => exact absurd rfl noBlock
    | _ => rfl
  · rintro body body' ⟨⟩
    exact absurd rfl noBlock
  · intro is lowers
    cases lowers with
    | seq lowers =>
      obtain ⟨start, js, ks, rfl, inside, behind⟩ := exists_of_lowers_behind closed chain lowers
      obtain ⟨stop, rfl⟩ := exists_of_lowers_texts behind
      rw [← append_assoc]
      exact .frame (becomes.lowers js inside) (wraps start stop js)

variable {name : Text} {entries entries' : List Node}

theorem Becomes.element (lists : Becomes .merged .merged NoTags (.seq entries) (.seq entries'))
    (texts texts' texts'' : List Text) {ns : List Node}
    (same : ns = texts.map static ++ .seq entries' ::
      (texts'.map static ++ inner' :: texts''.map static)) :
    Becomes .merged .merged NoTags (.tag name entries (some inner)) (.seq ns) := by
  subst same
  have closed : inner'.isBlock = false := becomes.isBlock.trans nested
  have chain : chained (texts''.map static) := by
    simpa using chained_texts texts'' (rfl : chained [])
  have chain' := chained_texts texts' (chained_cons closed chain)
  refine ⟨?_, rfl, nofun, nofun, ?_⟩
  · refine .seq (chained_texts texts (chained_cons rfl chain')) ?_
    simp only [forall_mem_append, forall_mem_cons]
    exact ⟨attached_texts texts, lists.attached, attached_texts texts', becomes.attached,
      attached_texts texts''⟩
  · intro is lowers
    cases lowers with
    | seq lowers =>
      obtain ⟨start, js, ks, rfl, attributes, behind⟩ := exists_of_lowers_behind rfl chain' lowers
      obtain ⟨middle, ks, ls, rfl, inside, behind⟩ := exists_of_lowers_behind closed chain behind
      obtain ⟨stop, rfl⟩ := exists_of_lowers_texts behind
      cases lists.lowers js attributes with
      | seq attributes =>
        simp only [← append_assoc]
        exact .tag start middle stop (.merged nofun attributes) (becomes.lowers ks inside)

omit becomes nested in
theorem Becomes.empty (lists : Becomes .merged .merged NoTags (.seq entries) (.seq entries'))
    (texts texts' : List Text) {ns : List Node}
    (same : ns = texts.map static ++ .seq entries' :: texts'.map static) :
    Becomes .merged .merged NoTags (.tag name entries none) (.seq ns) := by
  subst same
  have chain : chained (texts'.map static) := by
    simpa using chained_texts texts' (rfl : chained [])
  refine ⟨?_, rfl, nofun, nofun, ?_⟩
  · refine .seq (chained_texts texts (chained_cons rfl chain)) ?_
    simp only [forall_mem_append, forall_mem_cons]
    exact ⟨attached_texts texts, lists.attached, attached_texts texts'⟩
  · intro is lowers
    cases lowers with
    | seq lowers =>
      obtain ⟨start, js, ks, rfl, attributes, behind⟩ := exists_of_lowers_behind rfl chain lowers
      obtain ⟨stop, rfl⟩ := exists_of_lowers_texts behind
      cases lists.lowers js attributes with
      | seq attributes =>
        rw [← append_assoc]
        exact .closed start stop (.merged nofun attributes)

omit becomes nested in
theorem Becomes.doctype (kind : Text) (texts : List Text) {ns : List Node}
    (same : ns = texts.map static) : Becomes .merged .merged NoTags (.doctype kind) (.seq ns) := by
  subst same
  refine ⟨?_, rfl, nofun, nofun, ?_⟩
  · refine .seq ?_ (attached_texts texts)
    simpa using chained_texts texts (rfl : chained [])
  · intro is lowers
    cases lowers with
    | seq lowers =>
      obtain ⟨text, rfl⟩ := exists_of_lowers_texts lowers
      exact .leaf (.doctype kind text)

theorem Becomes.trimmed (side : Trim) :
    Becomes .merged .merged NoTags (.frame (.trim side) inner) inner' :=
  ⟨becomes.attached, becomes.isBlock.trans nested, nofun, nofun,
    fun is lowers => .frame (becomes.lowers is lowers) (.trim side is)⟩

end Markup

theorem becomes_markup_of (o : Options) {list : List Node → Prop}
    (lists : ∀ entries, list entries → chained entries ∧ ∀ e ∈ entries, ∀ place s,
      Yields (fun r => Becomes .merged .merged NoTags e r.1) (fun _ => True) (e.markup o place s))
    (attached : Attached false list n) (place : Markup.Place) (s : Markup.Progress) :
    Yields (fun r => Becomes .merged .merged NoTags n r.1) (fun _ => True)
    (n.markup o place s) := by
  have still : Phase.LeadsTo .merged .merged := nofun
  have entries {entries : List Node} (good : list entries) (place : Markup.Place)
    (s : Markup.Progress) :
      Yields (fun r => Becomes .merged .merged NoTags (.seq entries) (.seq r.1)) (fun _ => True)
        (markupAll o place s entries) := by
    obtain ⟨chain, each⟩ := lists entries good
    rw [markupAll_eq]
    exact (Yields.thread (fun e mem => each e mem place) s).imp fun _ => .seq chain
  induction attached generalizing place s with
  | @leaf l known =>
    cases l with
    | unknown => exact absurd rfl known
    | doctype kind =>
      rw [markup]
      obtain ⟨texts, same⟩ := exists_breakNodes place.pretty o.indent place s
      generalize breakNodes place.pretty o.indent place s = broken at same
      split
      · trivial
      next declaration _ => exact .doctype kind (texts ++ [declaration]) (by simp [same])
    | trim side =>
      refine ⟨.seq rfl (forall_mem_nil _), rfl, by rintro _ ⟨⟩, by rintro _ _ ⟨⟩,
        fun is lowers => ?_⟩
      cases lowers with
      | seq lowers =>
        cases lowers
        exact .leaf (.trim side)
    | _ => exact .leaf still known
  | @frame f inner other nested _ ih =>
    cases f with
    | attr name =>
      exact (ih place s).bind fun _ becomes => becomes.around nested (.attr name) [_] [_] rfl
    | shortcut name =>
      exact (ih place s).bind fun _ becomes => becomes.around nested (.shortcut name) [_] [_] rfl
    | comment =>
      rw [markup]
      obtain ⟨texts, same⟩ := exists_breakNodes place.pretty o.indent place s
      generalize breakNodes place.pretty o.indent place s = broken at same
      exact (ih place _).bind fun _ becomes =>
        becomes.around nested .comment (texts ++ ["<!--".toList]) ["-->".toList] (by simp [same])
    | condComment condition =>
      rw [markup]
      obtain ⟨texts, same⟩ := exists_breakNodes place.pretty o.indent place s
      generalize breakNodes place.pretty o.indent place s = broken at same
      exact (ih place.deeper _).bind fun _ becomes =>
        becomes.around nested (.condComment condition)
          (texts ++ ["<!--[".toList ++ condition ++ "]>".toList])
          ["<![endif]-->".toList] (by simp [same])
    | trim side =>
      exact (ih place (s.trimming side)).imp fun _ becomes => becomes.trimmed nested side
    | embedded name => exact absurd rfl (other name)
    | _ => exact (ih place s).bind fun _ becomes => .frame still other nested becomes
  | embedded blocks => cases blocks
  | seq chain _ ih =>
    rw [markup, markupAll_eq]
    exact (Yields.thread (fun n mem => ih n mem place) s).bind fun _ each => .seq chain each
  | @closed name _ good =>
    rw [markup]
    generalize broken : breakNodes _ o.indent place _ = start
    obtain ⟨texts, same⟩ := broken ▸ exists_breakNodes _ o.indent place _
    obtain ⟨start, s⟩ := start
    cases same
    exact (entries good place s.written).bind fun _ inside =>
      .empty inside (texts ++ ["<".toList ++ name]) [emptyEnd o.format] (by simp)
  | @tag name _ _ good nested _ ih =>
    rw [markup]
    generalize broken : breakNodes _ o.indent place _ = start
    obtain ⟨texts, same⟩ := broken ▸ exists_breakNodes _ o.indent place _
    obtain ⟨start, s⟩ := start
    cases same
    refine (entries good place s.written).bind fun _ inside => ?_
    simp only
    split
    · exact (ih place _).bind fun _ becomes =>
        becomes.element nested inside (texts ++ ["<".toList ++ name]) [emptyEnd o.format] []
          (by simp)
    · refine (ih _ _).bind ?_
      rintro ⟨body', s⟩ becomes
      generalize closing : breakNodes _ o.indent place s = close
      obtain ⟨texts', same⟩ := closing ▸ exists_breakNodes _ o.indent place s
      obtain ⟨close, s⟩ := close
      cases same
      exact becomes.element nested inside (texts ++ ["<".toList ++ name]) [">".toList]
        (texts' ++ ["</".toList ++ name ++ ">".toList]) (by simp)

theorem becomes_markup (o : Options) (attached : Attached false MergedList n) (place : Markup.Place)
    (s : Markup.Progress) :
    Yields (fun r => Becomes .merged .merged NoTags n r.1) (fun _ => True)
    (n.markup o place s) := by
  refine becomes_markup_of o (fun entries merged => ⟨?_, fun e mem => ?_⟩) attached place s
  · exact chained_of_forall fun e mem => (merged e mem).isBlock
  · exact becomes_markup_of o nofun (merged e mem).attached

/-! ## Escaping -/

theorem Becomes.escapedStatic (on? : Option Bool) (text : Text) :
    Becomes .merged .escaped NoTags (.static text) (.static (escapedText on? text)) := by
  refine ⟨.leaf nofun, rfl, nofun, nofun, fun is lowers => ?_⟩
  cases lowers with
  | leaf gives =>
    cases gives with
    | static puts =>
      obtain rfl | ⟨other, _⟩ := puts
      · refine .leaf (.static ?_)
        unfold escapedText
        split
        · exact .inr ⟨nofun, rfl⟩
        · exact .inl rfl
      · exact absurd rfl other

theorem Becomes.escapedDynamic (byDefault : Bool) (on? : Option Bool) (source : Text) :
    Becomes .merged .escaped NoTags (.dynamic source)
    (.dynamic (escapedCode byDefault on? source)) := by
  refine ⟨.leaf nofun, rfl, nofun, nofun, fun is lowers => ?_⟩
  cases lowers with
  | leaf gives =>
    cases gives with
    | dynamic evaluates =>
      obtain rfl | ⟨other, _⟩ := evaluates
      · refine .leaf (.dynamic ?_)
        unfold escapedCode
        split
        · exact .inr ⟨nofun, rfl⟩
        · exact .inl rfl
      · exact absurd rfl other

theorem becomes_escaped (byDefault : Bool) (attached : Attached false NoTags n)
    (on? : Option Bool) :
    Yields (Becomes .merged .escaped NoTags n) (fun _ => True) (n.escaped byDefault on?) := by
  have leads : Phase.LeadsTo .merged .escaped := nofun
  induction attached generalizing on? with
  | @leaf l known =>
    cases l with
    | unknown => exact absurd rfl known
    | static text => exact .escapedStatic on? text
    | dynamic source => exact .escapedDynamic byDefault on? source
    | _ => exact .leaf leads nofun
  | @frame f inner other nested _ ih =>
    cases f with
    | escape on =>
      refine (ih (some on)).imp fun inner' becomes => ?_
      exact ⟨becomes.attached, becomes.isBlock.trans nested, nofun, nofun,
        fun is lowers => .frame (becomes.lowers is lowers) (.escape on is)⟩
    | capture name => exact (ih none).bind fun _ becomes => .frame leads nofun nested becomes
    | embedded name => exact absurd rfl (other name)
    | _ => exact (ih on?).bind fun _ becomes => .frame leads nofun nested becomes
  | embedded blocks => nomatch blocks
  | seq chain _ ih =>
    rw [escaped, escapedAll_eq]
    exact (Yields.mapM fun n mem => ih n mem on?).bind fun _ each => .seq chain each
  | closed no | tag no => exact no.elim

/-! ## Flat trees -/

section Flat

variable {phase : Phase} {list : List Node → Prop}

/-- The children of a sequence stand in its place, and none of them is separated from the next. -/
theorem spliced_all : ∀ {ns : List Node}, chained ns → (∀ n ∈ ns, Attached false list n) →
    chained (ns.flatMap spliced) ∧ (∀ n ∈ ns.flatMap spliced, Attached false list n) ∧
      ∀ is, LowersAll phase (ns.flatMap spliced) is → LowersAll phase ns is
  | [], _, _ => ⟨rfl, nofun, fun _ lowers => lowers⟩
  | n :: ns, chain, each => by
    rcases chained_cases chain with ⟨header, body, rest, rfl, rfl, ends, chain⟩ | ⟨other, chain⟩
    · simp only [forall_mem_cons] at each
      obtain ⟨first, second, each⟩ := each
      obtain ⟨chain, attached, lowers⟩ := spliced_all chain each
      refine ⟨?_, ?_, ?_⟩
      · show (Text.endsWith ':' header && chained (rest.flatMap spliced)) = true
        rw [ends, chain]
        rfl
      · exact forall_mem_cons.mpr ⟨first, forall_mem_cons.mpr ⟨second, attached⟩⟩
      · intro is below
        obtain ⟨js, ks, rfl, inside, behind⟩ := LowersAll.of_suite below
        exact .suite inside (lowers ks behind)
    · rw [forall_mem_cons] at each
      obtain ⟨chain, attached, lowers⟩ := spliced_all chain each.2
      have here : chained n.spliced ∧ (∀ m ∈ n.spliced, Attached false list m) ∧
          ∀ is, LowersAll phase n.spliced is → Lowers phase n is := by
        unfold spliced
        split
        next children =>
          cases each.1 with
          | seq chain each => exact ⟨chain, each, fun _ => .seq⟩
        next =>
          exact ⟨chained_cons other rfl, forall_mem_singleton.mpr each.1,
            fun _ => LowersAll.of_singleton⟩
      rw [flatMap_cons]
      refine ⟨chained_append here.1 chain, forall_mem_append.mpr ⟨here.2.1, attached⟩,
        fun is below => ?_⟩
      obtain ⟨js, ks, rfl, first, behind⟩ := below.of_append chain
      exact .cons (here.2.2 js first) (lowers ks behind)

end Flat

theorem becomes_flattened (attached : Attached false NoTags n) :
    Yields (Becomes .escaped .escaped NoTags n) (fun _ => True) n.flattened := by
  have still : Phase.LeadsTo .escaped .escaped := id
  induction attached with
  | @leaf l known =>
    cases l with
    | unknown => exact absurd rfl known
    | _ => exact .leaf still known
  | frame other nested _ ih => exact ih.bind fun _ becomes => .frame still other nested becomes
  | embedded blocks => cases blocks
  | seq chain _ ih =>
    rw [flattened, flattenedAll_eq]
    refine (Yields.mapM ih).bind fun ns each => ?_
    obtain ⟨chain, attached, lowers⟩ := Becomes.all chain each
    obtain ⟨chain, attached, flat⟩ := spliced_all chain attached
    refine ⟨.seq chain attached, rfl, by rintro _ ⟨⟩, by rintro _ _ ⟨⟩, fun is below => ?_⟩
    cases below with
    | seq below => exact .seq (lowers is (flat is below))
  | closed no | tag no => exact no.elim

/-! ## Joined texts -/

/-- The children of a sequence behind a run give the text of the run and then their items. -/
structure Joins (r : Run) (ns ns' : List Node) : Prop where
  chain : chained ns'
  attached : ∀ n ∈ ns', Attached false NoTags n
  lowers : ∀ is, LowersAll .escaped ns' is → ∃ js, is = Item.ofText (r.text?.getD []) ++ js ∧
    LowersAll .escaped ns js

theorem lowers_static {text : Text} (lowers : Lowers .escaped (.static text) is) :
    is = Item.ofText text := by
  cases lowers with
  | leaf gives =>
    cases gives with
    | static puts =>
      obtain rfl | ⟨other, _⟩ := puts
      · rfl
      · exact absurd rfl other

theorem lowers_marks {marks : Nat}
    (lowers : LowersAll .escaped (List.replicate marks .newline) is) : is = [] := by
  induction marks generalizing is with
  | zero =>
    cases lowers
    rfl
  | succ marks ih =>
    rw [replicate_succ] at lowers
    cases lowers with
    | cons first rest =>
      rw [ih rest]
      cases first with
      | leaf gives =>
        cases gives
        rfl

theorem joins_nil (r : Run) : Joins r [] r.nodes := by
  have plain : ∀ n ∈ r.nodes, n.isBlock = false ∧ Attached false NoTags n := by
    intro n mem
    unfold Run.nodes at mem
    rcases mem_append.mp mem with text | mark
    · split at text
      · nomatch text
      · nomatch text
      · rw [mem_singleton.mp text]
        exact ⟨rfl, .leaf nofun⟩
    · rw [eq_of_mem_replicate mark]
      exact ⟨rfl, .leaf nofun⟩
  have chain : chained (List.replicate r.marks .newline) := by
    refine chained_of_forall fun n mem => ?_
    rw [eq_of_mem_replicate mem]
    rfl
  refine ⟨chained_of_forall fun n mem => (plain n mem).1, fun n mem => (plain n mem).2,
    fun is lowers => ?_⟩
  obtain ⟨text?, marks⟩ := r
  obtain ⟨js, ks, rfl, text, behind⟩ := LowersAll.of_append chain lowers
  rw [lowers_marks behind]
  refine ⟨[], ?_, .nil⟩
  simp only at text
  split at text
  · cases text
    rfl
  · cases text
    rfl
  · rw [lowers_static text.of_singleton]
    rfl

section Joins

variable {r : Run} {ns ns' : List Node} (rest : Joins {} ns ns')

include rest

theorem Joins.behind (front : List Node) {front' : List Node} (chain : chained (front' ++ ns'))
    (attached : ∀ n ∈ front', Attached false NoTags n)
    (lowers : ∀ is, LowersAll .escaped (front' ++ ns') is → LowersAll .escaped (front ++ ns) is) :
    Joins r (front ++ ns) (r.nodes ++ (front' ++ ns')) where
  chain := chained_append (joins_nil r).chain chain
  attached :=
    forall_mem_append.mpr ⟨(joins_nil r).attached, forall_mem_append.mpr ⟨attached, rest.attached⟩⟩
  lowers := by
    intro is below
    obtain ⟨js, ks, rfl, run, behind⟩ := below.of_append chain
    obtain ⟨js, rfl, empty⟩ := (joins_nil r).lowers js run
    cases empty
    rw [append_nil]
    exact ⟨ks, rfl, lowers ks behind⟩

theorem Joins.cons {n n' : Node} (other : n.isBlock = false)
    (here : Becomes .escaped .escaped NoTags n n') : Joins r (n :: ns) (r.nodes ++ n' :: ns') := by
  have chain : chained ([n'] ++ ns') := chained_cons (here.isBlock.trans other) rest.chain
  refine rest.behind [n] chain ?_ ?_
  · exact forall_mem_singleton.mpr here.attached
  · intro is below
    obtain ⟨js, ks, rfl, first, behind⟩ := LowersAll.of_cons below rest.chain
    obtain ⟨ks, rfl, behind⟩ := rest.lowers ks behind
    exact .cons (here.lowers js first) behind

theorem Joins.suite {header : Text} {body body' : Node} (ends : Text.endsWith ':' header)
    (here : Becomes .escaped .escaped NoTags (.block body) (.block body')) :
    Joins r (.code header :: .block body :: ns)
    (r.nodes ++ .code header :: .block body' :: ns') := by
  have chain : chained ([.code header, .block body'] ++ ns') := by
    show (Text.endsWith ':' header && chained ns') = true
    rw [ends, rest.chain]
    rfl
  refine rest.behind [.code header, .block body] chain ?_ ?_
  · exact forall_mem_cons.mpr ⟨.leaf nofun, forall_mem_singleton.mpr here.attached⟩
  · intro is below
    obtain ⟨js, ks, rfl, inside, behind⟩ := LowersAll.of_suite below
    obtain ⟨ks, rfl, behind⟩ := rest.lowers ks behind
    exact .suite (here.inside body body' rfl rfl js inside) behind

end Joins

/-- Texts are joined up to the next node that is neither text nor line mark, and a statement with
its block is two such nodes with nothing in between. -/
theorem joins_joinedSeq : ∀ {ns : List Node}, chained ns →
    (∀ n ∈ ns, Yields (Becomes .escaped .escaped NoTags n) (fun _ => True) n.joined) →
    ∀ r : Run, Yields (Joins r ns) (fun _ => True) (joinedSeq r ns)
  | [], _, _, r => joins_nil r
  | n :: ns, chain, each, r => by
    rcases chained_cases chain with ⟨header, body, rest, rfl, rfl, ends, chain⟩ | ⟨other, chain⟩
    · simp only [forall_mem_cons] at each
      obtain ⟨_, block, each⟩ := each
      have behind := joins_joinedSeq chain each {}
      have block : Yields (fun ms => ∃ body' ns', ms = .block body' :: ns' ∧
          Becomes .escaped .escaped NoTags (.block body) (.block body') ∧ Joins {} rest ns')
            (fun _ => True)
          (joinedSeq {} (.block body :: rest)) := by
        rw [joinedSeq_of_breaks rfl]
        refine block.bind fun block' becomes => behind.bind fun ns' joins => ?_
        obtain ⟨body', rfl⟩ := exists_of_isBlock becomes.isBlock
        exact ⟨body', ns', rfl, becomes, joins⟩
      rw [joinedSeq_of_breaks rfl]
      refine block.bind ?_
      rintro _ ⟨body', ns', rfl, becomes, joins⟩
      exact joins.suite ends becomes
    · rw [forall_mem_cons] at each
      have behind := joins_joinedSeq chain each.2
      by_cases breaks : n.breaksRun
      · rw [joinedSeq_of_breaks breaks]
        exact each.1.bind fun n' becomes => (behind {}).bind fun ns' joins =>
          joins.cons other becomes
      · unfold breaksRun at breaks
        split at breaks
        next text =>
          refine (behind (r.addText text)).imp fun ns' joins =>
            ⟨joins.chain, joins.attached, fun is below => ?_⟩
          obtain ⟨js, rfl, lowers⟩ := joins.lowers is below
          refine ⟨Item.ofText text ++ js, ?_, .cons (.leaf (.static (.inl rfl))) lowers⟩
          simp [Run.addText, Item.ofText]
        next =>
          rw [joinedSeq]
          split
          · refine (behind _).imp fun ns' joins => ⟨joins.chain, joins.attached, fun is below => ?_⟩
            obtain ⟨js, rfl, lowers⟩ := joins.lowers is below
            exact ⟨js, rfl, .cons (.leaf .newline) lowers⟩
          · exact (behind {}).bind fun ns' joins => joins.cons rfl (.leaf id (by simp))
        next => exact absurd rfl breaks

theorem becomes_joined (attached : Attached false NoTags n) :
    Yields (Becomes .escaped .escaped NoTags n) (fun _ => True) n.joined := by
  have still : Phase.LeadsTo .escaped .escaped := id
  induction attached with
  | @leaf l known =>
    cases l with
    | unknown => exact absurd rfl known
    | _ => exact .leaf still nofun
  | frame other nested _ ih => exact ih.bind fun _ becomes => .frame still other nested becomes
  | embedded blocks => nomatch blocks
  | seq chain _ ih =>
    rw [joined]
    refine (joins_joinedSeq chain ih {}).bind fun ns' joins => ?_
    refine ⟨.seq joins.chain joins.attached, rfl, nofun, nofun, fun is below => ?_⟩
    cases below with
    | seq below =>
      obtain ⟨js, rfl, lowers⟩ := joins.lowers is below
      exact .seq lowers
  | closed no | tag no => exact no.elim

/-! ## Core nodes -/

theorem lowers_itemsOf : ∀ {ns : List Node}, chained ns →
    (∀ n ∈ ns, (n.isBlock = false → Lowers .escaped n n.items) ∧
      ∀ body, n = .block body → Lowers .escaped body body.items) →
    LowersAll .escaped ns (itemsOf ns)
  | [], _, _ => .nil
  | n :: ns, chain, each => by
    rcases chained_cases chain with ⟨header, body, rest, rfl, rfl, ends, chain⟩ | ⟨other, chain⟩
    · simp only [forall_mem_cons] at each
      rw [itemsOf_suite]
      exact .suite (each.2.1.2 body rfl) (lowers_itemsOf chain each.2.2)
    · rw [forall_mem_cons] at each
      rw [itemsOf_cons n chain]
      exact .cons (each.1.1 other) (lowers_itemsOf chain each.2)

theorem lowers_items {list : List Node → Prop} (core : IsCore n)
    (attached : Attached false list n) :
    (n.isBlock = false → Lowers .escaped n n.items) ∧ ∀ body, n = .block body →
    Lowers .escaped body body.items := by
  induction core with
  | newline => exact ⟨fun _ => .leaf .newline, nofun⟩
  | static text => exact ⟨fun _ => .leaf (.static (.inl rfl)), nofun⟩
  | dynamic source => exact ⟨fun _ => .leaf (.dynamic (.inl rfl)), nofun⟩
  | code source => exact ⟨fun _ => .leaf (.code source), nofun⟩
  | block _ ih =>
    obtain ⟨nested, attached⟩ := attached.of_frame
    refine ⟨nofun, ?_⟩
    rintro body ⟨⟩
    exact (ih attached).1 nested
  | capture name _ ih =>
    obtain ⟨nested, attached⟩ := attached.of_frame
    exact ⟨fun _ => .frame ((ih attached).1 nested) (.capture name _), nofun⟩
  | seq _ ih =>
    cases attached with
    | seq chain each =>
      exact ⟨fun _ => .seq (lowers_itemsOf chain fun n mem => ih n mem (each n mem)), nofun⟩

end MarkupTemplate.Node
