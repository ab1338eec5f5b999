import MarkupTemplate.Proofs.Attribute.Lists

/-!
# Merged attributes

`Merges` says what can stand for attributes whose values have some property, and every list of
attributes becomes such nodes (`mergeList_merges`). Each statement among them is on one line.
-/

namespace MarkupTemplate

open List
open Text (quote feed_not_mem_append)

open Node (Kinds Place Fits Keeps extentOf)

namespace Attribute

/-! ## What stands for attributes -/

section Merges

variable {holds : Node → Prop}

/-- The code that stands for a value where values are joined. -/
inductive IsPart (holds : Node → Prop) : Text → Prop where
  | text (text : Text) : IsPart holds ("_hamlc_markup(" ++ quote text ++ ")")
  | code {escaped : Bool} {source : Text} :
    holds (.value escaped source) → IsPart holds ("(" ++ source ++ ")")
  | captured (number : Nat) : IsPart holds (tempName number)

/-- The capture of a value that is no code. -/
inductive IsCapture (holds : Node → Prop) : Node → Prop where
  | value (number : Nat) {v : Node} :
    holds v → (∀ escaped source, v ≠ .value escaped source) →
    IsCapture holds (.capture (tempName number) v)

/-- A node that merging can put in the place of attributes whose values have a property. -/
inductive Merges (holds : Node → Prop) : Node → Prop where
  | nothing : Merges holds (.seq [])
  | text (name text : Text) : Merges holds (.attr name (.static text))
  | value (name : Text) {v : Node} :
    holds v → (∀ escaped source, v ≠ .value escaped source) → Merges holds (.attr name v)
  | decided (name : Text) {escaped : Bool} {source : Text} (number : Nat) :
    holds (.value escaped source) → Merges holds (decided name escaped source (tempName number))
  | joined (name delimiter : Text) (number : Nat) {captures : List Node} {parts : List Text} :
    (∀ c ∈ captures, IsCapture holds c) → (∀ part ∈ parts, IsPart holds part) →
    Merges holds (.seq (captures ++ [
      .code (joinStatement (tempName number) delimiter parts),
      .code ("if " ++ tempName number ++ ":"),
      .block (.attr name (.escape false (.dynamic (tempName number))))]))

theorem merges_single (name : Text) (used : Nat) {v : Node} (here : holds v) :
    Merges holds (single name used v).1 := by
  unfold single
  split
  next escaped source =>
    simp only
    split
    · exact .text name name
    · split
      · exact .nothing
      · exact .decided name (used + 1) here
  next noCode => exact .value name here noCode

variable {values : List Node}

theorem merges_singles (name : Text) (used : Nat) (each : ∀ v ∈ values, holds v) :
    ∀ n ∈ (singles name used values).1, Merges holds n := by
  induction values generalizing used with
  | nil => nofun
  | cons v values ih =>
    rw [forall_mem_cons] at each
    exact forall_mem_cons.mpr ⟨merges_single name used each.1, ih _ each.2⟩

theorem mergeParts_eq (used : Nat) (each : ∀ v ∈ values, holds v) :
    (∀ c ∈ (mergeParts used values).1, IsCapture holds c) ∧
      ∀ part ∈ (mergeParts used values).2.1, IsPart holds part := by
  induction values generalizing used with
  | nil => exact ⟨nofun, nofun⟩
  | cons v values ih =>
    rw [forall_mem_cons] at each
    have ih := fun used => ih used each.2
    simp only [mergeParts]
    split
    next text _ => exact ⟨(ih used).1, forall_mem_cons.mpr ⟨.text text, (ih used).2⟩⟩
    next => exact ⟨(ih used).1, forall_mem_cons.mpr ⟨.code each.1, (ih used).2⟩⟩
    next noCode _ =>
      exact ⟨forall_mem_cons.mpr ⟨.value (used + 1) each.1 noCode, (ih (used + 1)).1⟩,
        forall_mem_cons.mpr ⟨.captured (used + 1), (ih (used + 1)).2⟩⟩

theorem merges_merge (name delimiter : Text) (used : Nat) (each : ∀ v ∈ values, holds v) :
    Merges holds (merge name delimiter used values).1 := by
  unfold merge
  split
  · simp only
    split
    · exact .nothing
    · exact .text name _
  · obtain ⟨captures, parts⟩ := mergeParts_eq used each
    exact .joined name delimiter _ captures parts

theorem merges_mergeGroups (delimiter? : Text → Option Text) (used : Nat)
    {found : List (Text × List Node)}
    (each : ∀ group ∈ found, ∀ v ∈ group.2, holds v) :
    ∀ n ∈ (mergeGroups delimiter? used found).1, Merges holds n := by
  induction found generalizing used with
  | nil => nofun
  | cons group found ih =>
    obtain ⟨name, values⟩ := group
    rw [forall_mem_cons] at each
    simp only [mergeGroups]
    refine forall_mem_append.mpr ⟨?_, ih _ each.2⟩
    cases delimiter? name with
    | some delimiter => exact forall_mem_singleton.mpr (merges_merge name delimiter used each.1)
    | none => exact merges_singles name used each.1

theorem mergeList_merges (o : Options) (used : Nat) {entries : List Node}
    (each : ∀ e ∈ entries, IsEntryOf holds e) :
    ∃ r, mergeList o used entries = .ok r ∧ ∀ n ∈ r.1, Merges holds n := by
  obtain ⟨es, read, each⟩ := Entry.ofNodes_eq each
  refine ⟨mergeEntries o used es, by rw [mergeList, read]; rfl, ?_⟩
  refine merges_mergeGroups _ used ?_
  intro (name, values) found v inside
  obtain ⟨e, mem, _, rfl⟩ := mem_groups found inside
  exact each e mem

end Merges

/-! ## Lines -/

variable {format : Format}

/-- A node that stands for attributes: it takes up no lines. -/
def IsMerged (format : Format) (n : Node) : Prop :=
  Fits .merged format .tree n ∧ ∀ feed, n.extent feed = 0

theorem feed_not_mem_tempName (n : Nat) : '\n' ∉ tempName n :=
  feed_not_mem_append (by decide) (Text.feed_not_mem_ofNat n)

variable {v n : Node} {source temp : Text} {ns : List Node}

theorem fits_merged_of_inline {p : Place} (fits : Fits .stated format p v) (inline : p = .inline) :
    Fits .merged format .tree v := by
  induction fits with
  | @leaf p l nested allowed =>
    cases l with
    | _ => exact .leaf rfl allowed
  | @frame p f inner nested allowed _ ih =>
    cases f with
    | attr | shortcut => nomatch allowed
    | _ => exact .frame rfl allowed (ih inline)
  | seq nested _ ih => exact .seq rfl fun n mem => ih n mem inline
  | _ => nomatch inline

theorem isMerged_code (plain : '\n' ∉ source) : IsMerged format (.code source) :=
  ⟨.statement rfl source, fun feed => by
    simp [Leaf.extent, count_eq_zero_of_not_mem plain]⟩

theorem isMerged_seq (each : ∀ n ∈ ns, IsMerged format n) : IsMerged format (.seq ns) := by
  refine ⟨.seq rfl fun n mem => (each n mem).1, fun feed => ?_⟩
  rw [Node.extent_group]
  exact Node.extentOf_eq_zero feed fun n mem => (each n mem).2 feed

theorem isMerged_block (merged : IsMerged format n) : IsMerged format (.block n) :=
  ⟨.block rfl merged.1, fun feed => by simp [Frame.extent, merged.2 feed]⟩

theorem isMerged_attr (name : Text) (merged : IsMerged format n) : IsMerged format (.attr name n) :=
  ⟨.frame rfl rfl merged.1, fun feed => by simp [Frame.extent, merged.2 feed]⟩

theorem isMerged_static (text : Text) : IsMerged format (.static text) :=
  ⟨.static rfl text, fun _ => rfl⟩

theorem isMerged_output (escaped : Bool) (plain : '\n' ∉ source) :
    IsMerged format (.escape escaped (.dynamic source)) :=
  ⟨.frame rfl rfl (.dynamic rfl source), fun feed => by
    simp [Leaf.extent, Frame.extent, count_eq_zero_of_not_mem plain]⟩

theorem feed_not_mem_wordTest {keyword : Text} {words : List Text} (plain : '\n' ∉ keyword)
    (plainTemp : '\n' ∉ temp) : '\n' ∉ wordTest keyword temp words := by
  have quoted : '\n' ∉ Text.joinWith ", " (words.map quote) := by
    refine Text.feed_not_mem_joinWith (by decide) ?_
    intro part mem
    obtain ⟨word, _, rfl⟩ := mem_map.mp mem
    exact Text.feed_not_mem_quote word
  refine feed_not_mem_append (feed_not_mem_append (feed_not_mem_append
    (feed_not_mem_append (feed_not_mem_append plain ?_) plainTemp) ?_) quoted) ?_
  · decide
  · decide
  · decide

theorem isMerged_decided (name : Text) (escaped : Bool) (plain : '\n' ∉ source)
    (plainTemp : '\n' ∉ temp) : IsMerged format (decided name escaped source temp) := by
  refine isMerged_seq ?_
  intro n mem
  simp only [mem_cons, not_mem_nil, or_false] at mem
  rcases mem with rfl | rfl | rfl | rfl | rfl | rfl | rfl
  · exact isMerged_code (by simp [plain, plainTemp])
  · exact isMerged_code (feed_not_mem_wordTest (by decide) plainTemp)
  · exact isMerged_block (isMerged_attr name (isMerged_static name))
  · exact isMerged_code (feed_not_mem_wordTest (by decide) plainTemp)
  · exact isMerged_block (isMerged_seq nofun)
  · exact isMerged_code (by decide)
  · exact isMerged_block (isMerged_attr name (isMerged_output escaped plainTemp))

theorem isMerged_value (fits : Fits .stated format .value v)
    (noCode : ∀ escaped source, v ≠ .value escaped source) : IsMerged format v := by
  cases fits with
  | code => exact absurd rfl (noCode _ _)
  | known fits zero => exact ⟨fits_merged_of_inline fits rfl, zero⟩
  | leaf nested | frame nested | seq nested => nomatch nested

theorem isMerged_capture {c : Node} (capture : IsCapture (Fits .stated format .value) c) :
    IsMerged format c := by
  cases capture with
  | value number fits noCode =>
    obtain ⟨fits, zero⟩ := isMerged_value fits noCode
    refine ⟨.capture rfl (feed_not_mem_tempName _) fits, ?_⟩
    intro feed
    simp [Frame.extent, zero feed]

theorem feed_not_mem_part {part : Text} (is : IsPart (Fits .stated format .value) part) :
    '\n' ∉ part := by
  cases is with
  | text text =>
    exact feed_not_mem_append (feed_not_mem_append (by decide) (Text.feed_not_mem_quote text))
      (by decide)
  | code fits =>
    cases fits with
    | code plain => simp [plain]
    | known fits =>
      cases fits with
      | leaf _ allowed => nomatch allowed
    | leaf nested => nomatch nested
  | captured number => exact feed_not_mem_tempName number

theorem feed_not_mem_joinStatement {delimiter : Text} {parts : List Text} (plainTemp : '\n' ∉ temp)
    (each : ∀ part ∈ parts, '\n' ∉ part) : '\n' ∉ joinStatement temp delimiter parts := by
  refine feed_not_mem_append (feed_not_mem_append (feed_not_mem_append (feed_not_mem_append
    (feed_not_mem_append plainTemp ?_) (Text.feed_not_mem_quote delimiter)) ?_)
    (Text.feed_not_mem_joinWith ?_ each)) ?_
  · decide
  · decide
  · decide
  · decide

theorem isMerged_of_merges (merges : Merges (Fits .stated format .value) n) :
    IsMerged format n := by
  cases merges with
  | nothing => exact isMerged_seq nofun
  | text name text => exact isMerged_attr name (isMerged_static text)
  | value name fits noCode => exact isMerged_attr name (isMerged_value fits noCode)
  | decided name number fits =>
    cases fits with
    | code plain => exact isMerged_decided name _ plain (feed_not_mem_tempName number)
    | known fits =>
      cases fits with
      | leaf _ allowed => nomatch allowed
    | leaf nested => nomatch nested
  | joined name delimiter number captures parts =>
    have temp := feed_not_mem_tempName number
    refine isMerged_seq (forall_mem_append.mpr ⟨fun c mem => isMerged_capture (captures c mem), ?_⟩)
    simp only [forall_mem_cons]
    refine ⟨isMerged_code ?_, isMerged_code ?_, ?_, nofun⟩
    · exact feed_not_mem_joinStatement temp fun part mem => feed_not_mem_part (parts part mem)
    · exact feed_not_mem_append (feed_not_mem_append (by decide) temp) (by decide)
    · exact isMerged_block (isMerged_attr name (isMerged_output false temp))

theorem extentOf_merged (merged : ∀ n ∈ ns, IsMerged format n) (feed : Nat) :
    Node.extentOf feed ns = 0 :=
  Node.extentOf_eq_zero feed fun n mem => (merged n mem).2 feed

theorem mergeList_fits (o : Options) (used : Nat) {entries : List Node}
    (fits : ∀ e ∈ entries, Fits .stated format .entry e) :
    ∃ r, mergeList o used entries = .ok r ∧ ∀ n ∈ r.1, IsMerged format n := by
  simp only [fits_entry_iff] at fits
  obtain ⟨r, read, merges⟩ := mergeList_merges o used fits
  exact ⟨r, read, fun n mem => isMerged_of_merges (merges n mem)⟩

end Attribute

namespace Node

variable {format : Format}

theorem attributedAll_eq (o : Options) (used : Nat) (ns : List Node) :
    attributedAll o used ns = thread (attributed o) used ns := by
  induction ns generalizing used with
  | nil => rfl
  | cons n ns ih => simp only [attributedAll, thread, ih]

theorem attributed_keeps (o : Options) {p : Place} {n : Node} (fits : Fits .stated format p n)
    (top : p = .tree) (used : Nat) :
    Yields (fun r => Keeps .merged format .tree n r.1) (fun _ => False) (n.attributed o used) := by
  induction fits generalizing used with
  | @leaf p l nested allowed =>
    cases l with
    | unknown => nomatch allowed
    | _ => exact ⟨.leaf rfl allowed, fun _ => rfl⟩
  | @frame p f inner nested allowed _ ih =>
    have still : Kinds.frame .merged f := by
      cases f with
      | attr | shortcut => rfl
      | _ => exact allowed
    refine (ih top used).bind ?_
    intro (inner, used) kept
    exact ⟨.frame rfl still kept.fits, fun feed => by simp [kept.extent feed]⟩
  | seq nested _ ih =>
    rw [attributed, attributedAll_eq]
    refine (Yields.thread (fun n mem => ih n mem top) used).bind ?_
    intro (children, used) kept
    obtain ⟨fits, extent⟩ := Keeps.all kept
    exact ⟨.seq rfl fits, fun feed => by simp [extent feed]⟩
  | closed markup fits _ =>
    obtain ⟨r, read, fits'⟩ := Attribute.mergeList_fits o used fits
    rw [attributed, read]
    refine ⟨.closed markup fun n mem => (fits' n mem).1, fun feed => ?_⟩
    simp [Attribute.extentOf_entries fits feed, Attribute.extentOf_merged fits' feed]
  | tag markup fits _ _ ihBody =>
    obtain ⟨r, read, fits'⟩ := Attribute.mergeList_fits o used fits
    rw [attributed, read]
    refine (ihBody rfl r.2).bind ?_
    intro (body, used) kept
    refine ⟨.tag markup (fun n mem => (fits' n mem).1) kept.fits, fun feed => ?_⟩
    simp [Attribute.extentOf_entries fits feed, Attribute.extentOf_merged fits' feed,
      kept.extent feed]
  | _ => nomatch top

end Node

end MarkupTemplate
