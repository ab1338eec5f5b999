import MarkupTemplate.Proofs.Node.Expanded
import MarkupTemplate.Proofs.Outline.LineCount

/-!
# Which templates can be expanded

Reading a template refuses code that is not closed in lines of text, comments and tags, but not in
quoted texts of attributes. So a template without embedded blocks can be expanded exactly if its
quoted texts are closed (`interpolated_of_source`), and one that is not holds an opening brace
behind a backslash.
-/

namespace MarkupTemplate

open List
open Attribute (textEntry shortcutEntry escapedBrace)

open Interpolation (isClosed segments?)

/-! ## Quoted texts -/

namespace Node

/-- The text of an attribute that is given by a quoted text. -/
def quotedText? : Node → Option Text
  | .frame (.attr _) (.frame (.escape true) (.leaf (.interpolate text))) => some text
  | _ => none

def quotedTexts (n : Node) : List Text :=
  n.parts.filterMap quotedText?

def quotedTextsOf (ns : List Node) : List Text :=
  (partsOf ns).filterMap quotedText?

theorem quotedTextsOf_cons (n : Node) (ns : List Node) :
    quotedTextsOf (n :: ns) = n.quotedTexts ++ quotedTextsOf ns := by
  rw [quotedTextsOf, partsOf, filterMap_append]
  rfl

theorem quotedTexts_leaf (l : Leaf) : quotedTexts (.leaf l) = [] := by
  rw [quotedTexts, parts]
  rfl

theorem quotedTexts_frame {f : Frame} (other : ∀ name, f ≠ .attr name) (inner : Node) :
    quotedTexts (.frame f inner) = inner.quotedTexts := by
  have absent : quotedText? (.frame f inner) = none := by
    unfold quotedText?
    split
    next name _ same => exact absurd (Node.frame.inj same).1 (other name)
    next => rfl
  rw [quotedTexts, parts, filterMap_cons_none absent]
  rfl

theorem quotedTexts_group (g : Group) (children : List Node) :
    quotedTexts (.group g children) = quotedTextsOf children := by
  rw [quotedTexts, parts, filterMap_cons_none rfl]
  rfl

theorem quotedTexts_closed (name : Text) (entries : List Node) :
    quotedTexts (.tag name entries none) = quotedTextsOf entries := by
  rw [quotedTexts, parts, filterMap_cons_none rfl]
  rfl

theorem quotedTexts_tag (name : Text) (entries : List Node) (body : Node) :
    quotedTexts (.tag name entries (some body)) = quotedTextsOf entries ++ body.quotedTexts := by
  rw [quotedTexts, parts, filterMap_cons_none rfl, filterMap_append]
  rfl

theorem quotedTexts_textEntry (name text : Text) : quotedTexts (textEntry name text) = [text] := by
  simp [quotedTexts, textEntry, parts, quotedText?]

end Node

/-! ## Expanding -/

section Expands

variable {α β : Type} {texts texts' : List Text}

/-- A step succeeds exactly if the code in some texts is closed, and can fail in no other way. -/
def Expands (texts : List Text) : Except Failure α → Prop :=
  Yields (fun _ => ∀ text ∈ texts, isClosed text)
    fun failure => failure = .unclosedInterpolation ∧ ∃ text ∈ texts, ¬isClosed text

namespace Expands

theorem ok (a : α) : Expands [] (.ok a) :=
  nofun

theorem bind {x : Except Failure α} {f : α → Except Failure β} (first : Expands texts x)
    (next : ∀ a, Expands texts' (f a)) : Expands (texts ++ texts') (x >>= f) := by
  cases x with
  | error failure =>
    obtain ⟨unclosed, text, mem, here⟩ := first
    exact ⟨unclosed, text, mem_append_left _ mem, here⟩
  | ok a =>
    refine Yields.mono (next a) ?_ ?_
    · exact fun _ rest => forall_mem_append.mpr ⟨first, rest⟩
    · rintro failure ⟨unclosed, text, mem, here⟩
      exact ⟨unclosed, text, mem_append_right _ mem, here⟩

theorem bind_ok {x : Except Failure α} {f : α → β} (first : Expands texts x) :
    Expands texts (x >>= fun a => .ok (f a)) := by
  rw [← append_nil texts]
  exact first.bind fun a => .ok (f a)

theorem mapM {f : Node → Except Failure α} {ns : List Node}
    (each : ∀ n ∈ ns, Expands n.quotedTexts (f n)) :
    Expands (Node.quotedTextsOf ns) (ns.mapM f) := by
  induction ns with
  | nil => exact .ok []
  | cons n ns ih =>
    rw [forall_mem_cons] at each
    rw [mapM_cons, Node.quotedTextsOf_cons]
    exact each.1.bind fun m => (ih each.2).bind_ok

theorem text (text : Text) : Expands [text] (Node.ofInterpolated text) := by
  have closed : isClosed text = (segments? text).isSome := rfl
  unfold Node.ofInterpolated
  cases segments : segments? text with
  | none =>
    rw [segments] at closed
    exact ⟨rfl, text, mem_singleton_self text, by simp [closed]⟩
  | some found =>
    rw [segments] at closed
    exact forall_mem_singleton.mpr closed

theorem closedText {text : Text} (closed : isClosed text) :
    Expands [] (Node.ofInterpolated text) := by
  have expands := Expands.text text
  cases expanded : Node.ofInterpolated text with
  | ok n => exact .ok n
  | error failure =>
    rw [expanded] at expands
    obtain ⟨_, other, mem, unclosed⟩ := expands
    rw [mem_singleton.mp mem] at unclosed
    exact absurd closed unclosed

end Expands

end Expands

namespace Outline

theorem expands_entry {e : Node} (entry : Attribute.IsEntry e) :
    Expands e.quotedTexts e.interpolated := by
  cases entry with
  | @text name text =>
    rw [Node.quotedTexts_textEntry]
    exact (Expands.text text).bind_ok.bind_ok
  | code => exact .ok _
  | shortcut sign name =>
    unfold shortcutEntry
    split <;> exact .ok _

theorem expands_entries {entries : List Node} (each : ∀ e ∈ entries, Attribute.IsEntry e) :
    Expands (Node.quotedTextsOf entries) (Node.interpolatedAll entries) := by
  rw [Node.interpolatedAll_eq]
  exact .mapM fun e mem => expands_entry (each e mem)

theorem expands_leaf {format : Format} {l : Leaf} (read : l.isRead format) :
    Expands (Node.leaf l).quotedTexts (Node.leaf l).interpolated := by
  rw [Node.quotedTexts_leaf]
  cases l with
  | newline | static | doctype => exact .ok _
  | interpolate text => exact .closedText (Bool.and_eq_true_iff.mp read).1
  | _ => nomatch read

theorem expands_of_isRead {format : Format} {n : Node} (read : IsRead format n)
    (plain : ∀ m ∈ n.parts, ¬m.isEmbedded) : Expands n.quotedTexts n.interpolated := by
  induction read with
  | leaf read => exact expands_leaf read
  | frame read _ _ ih =>
    rw [Node.quotedTexts_frame (by rintro name rfl; nomatch read)]
    rw [Node.parts, forall_mem_cons] at plain
    exact (ih plain.2).bind_ok
  | embedded =>
    exact absurd rfl (plain _ (Node.mem_parts_self _))
  | seq _ ih =>
    rw [Node.quotedTexts_group]
    rw [Node.parts, forall_mem_cons] at plain
    rw [Node.interpolated, Node.interpolatedAll_eq]
    refine (Expands.mapM fun n mem => ih n mem fun m inside => ?_).bind_ok
    exact plain.2 m (Node.mem_partsOf.mpr ⟨n, mem, inside⟩)
  | closed entries =>
    rw [Node.quotedTexts_closed]
    exact (expands_entries entries).bind_ok
  | tag entries _ ih =>
    rw [Node.quotedTexts_tag]
    rw [Node.parts, forall_mem_cons, forall_mem_append] at plain
    exact (expands_entries entries).bind fun _ => (ih plain.2.2).bind_ok

/-! ## What quoted texts are left -/

theorem wasQuoted_entry {e : Node} (entry : Attribute.IsEntry e) :
    ∀ text ∈ e.quotedTexts, Attribute.WasQuoted text := by
  cases entry with
  | text _ quoted =>
    rw [Node.quotedTexts_textEntry]
    exact forall_mem_singleton.mpr quoted
  | code => nofun
  | shortcut sign name =>
    unfold shortcutEntry
    split <;> nofun

theorem forall_quotedTextsOf {property : Text → Prop} {ns : List Node}
    (each : ∀ n ∈ ns, ∀ text ∈ n.quotedTexts, property text) :
    ∀ text ∈ Node.quotedTextsOf ns, property text := by
  induction ns with
  | nil => nofun
  | cons n ns ih =>
    rw [forall_mem_cons] at each
    rw [Node.quotedTextsOf_cons]
    exact forall_mem_append.mpr ⟨each.1, ih each.2⟩

theorem quotedTexts_isTextNode {n : Node} (text : IsTextNode n) : n.quotedTexts = [] := by
  cases text with
  | newline | text => exact Node.quotedTexts_leaf _

theorem wasQuoted_of_isRead {format : Format} {n : Node} (read : IsRead format n) :
    ∀ text ∈ n.quotedTexts, Attribute.WasQuoted text := by
  have entries : ∀ {entries : List Node}, (∀ e ∈ entries, Attribute.IsEntry e) →
      ∀ text ∈ Node.quotedTextsOf entries, Attribute.WasQuoted text :=
    fun each => forall_quotedTextsOf fun e mem => wasQuoted_entry (each e mem)
  induction read with
  | leaf =>
    rw [Node.quotedTexts_leaf]
    nofun
  | frame read _ _ ih =>
    rw [Node.quotedTexts_frame (by rintro name rfl; nomatch read)]
    exact ih
  | embedded texts =>
    rw [Node.quotedTexts_frame (by simp), Node.quotedTexts_group]
    refine forall_quotedTextsOf fun n mem => ?_
    rw [quotedTexts_isTextNode (texts n mem)]
    nofun
  | seq _ ih =>
    rw [Node.quotedTexts_group]
    exact forall_quotedTextsOf ih
  | closed each =>
    rw [Node.quotedTexts_closed]
    exact entries each
  | tag each _ ih =>
    rw [Node.quotedTexts_tag]
    exact forall_mem_append.mpr ⟨entries each, ih⟩

/-- A template without embedded blocks can be expanded exactly if its quoted texts are closed. If it
cannot, one of them is not, and has an opening brace behind a backslash. -/
theorem interpolated_of_source {o : Options} {t : Text} {n : Node} (read : ofSource o t = .ok n)
    (plain : ∀ m ∈ n.parts, ¬m.isEmbedded) :
    ((∃ expanded, n.interpolated = .ok expanded) ↔ ∀ text ∈ n.quotedTexts, isClosed text) ∧
      ∀ failure, n.interpolated = .error failure → failure = .unclosedInterpolation ∧
        ∃ text ∈ n.quotedTexts, ¬isClosed text ∧ escapedBrace <:+: text := by
  have tree := (isRead_of_source read).1
  have expands := expands_of_isRead tree plain
  cases result : n.interpolated with
  | ok expanded =>
    rw [result] at expands
    exact ⟨⟨fun _ => expands, fun _ => ⟨expanded, rfl⟩⟩, nofun⟩
  | error failure =>
    rw [result] at expands
    obtain ⟨unclosed, text, mem, here⟩ := expands
    have brace : escapedBrace <:+: text := by
      obtain ⟨quote, u, rest, quoted⟩ := wasQuoted_of_isRead tree text mem
      by_contra free
      exact here (Attribute.isClosed_of_quoted? quoted free)
    constructor
    · exact ⟨fun ⟨_, same⟩ => (nomatch same), fun closed => absurd (closed text mem) here⟩
    · intro other same
      cases same
      exact ⟨unclosed, text, mem, here, brace⟩

/-- A tag with a quoted text in which code is closed and a brace behind a backslash is not. -/
def quotedCode : Node :=
  .seq [.tag "a" [textEntry "b" "#\x7bc\x7d\\\x7b"]
      (some (.seq [.interpolate "#\x7bd\x7d", .newline])),
    .comment (.seq [.static " ", .seq [.interpolate "e"], .static " "]), .newline]

theorem interpolated_of_source_quoted :
    ofSource {} "%a(b=\"#\x7bc\x7d\\\x7b\") #\x7bd\x7d\n/ e" = .ok quotedCode ∧
      (∀ m ∈ quotedCode.parts, ¬m.isEmbedded) ∧ (∀ text ∈ quotedCode.quotedTexts, isClosed text) ∧
      ∃ expanded, quotedCode.interpolated = .ok expanded := by
  have read : ofSource {} "%a(b=\"#\x7bc\x7d\\\x7b\") #\x7bd\x7d\n/ e" = .ok quotedCode := by
    decide +kernel
  have plain : ∀ m ∈ quotedCode.parts, ¬m.isEmbedded := by decide
  have closed : ∀ text ∈ quotedCode.quotedTexts, isClosed text := by decide +kernel
  exact ⟨read, plain, closed, (interpolated_of_source read plain).1.mpr closed⟩

/-- A brace behind a backslash counts in code, but not in the search for a quoted text's end. -/
def escapedOpening : Node :=
  .seq [.tag "a" [textEntry "b" "#\x7b\\\x7b\x7d"] (some (.seq [.newline]))]

/-- A quoted text may be accepted although its code is not closed. -/
theorem interpolated_escaped_opening :
    ofSource {} "%a(b=\"#\x7b\\\x7b\x7d\")" = .ok escapedOpening ∧
      (∀ m ∈ escapedOpening.parts, ¬m.isEmbedded) ∧
      escapedOpening.interpolated = .error .unclosedInterpolation := by
  decide +kernel

end Outline

end MarkupTemplate
