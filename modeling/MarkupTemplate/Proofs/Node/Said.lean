import MarkupTemplate.Proofs.Attribute.Lists
import MarkupTemplate.Proofs.Embedded.Made
import MarkupTemplate.Proofs.Host.Mentions
import MarkupTemplate.Proofs.Outline.LineCount

/-!
# Codes that templates say

Once blocks are rendered and interpolated texts expanded, all codes of a template stand in its tree
(`Node.codes`). `Node.Said` lists the trees of this kind. The only other code in them fills in a
template between double braces, nothing is captured yet, and trims stand around tags. `raw` tells
whether output without escaping is allowed, and `texts` whether there are texts to expand. A code in
an attribute list is read up to a place outside of quotes, so its strings are closed
(`isComplete_of_wasCode`), and other code may be put behind it.
-/

namespace MarkupTemplate

open Host (Spell isComplete)
open Outline (IsRead IsTextNode)

/-! ## Codes of attributes -/

namespace Attribute

/-- A state in which code is read, and the place that the code has come to. -/
inductive Spelled : CodeState → Spell → Prop where
  | code (brackets : List Char) {p : Spell} : p.isCode → Spelled { brackets } p
  | string (brackets : List Char) {quote : Char} : quote = '\'' ∨ quote = '"' →
    Spelled { brackets, quote? := some quote } (.string quote)
  | escape (brackets : List Char) {quote : Char} : quote = '\'' ∨ quote = '"' →
    Spelled { brackets, quote? := some quote, escaped := true } (.escape quote)

variable {p : Spell} {s : CodeState}

theorem isCode_step (code : p.isCode) {c : Char} (noQuote : (c = '\'' || c = '"') = false) :
    (p.step c).isCode := by
  have outside : p.step c = if Text.isWord c then .word else .apart := by
    cases p with
    | apart | word => rw [Spell.step, if_neg (by simp [noQuote])] <;> simp
    | string | escape => cases code
  rw [outside]
  split <;> rfl

theorem Spelled.step (spelled : Spelled s p) (c : Char) : Spelled (s.step c) (p.step c) := by
  cases spelled with
  | code brackets code =>
    by_cases isQuote : c = '"' || c = '\''
    · have same : p.step c = .string c := by
        cases p with
        | apart | word =>
          rw [Bool.or_comm] at isQuote
          simp only [Spell.step, isQuote, if_true]
        | string | escape => cases code
      rw [CodeState.step, same]
      simp only [isQuote, if_true]
      exact .string brackets (by simpa [or_comm] using isQuote)
    · have outside := isCode_step code (c := c) (by rw [Bool.or_comm]; simpa using isQuote)
      rw [CodeState.step]
      simp only [if_neg isQuote]
      split
      · exact .code _ outside
      · split <;> exact .code _ outside
  | string brackets isQuote =>
    rw [CodeState.step, Spell.step]
    simp only [Bool.false_eq_true, if_false]
    split
    · exact .escape brackets isQuote
    · split
      · exact .code brackets rfl
      · exact .string brackets isQuote
  | escape brackets isQuote => exact .string brackets isQuote

theorem isCode_of_code {isTerminator : Char → Bool} (spelled : Spelled s p) {t text rest : Text}
    (read : code isTerminator s t = .ok (text, rest)) : (text.foldl Spell.step p).isCode := by
  have closed : s.quote? = none → p.isCode := by
    intro unquoted
    cases spelled with
    | code _ code => exact code
    | string | escape => cases unquoted
  induction t generalizing s p text with
  | nil =>
    rw [code] at read
    split at read
    · cases read
    next unopened =>
      cases read
      exact closed (Option.or_eq_none_iff.mp unopened).2
  | cons c t ih =>
    rw [code] at read
    split at read
    next stops =>
      cases read
      rw [CodeState.isOutside, Bool.and_eq_true, Bool.and_eq_true,
        Option.isNone_iff_eq_none] at stops
      exact closed stops.1.2
    next =>
      obtain ⟨_, inside, same⟩ := exists_of_map read
      cases same
      have next := spelled.step c
      refine ih next inside fun unquoted => ?_
      generalize s.step c = s', p.step c = p' at next unquoted
      cases next with
      | code _ code => exact code
      | string | escape => cases unquoted

theorem isCode_of_blank (spelled : Spelled s p) {c : Char} (blank : Text.isBlank c)
    (code : (p.step c).isCode) : p.isCode := by
  have sign := Host.isSign_of_isBlank blank
  cases spelled with
  | code _ here => exact here
  | @string _ quote isQuote =>
    have noEscape : c ≠ '\\' := by
      rintro rfl
      exact absurd blank (by decide)
    have noClose : c ≠ quote := by
      rintro rfl
      rcases isQuote with rfl | rfl
      · exact absurd sign (by decide)
      · exact absurd sign (by decide)
    rw [Host.step_string noEscape noClose] at code
    nomatch code
  | escape => nomatch code

theorem isComplete_of_wasCode {source : Text} (was : WasCode source) : isComplete source := by
  obtain ⟨isTerminator, t, whole, rest, read, rfl⟩ := was
  have spelled : Spelled {} .apart := .code [] rfl
  have closed := isCode_of_code spelled read
  -- Blanks in front leave the place as it is, and blanks behind do not close a string.
  have front : ∀ t : Text, (Text.trimLeft t).foldl Spell.step .apart =
      t.foldl Spell.step .apart := by
    intro t
    induction t with
    | nil => rfl
    | cons c t ih =>
      rw [Text.trimLeft, List.dropWhile_cons]
      split
      next blank =>
        rw [List.foldl_cons, Host.step_of_isSign rfl (Host.isSign_of_isBlank blank)]
        exact ih
      next => rfl
  have behind : ∀ (t : Text) {s : CodeState} {p : Spell}, Spelled s p →
    (t.foldl Spell.step p).isCode →
      ((Text.trimRight t).foldl Spell.step p).isCode := by
    intro t
    induction t with
    | nil => exact fun _ closed => closed
    | cons c t ih =>
      intro s p spelled closed
      have inside := ih (spelled.step c) closed
      rw [Text.trimRight]
      split
      next blank =>
        rw [blank] at inside
        split
        next blank => exact isCode_of_blank spelled blank inside
        next => exact inside
      next => exact inside
  exact behind _ spelled (by rw [front]; exact closed)

end Attribute

/-! ## Trees -/

/-- A leaf without code, or with code that is not yet told from the text around it. -/
def Leaf.isSilent (raw texts : Bool) : Leaf → Bool
  | .newline | .static _ | .doctype _ => true
  | .interpolate t => texts && (raw || !Interpolation.hasRaw t)
  | .unknown | .dynamic _ | .code _ | .value _ _ | .trim _ => false

/-- A frame without code that neither captures what is inside nor belongs to an attribute list. -/
def Frame.isSilent (raw : Bool) : Frame → Bool
  | .comment | .condComment _ | .trim _ | .block => true
  | .escape on => raw || on
  | .control _ | .output _ _ | .attr _ | .shortcut _ | .embedded _ | .capture _ => false

namespace Node

/-- The code that a node has from the template. -/
def code? : Node → Option Text
  | .leaf (.code source) | .leaf (.value _ source) => some source
  | .frame (.control source) _ | .frame (.output _ source) _ => some source
  | _ => none

/-- The codes that a tree has from the template. -/
def codes (n : Node) : List Text :=
  n.parts.filterMap code?

/-- The text of an attribute. -/
inductive SaidText (raw texts : Bool) : Node → Prop where
  | static (text : Text) : SaidText raw texts (.static text)
  | interpolate {t : Text} :
    texts → raw || !Interpolation.hasRaw t → SaidText raw texts (.interpolate t)
  | output (escaped : Bool) (source : Text) :
    raw || escaped → SaidText raw texts (.output escaped source (.seq []))
  | seq {children : List Node} :
    (∀ n ∈ children, SaidText raw texts n) → SaidText raw texts (.seq children)

/-- The value of an attribute. Its text is escaped where it does not say otherwise. -/
inductive SaidValue (raw texts : Bool) : Node → Prop where
  | static (text : Text) : SaidValue raw texts (.static text)
  | text {inner : Node} : SaidText raw texts inner → SaidValue raw texts (.escape true inner)
  | code {source : Text} : isComplete source → SaidValue raw texts (.value true source)

/-- A tree whose codes come from the template. -/
inductive Said (raw texts : Bool) : Node → Prop where
  | leaf {l : Leaf} : l.isSilent raw texts → Said raw texts (.leaf l)
  | statement (source : Text) : Said raw texts (.code source)
  | deferred (text : Text) :
    raw → Said raw texts (.escape false (.dynamic (Embedded.deferredCode text)))
  | frame {f : Frame} {inner : Node} :
    f.isSilent raw → (f.isTrim → inner.isTag) → Said raw texts inner →
    Said raw texts (.frame f inner)
  | control (source : Text) {body : Node} :
    Said raw texts body → Said raw texts (.control source body)
  | output (escaped : Bool) (source : Text) {body : Node} :
    raw || escaped → Said raw texts body → Said raw texts (.output escaped source body)
  | seq {children : List Node} : (∀ n ∈ children, Said raw texts n) → Said raw texts (.seq children)
  | closed {name : Text} {entries : List Node} :
    (∀ e ∈ entries, Attribute.IsEntryOf (SaidValue raw texts) e) →
    Said raw texts (.tag name entries none)
  | tag {name : Text} {entries : List Node} {body : Node} :
    (∀ e ∈ entries, Attribute.IsEntryOf (SaidValue raw texts) e) → Said raw texts body →
    Said raw texts (.tag name entries (some body))

variable {n : Node} {raw texts : Bool}

theorem SaidText.said (said : SaidText raw texts n) : Said raw texts n := by
  induction said with
  | static => exact .leaf rfl
  | interpolate unexpanded plain => exact .leaf (Bool.and_eq_true_iff.mpr ⟨unexpanded, plain⟩)
  | output escaped source allowed => exact .output escaped source allowed (.seq nofun)
  | seq _ ih => exact .seq ih

/-- A tree with codes of the template, without reserved names and calls of some functions. -/
structure SaidOwn (looking : Host.Lookers) (n : Node) : Prop where
  said : Said true false n
  own : ∀ code ∈ n.codes, Host.isOwn looking code

theorem isTag_induction {motive : (n : Node) → n.isTag → Prop}
    (tag : ∀ name entries body?, motive (.tag name entries body?) rfl)
    (trim : ∀ side inner (isTag : inner.isTag), motive inner isTag →
      motive (.trim side inner) isTag)
    {n : Node} (isTag : n.isTag) : motive n isTag :=
  match n, isTag with
  | .tag name entries body?, _ => tag name entries body?
  | .trim side inner, isTag => trim side inner isTag (isTag_induction tag trim (n := inner) isTag)

/-! ## Rendered blocks -/

theorem said_isEntry {e : Node} (entry : Attribute.IsEntry e)
    (plain : ∀ t, .interpolate t ∈ e.parts → raw || !Interpolation.hasRaw t) :
    Attribute.IsEntryOf (SaidValue raw true) e := by
  cases entry with
  | text =>
    exact ⟨_, rfl, .text (.interpolate rfl (plain _ (by simp [Attribute.textEntry, parts])))⟩
  | code _ was => exact ⟨_, rfl, .code (Attribute.isComplete_of_wasCode was)⟩
  | shortcut sign name =>
    unfold Attribute.shortcutEntry
    split <;> exact ⟨_, rfl, .static name⟩

theorem said_makes : Embedded.Makes (Said true true) where
  leaf {l} made := by
    cases l with
    | code => exact .statement _
    | newline | static | interpolate => exact .leaf rfl
    | _ => nomatch made
  escape on {l} made := by
    refine .frame rfl nofun ?_
    cases l with
    | code => exact .statement _
    | newline | static | interpolate => exact .leaf rfl
    | _ => nomatch made
  deferred text := .deferred text rfl
  output escaped source := .output escaped source rfl (.seq nofun)
  seq each := .seq each
  tag name attributes body said := by
    refine .tag (fun e mem => ?_) said
    obtain ⟨_, _, rfl⟩ := List.mem_map.mp mem
    exact ⟨_, rfl, .static _⟩

section Embedded

variable (engine : Text → Except Failure Embedded.Engine) (format : Format)

theorem isTag_embed (isTag : n.isTag) :
    Yields (fun n' => n'.isTag) (fun _ => True) (n.embed engine format) := by
  induction isTag using isTag_induction with
  | tag _ _ body? =>
    cases body? with
    | none => exact (Yields.always _).bind fun _ _ => rfl
    | some _ => exact (Yields.always _).bind fun _ _ => (Yields.always _).bind fun _ _ => rfl
  | trim _ _ _ ih => exact ih.bind fun _ tag => tag

theorem said_embed (read : IsRead format n) :
    Yields (Said true true) (fun _ => True) (n.embed engine format) := by
  induction read with
  | @leaf l read =>
    cases l with
    | newline | static | doctype | interpolate => exact .leaf rfl
    | _ => nomatch read
  | @frame f inner read tags _ ih =>
    cases f with
    | comment | condComment | escape => exact ih.bind fun _ said => .frame rfl nofun said
    | trim side =>
      exact (ih.and (isTag_embed engine format (tags rfl))).bind fun _ both =>
        .frame rfl (fun _ => both.2) both.1
    | control source => exact ih.bind fun _ said => .control source said
    | output escaped source => exact ih.bind fun _ said => .output escaped source rfl said
    | _ => nomatch read
  | @embedded name nodes texts =>
    rw [embed]
    cases engine name with
    | error failure => trivial
    | ok e => exact said_makes.render e format texts
  | seq _ ih =>
    rw [embed, embedAll_eq]
    exact (Yields.mapM ih).bind fun _ each => .seq (forall_of_forall₂ each)
  | closed entries =>
    rw [embed, embed_isEntry _ _ entries]
    exact .closed fun e mem => said_isEntry (entries e mem) fun _ _ => rfl
  | tag entries _ ih =>
    rw [embed, embed_isEntry _ _ entries]
    exact ih.bind fun _ said => .tag (fun e mem => said_isEntry (entries e mem) fun _ _ => rfl) said

end Embedded

/-! ## Expanded texts -/

/-- What stands for a text has every property of texts, outputs and sequences of them. -/
theorem yields_ofInterpolated (raw : Bool) {holds : Node → Prop}
    (static : ∀ text, holds (.static text))
    (output : ∀ escaped source, raw || escaped → holds (.output escaped source (.seq [])))
    (seq : ∀ ns : List Node, (∀ n ∈ ns, holds n) → holds (.seq ns)) {t : Text}
    (plain : raw || !Interpolation.hasRaw t) : Yields holds (fun _ => True) (ofInterpolated t) := by
  unfold ofInterpolated
  split
  next segments found =>
    refine seq _ fun n mem => ?_
    obtain ⟨segment, inside, rfl⟩ := List.mem_map.mp mem
    cases segment with
    | literal text => exact static text
    | code source =>
      simp only [Interpolation.Segment.node]
      split
      next braced =>
        have hasRaw : Interpolation.hasRaw t := by
          rw [Interpolation.hasRaw, found]
          exact List.any_eq_true.mpr ⟨_, inside, by simp [Interpolation.Segment.isRaw, braced]⟩
        exact output false _ (by simpa [hasRaw] using plain)
      next => exact output true source (Bool.or_true raw)
  next => trivial

theorem saidText_ofInterpolated {t : Text} (plain : raw || !Interpolation.hasRaw t) :
    Yields (SaidText raw false) (fun _ => True) (ofInterpolated t) :=
  yields_ofInterpolated raw .static .output (fun _ each => .seq each) plain

theorem saidText_interpolated (said : SaidText raw true n) :
    Yields (SaidText raw false) (fun _ => True) n.interpolated := by
  induction said with
  | static text => exact .static text
  | interpolate _ plain => exact saidText_ofInterpolated plain
  | output escaped source allowed => exact .output escaped source allowed
  | seq _ ih =>
    rw [interpolated, interpolatedAll_eq]
    exact (Yields.mapM ih).bind fun _ each => .seq (forall_of_forall₂ each)

theorem saidValue_interpolated {v : Node} (said : SaidValue raw true v) :
    Yields (SaidValue raw false) (fun _ => True) v.interpolated := by
  cases said with
  | static text => exact .static text
  | text said => exact (saidText_interpolated said).bind fun _ said => .text said
  | code complete => exact .code complete

theorem entries_interpolated {holds holds' : Node → Prop} {entries : List Node}
    (values : ∀ v, holds v → Yields holds' (fun _ => True) v.interpolated)
    (each : ∀ e ∈ entries, Attribute.IsEntryOf holds e) :
    Yields (fun entries' => ∀ e ∈ entries', Attribute.IsEntryOf holds' e) (fun _ => True)
      (interpolatedAll entries) := by
  have kept : ∀ e ∈ entries,
      Yields (Attribute.IsEntryOf holds') (fun _ => True) e.interpolated := by
    intro e mem
    obtain ⟨name, v, rfl | rfl, here⟩ := Attribute.isEntryOf_iff.mp (each e mem)
    · exact (values v here).bind fun _ here => ⟨_, rfl, here⟩
    · exact (values v here).bind fun _ here => ⟨_, rfl, here⟩
  rw [interpolatedAll_eq]
  exact (Yields.mapM kept).imp fun _ => forall_of_forall₂

theorem isTag_interpolated (isTag : n.isTag) :
    Yields (fun n' => n'.isTag) (fun _ => True) n.interpolated := by
  induction isTag using isTag_induction with
  | tag _ _ body? =>
    cases body? with
    | none => exact (Yields.always _).bind fun _ _ => rfl
    | some _ => exact (Yields.always _).bind fun _ _ => (Yields.always _).bind fun _ _ => rfl
  | trim _ _ _ ih => exact ih.bind fun _ tag => tag

theorem said_interpolated (said : Said raw true n) :
    Yields (Said raw false) (fun _ => True) n.interpolated := by
  induction said with
  | @leaf l silent =>
    cases l with
    | interpolate =>
      exact (saidText_ofInterpolated silent).mono (fun _ said => said.said) fun _ _ => trivial
    | newline | static | doctype => exact .leaf rfl
    | _ => nomatch silent
  | statement source => exact .statement source
  | deferred text allowed => exact .deferred text allowed
  | @frame f inner silent tags _ ih =>
    cases trim : f.isTrim with
    | false => exact ih.bind fun _ said => .frame silent (by simp [trim]) said
    | true =>
      exact (ih.and (isTag_interpolated (tags trim))).bind fun _ both =>
        .frame silent (fun _ => both.2) both.1
  | control source _ ih => exact ih.bind fun _ said => .control source said
  | output escaped source allowed _ ih =>
    exact ih.bind fun _ said => .output escaped source allowed said
  | seq _ ih =>
    rw [interpolated, interpolatedAll_eq]
    exact (Yields.mapM ih).bind fun _ each => .seq (forall_of_forall₂ each)
  | closed entries =>
    exact (entries_interpolated (fun _ => saidValue_interpolated) entries).bind fun _ each =>
      .closed each
  | tag entries _ ih =>
    exact (entries_interpolated (fun _ => saidValue_interpolated) entries).bind fun _ each =>
      ih.bind fun _ said => .tag each said

end Node

end MarkupTemplate
