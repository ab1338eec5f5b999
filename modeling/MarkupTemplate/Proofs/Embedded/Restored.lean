import Mathlib.Data.List.Infix
import MarkupTemplate.Embedded.Engine
import MarkupTemplate.Proofs.Line.Recognized

/-!
# Outputs that are put back

While a block is rendered, a stand-in takes the place of each output. A stand-in is ordinary text,
so the block may hold it as well; the output then comes to stand where the text holds it first. A
`Strand` is a block as its outputs divide it. It is `Clear` if no output has its own stand-in in
front of it. What is put back is always clear, and a text with stand-ins can be read as one clear
strand only. So nothing is lost exactly if the block is clear (`restore_text`).
-/

namespace MarkupTemplate

open List

namespace Text

/-! ## The first occurrence of a mark -/

theorem of_cut? {mark t head rest : Text} (found : cut? mark t = some (head, rest)) :
    t = head ++ (mark ++ rest) ∧
      ∀ head' rest', t = head' ++ (mark ++ rest') → head.length ≤ head'.length := by
  induction t generalizing head with
  | nil =>
    simp only [cut?, Option.map_eq_some_iff, Prod.mk.injEq] at found
    obtain ⟨_, start, rfl, rfl⟩ := found
    rw [after?_eq_some_iff] at start
    exact ⟨start, fun _ _ _ => Nat.zero_le _⟩
  | cons c t ih =>
    rw [cut?] at found
    split at found
    next start =>
      cases found
      rw [after?_eq_some_iff] at start
      exact ⟨start, fun _ _ _ => Nat.zero_le _⟩
    next absent =>
      simp only [Option.map_eq_some_iff, Prod.mk.injEq] at found
      obtain ⟨⟨front, _⟩, further, rfl, rfl⟩ := found
      obtain ⟨whole, first⟩ := ih further
      refine ⟨congrArg (c :: ·) whole, fun head' rest' same => ?_⟩
      cases head' with
      | nil =>
        rw [nil_append, ← after?_eq_some_iff, absent] at same
        nomatch same
      | cons d head' => exact Nat.succ_le_succ (first head' rest' (List.cons.inj same).2)

theorem exists_cut? (mark head rest : Text) :
    ∃ found, cut? mark (head ++ (mark ++ rest)) = some found := by
  induction head with
  | nil =>
    have start : after? mark (mark ++ rest) = some rest := after?_eq_some_iff.mpr rfl
    cases whole : mark ++ rest with
    | nil =>
      rw [whole] at start
      exact ⟨([], rest), by rw [nil_append, cut?, start]; rfl⟩
    | cons c t =>
      rw [whole] at start
      exact ⟨([], rest), by rw [nil_append, cut?, start]⟩
  | cons c head ih =>
    obtain ⟨found, further⟩ := ih
    rw [cons_append, cut?]
    split
    next rest' _ => exact ⟨_, rfl⟩
    next => exact ⟨_, by rw [further]; rfl⟩

/-- A mark whose first character stands nowhere else in it does not overlap with itself. -/
theorem infix_of_earlier {c : Char} {tail head head' rest rest' : Text} (once : c ∉ tail)
    (same : head ++ (c :: tail ++ rest) = head' ++ (c :: tail ++ rest'))
    (earlier : head'.length < head.length) : (c :: tail) <:+: head := by
  obtain ⟨between, rfl⟩ : head' <+: head :=
    prefix_of_prefix_length_le (same ▸ prefix_append head' _) (prefix_append head _)
      (Nat.le_of_lt earlier)
  rw [append_assoc, append_cancel_left_eq] at same
  suffices start : (c :: tail) <+: between from start.isInfix.trans
    (suffix_append head' between).isInfix
  rcases append_eq_append_iff.mp same with ⟨more, whole, behind⟩ | ⟨more, rfl, _⟩
  · cases more with
    | nil =>
      rw [append_nil] at whole
      exact whole ▸ prefix_refl _
    | cons d more =>
      -- The mark would go on beyond the text between the two places, with its first character once
      -- more.
      have first : c = d := (List.cons.inj behind).1
      cases between with
      | nil => simp at earlier
      | cons e between =>
        have again := (List.cons.inj whole).2
        exact absurd (by rw [again, first]; simp) once
  · exact prefix_append _ _

end Text

theorem Failure.standIn_eq_cons (index : Nat) :
    ∃ tail, standIn index = 'p' :: tail ∧ 'p' ∉ tail := by
  refine ⟨"ro" ++ Text.ofNat index ++ "tect", rfl, fun mem => ?_⟩
  simp only [mem_append] at mem
  rcases mem with (mem | mem) | mem
  · exact absurd mem (by decide)
  · exact absurd (Nat.isDigit_of_mem_toDigits (by decide) (by decide) mem) (by decide)
  · exact absurd mem (by decide)

namespace Protected

open Failure (standIn)

/-! ## Strands -/

/-- A block as its outputs divide it. -/
inductive Strand where
  | last (text : Text)
  | next (lead : Text) (output : Node) (rest : Strand)

namespace Strand

def pad (front : Text) : Strand → Strand
  | .last text => .last (front ++ text)
  | .next lead output rest => .next (front ++ lead) output rest

def outputs : Strand → List Node
  | .last _ => []
  | .next _ output rest => output :: rest.outputs

def text : (i : Nat) → Strand → Text
  | _, .last text => text
  | i, .next lead _ rest => lead ++ (standIn i ++ rest.text (i + 1))

def nodes : Strand → List Node
  | .last text => staticNodes text
  | .next lead output rest => staticNodes lead ++ output :: rest.nodes

/-- No output has its own stand-in in front of it, where outputs are numbered from `i`. -/
def Clear : (i : Nat) → Strand → Prop
  | _, .last _ => True
  | i, .next lead _ rest => ¬standIn i <:+: lead ∧ rest.Clear (i + 1)

instance decidableClear : (i : Nat) → (s : Strand) → Decidable (s.Clear i)
  | _, .last _ => inferInstanceAs (Decidable True)
  | i, .next _ _ rest =>
    have := decidableClear (i + 1) rest
    inferInstanceAs (Decidable (_ ∧ _))

theorem outputs_pad (front : Text) (s : Strand) : (s.pad front).outputs = s.outputs := by
  cases s with
  | last | next => rfl

theorem text_pad (front : Text) (i : Nat) (s : Strand) :
    (s.pad front).text i = front ++ s.text i := by
  cases s with
  | last => rfl
  | next lead output rest => exact append_assoc ..

theorem restoreFrom_text (i : Nat) (s : Strand) :
    ∃ s' : Strand, restoreFrom i s.outputs (s.text i) = .ok s'.nodes ∧ s'.outputs = s.outputs ∧
      s'.text i = s.text i ∧ s'.Clear i := by
  -- A stand-in that is found too early leaves more text to the outputs behind it, so they get some
  -- in front.
  suffices general : ∀ front, ∃ s' : Strand, restoreFrom i s.outputs (front ++ s.text i) =
    .ok s'.nodes ∧
      s'.outputs = s.outputs ∧ s'.text i = front ++ s.text i ∧ s'.Clear i from general []
  induction s generalizing i with
  | last text => exact fun front => ⟨.last (front ++ text), rfl, rfl, rfl, trivial⟩
  | next lead output rest ih =>
    intro front
    have whole : front ++ (Strand.next lead output rest).text i =
        (front ++ lead) ++ (standIn i ++ rest.text (i + 1)) := (append_assoc ..).symm
    obtain ⟨⟨head, behind⟩, found⟩ :=
      Text.exists_cut? (standIn i) (front ++ lead) (rest.text (i + 1))
    obtain ⟨same, first⟩ := Text.of_cut? found
    have early := first _ _ rfl
    obtain ⟨more, later⟩ : ∃ more, behind = more ++ rest.text (i + 1) := by
      have length := congrArg List.length same
      simp only [length_append] at length early
      rw [← append_assoc, ← append_assoc head] at same
      obtain ⟨more, eq⟩ := suffix_of_suffix_length_le (same ▸ suffix_append _ (rest.text (i + 1)))
        (suffix_append _ behind) (by omega)
      exact ⟨more, eq.symm⟩
    obtain ⟨s', restored, outputs, text, clear⟩ := ih (i + 1) more
    refine ⟨.next head output s', ?_, congrArg (output :: ·) outputs, ?_, ?_, clear⟩
    · rw [Strand.outputs, whole, restoreFrom, found]
      simp only [later, restored]
      rfl
    · rw [whole, same, Strand.text, text, later]
    · rintro ⟨front', back, inside⟩
      have shorter := first front' (back ++ (standIn i ++ behind)) (by rw [same, ← inside]; simp)
      have length := congrArg List.length inside
      obtain ⟨tail, mark, _⟩ := Failure.standIn_eq_cons i
      simp only [mark, length_append, length_cons] at length
      omega

/-- A text with stand-ins can be read as one clear strand only. -/
theorem eq_of_clear {i : Nat} {s s' : Strand} (clear : s.Clear i) (clear' : s'.Clear i)
    (outputs : s.outputs = s'.outputs) (text : s.text i = s'.text i) : s = s' := by
  induction s generalizing i s' with
  | last t =>
    cases s' with
    | last t' => exact congrArg Strand.last text
    | next => nomatch outputs
  | next lead output rest ih =>
    cases s' with
    | last => nomatch outputs
    | next lead' output' rest' =>
      obtain ⟨rfl, others⟩ := List.cons.inj outputs
      obtain ⟨tail, mark, once⟩ := Failure.standIn_eq_cons i
      rw [Clear, mark] at clear clear'
      rw [Strand.text, Strand.text, mark] at text
      have length : lead.length = lead'.length := by
        rcases Nat.lt_trichotomy lead.length lead'.length with shorter | same | longer
        · exact absurd (Text.infix_of_earlier once text.symm shorter) clear'.1
        · exact same
        · exact absurd (Text.infix_of_earlier once text longer) clear.1
      obtain ⟨rfl, behind⟩ := append_inj text length
      rw [ih clear.2 clear'.2 others (append_cancel_left behind)]

end Strand

/-! ## Blocks -/

/-- A block of text: a tree of static texts, outputs and line marks. -/
inductive IsBlock : Node → Prop where
  | newline : IsBlock .newline
  | static (text : Text) : IsBlock (.static text)
  | output (escaped : Bool) (source : Text) (body : Node) : IsBlock (.output escaped source body)
  | seq {children : List Node} : (∀ n ∈ children, IsBlock n) → IsBlock (.seq children)

mutual

/-- The texts and outputs of a block in order. -/
def content : Node → List Node
  | .leaf (.static text) => [.static text]
  | .frame (.output escaped source) body => [.output escaped source body]
  | .group .seq children => contentOf children
  | .leaf _ | .frame _ _ | .group .attrs _ | .tag _ _ _ => []

def contentOf : List Node → List Node
  | [] => []
  | n :: ns => content n ++ contentOf ns

end

/-- Texts and outputs with neighbouring texts joined and empty ones dropped. -/
def settled : List Node → List Node
  | [] => []
  | .leaf (.static text) :: ns =>
    match settled ns with
    | .leaf (.static more) :: rest => .static (text ++ more) :: rest
    | rest => staticNodes text ++ rest
  | n :: ns => n :: settled ns

inductive IsOutput : Node → Prop where
  | output (escaped : Bool) (source : Text) (body : Node) : IsOutput (.output escaped source body)

inductive IsContent : Node → Prop where
  | static (text : Text) : IsContent (.static text)
  | output {n : Node} : IsOutput n → IsContent n

namespace Strand

def ofNodes : List Node → Strand
  | [] => .last []
  | .leaf (.static text) :: ns => (ofNodes ns).pad text
  | n :: ns => .next [] n (ofNodes ns)

theorem ofNodes_output {n : Node} (output : IsOutput n) (ns : List Node) :
    ofNodes (n :: ns) = .next [] n (ofNodes ns) := by
  cases output with
  | output => rfl

theorem isOutput_of_content {ns : List Node} (content : ∀ n ∈ ns, IsContent n) :
    ∀ n ∈ (ofNodes ns).outputs, IsOutput n := by
  induction ns with
  | nil => nofun
  | cons n ns ih =>
    obtain ⟨first, rest⟩ := forall_mem_cons.mp content
    cases first with
    | static text =>
      rw [ofNodes, outputs_pad]
      exact ih rest
    | output output =>
      rw [ofNodes_output output]
      exact forall_mem_cons.mpr ⟨output, ih rest⟩

theorem ofNodes_staticNodes (text : Text) (ns : List Node) :
    ofNodes (staticNodes text ++ ns) = (ofNodes ns).pad text := by
  unfold staticNodes
  split
  next empty =>
    rw [isEmpty_iff.mp empty]
    cases same : ofNodes ns with
    | last | next => exact same
  next => rfl

theorem ofNodes_nodes {s : Strand} (outputs : ∀ n ∈ s.outputs, IsOutput n) :
    ofNodes s.nodes = s := by
  induction s with
  | last text =>
    rw [nodes, ← append_nil (staticNodes text), ofNodes_staticNodes]
    exact congrArg Strand.last (append_nil text)
  | next lead output rest ih =>
    obtain ⟨first, others⟩ := forall_mem_cons.mp outputs
    rw [nodes, ofNodes_staticNodes, ofNodes_output first, ih others]
    exact congrArg (Strand.next · output rest) (append_nil lead)

theorem nodes_pad {s : Strand} (outputs : ∀ n ∈ s.outputs, IsOutput n) (text : Text) :
    (s.pad text).nodes =
      match s.nodes with
      | .leaf (.static more) :: rest => .static (text ++ more) :: rest
      | rest => staticNodes text ++ rest := by
  cases s with
  | last more =>
    cases more with
    | nil | cons c more => simp [pad, nodes, staticNodes]
  | next lead output rest =>
    cases lead with
    | nil =>
      cases (forall_mem_cons.mp outputs).1 with
      | output => simp [pad, nodes, staticNodes]
    | cons c lead => simp [pad, nodes, staticNodes]

theorem settled_eq {ns : List Node} (content : ∀ n ∈ ns, IsContent n) :
    settled ns = (ofNodes ns).nodes := by
  induction ns with
  | nil => rfl
  | cons n ns ih =>
    obtain ⟨first, rest⟩ := forall_mem_cons.mp content
    cases first with
    | static text => rw [settled, ofNodes, ih rest, nodes_pad (isOutput_of_content rest)]
    | output output =>
      rw [ofNodes_output output, nodes, ← ih rest]
      cases output with
      | output => rfl

theorem settled_eq_iff {ns ns' : List Node} (content : ∀ n ∈ ns, IsContent n)
    (content' : ∀ n ∈ ns', IsContent n) : settled ns = settled ns' ↔ ofNodes ns = ofNodes ns' := by
  rw [settled_eq content, settled_eq content']
  constructor
  · intro same
    rw [← ofNodes_nodes (isOutput_of_content content), same,
      ofNodes_nodes (isOutput_of_content content')]
  · exact congrArg nodes

theorem isContent_nodes {s : Strand} (outputs : ∀ n ∈ s.outputs, IsOutput n) :
    ∀ n ∈ s.nodes, IsContent n := by
  have text : ∀ t, ∀ n ∈ staticNodes t, IsContent n := by
    intro t n mem
    unfold staticNodes at mem
    split at mem
    · nomatch mem
    · rw [mem_singleton.mp mem]
      exact .static t
  induction s with
  | last t => exact text t
  | next lead output rest ih =>
    obtain ⟨first, others⟩ := forall_mem_cons.mp outputs
    exact forall_mem_append.mpr ⟨text lead, forall_mem_cons.mpr ⟨.output first, ih others⟩⟩

end Strand

/-! ## Parts -/

def Piece.node : Piece → Node
  | .text t => .static t
  | .output n => n

/-- A part that is what it says: one that is kept is an output. -/
inductive Piece.Sound : Piece → Prop where
  | text (t : Text) : Sound (.text t)
  | output {n : Node} : IsOutput n → Sound (.output n)

theorem Piece.Sound.content {p : Piece} (sound : p.Sound) : IsContent p.node := by
  cases sound with
  | text t => exact .static t
  | output output => exact .output output

/-- The parts of a block: its texts and outputs in order. -/
structure AreParts (ns : List Node) (ps : List Piece) : Prop where
  nodes : ps.map Piece.node = ns
  sound : ∀ p ∈ ps, p.Sound

namespace AreParts

variable {ns ms : List Node} {ps qs : List Piece}

theorem append (first : AreParts ns ps) (rest : AreParts ms qs) : AreParts (ns ++ ms) (ps ++ qs) :=
  ⟨by rw [map_append, first.nodes, rest.nodes], forall_mem_append.mpr ⟨first.sound, rest.sound⟩⟩

theorem content (parts : AreParts ns ps) : ∀ n ∈ ns, IsContent n := by
  rw [← parts.nodes, forall_mem_map]
  exact fun p mem => (parts.sound p mem).content

theorem textFrom_eq (parts : AreParts ns ps) (i : Nat) :
    textFrom i ps = (Strand.ofNodes ns).text i := by
  obtain ⟨rfl, sound⟩ := parts
  induction ps generalizing i with
  | nil => rfl
  | cons p ps ih =>
    obtain ⟨first, rest⟩ := forall_mem_cons.mp sound
    cases first with
    | text t =>
      rw [textFrom, map_cons, Piece.node, Strand.ofNodes, Strand.text_pad, ih i rest]
    | output output =>
      rw [textFrom, map_cons, Piece.node, Strand.ofNodes_output output, Strand.text,
        ih (i + 1) rest,
        nil_append]

theorem outputs_eq (parts : AreParts ns ps) :
    Protected.outputs ps = (Strand.ofNodes ns).outputs := by
  obtain ⟨rfl, sound⟩ := parts
  induction ps with
  | nil => rfl
  | cons p ps ih =>
    obtain ⟨first, rest⟩ := forall_mem_cons.mp sound
    cases first with
    | text t => rw [outputs, map_cons, Piece.node, Strand.ofNodes, Strand.outputs_pad, ih rest]
    | output output =>
      rw [outputs, map_cons, Piece.node, Strand.ofNodes_output output, Strand.outputs, ih rest]

end AreParts

theorem pieces_block {n : Node} (block : IsBlock n) :
    ∃ ps, pieces n = .ok ps ∧ AreParts (content n) ps := by
  induction block with
  | newline => exact ⟨[], rfl, rfl, nofun⟩
  | static text => exact ⟨[.text text], rfl, rfl, forall_mem_singleton.mpr (.text text)⟩
  | output escaped source body =>
    exact ⟨[.output (.output escaped source body)], rfl, rfl,
      forall_mem_singleton.mpr (.output (.output escaped source body))⟩
  | @seq children _ ih =>
    have list : ∃ ps, piecesOf children = .ok ps ∧ AreParts (contentOf children) ps := by
      induction children with
      | nil => exact ⟨[], rfl, rfl, nofun⟩
      | cons n ns ihRest =>
        rename_i each
        obtain ⟨first, rest⟩ := forall_mem_cons.mp ih
        obtain ⟨ps, found, parts⟩ := first
        obtain ⟨qs, others, more⟩ := ihRest (forall_mem_cons.mp each).2 rest
        refine ⟨ps ++ qs, ?_, parts.append more⟩
        rw [piecesOf, found, others]
        rfl
    exact list

/-! ## The whole way -/

/-- Outputs are put back in the same order, and with stand-ins the text is the same again. Texts and
outputs are all where they were exactly if no output has its own stand-in in front of it. -/
theorem restore_text {n : Node} (block : IsBlock n) :
    ∃ ps nodes, pieces n = .ok ps ∧ restore ps (text ps) = .ok (.seq nodes) ∧
      (Strand.ofNodes nodes).outputs = (Strand.ofNodes (content n)).outputs ∧
      (Strand.ofNodes nodes).text 0 = (Strand.ofNodes (content n)).text 0 ∧
      (settled nodes = settled (content n) ↔ (Strand.ofNodes (content n)).Clear 0) := by
  obtain ⟨ps, found, parts⟩ := pieces_block block
  have sound := Strand.isOutput_of_content parts.content
  generalize strand : Strand.ofNodes (content n) = s at sound
  obtain ⟨s', restored, outputs, same, clear⟩ := s.restoreFrom_text 0
  have again : Strand.ofNodes s'.nodes = s' := Strand.ofNodes_nodes (outputs ▸ sound)
  refine ⟨ps, s'.nodes, found, ?_, ?_, ?_, ?_⟩
  · rw [restore, text, parts.textFrom_eq, parts.outputs_eq, strand, restored]
    rfl
  · rw [again, outputs]
  · rw [again, same]
  · rw [Strand.settled_eq_iff (Strand.isContent_nodes (outputs ▸ sound)) parts.content, again,
      strand]
    exact ⟨fun eq => eq ▸ clear, fun clear' => Strand.eq_of_clear clear clear' outputs same⟩

/-- The stand-in of another output does no harm. -/
theorem restore_text_other_standIn :
    ∃ ps nodes, pieces (.seq [.output true "x" (.seq []), .newline, .seq [.static "a ",
        .static "pro0tect"], .output false "y" (.seq [])]) = .ok ps ∧
      restore ps (text ps) = .ok (.seq nodes) ∧
      settled nodes = [.output true "x" (.seq []), .static "a pro0tect",
        .output false "y" (.seq [])] := by
  obtain ⟨ps, nodes, found, restored, _, _, whole⟩ := restore_text
    (n := .seq [.output true "x" (.seq []), .newline, .seq [.static "a ",
      .static "pro0tect"], .output false "y" (.seq [])])
    (.seq (by
      simp only [forall_mem_cons]
      exact ⟨.output .., .newline, .seq (by simp [IsBlock.static]), .output .., nofun⟩))
  exact ⟨ps, nodes, found, restored, (whole.mpr (by decide)).trans (by decide)⟩

/-- Where a text holds the stand-in of the output behind it, the two change places. -/
theorem restore_own_standIn :
    (pieces (.seq [.static "pro0tect", .output true "x" (.seq [])]) >>= fun ps =>
      restore ps (text ps)) = .ok (.seq [.output true "x" (.seq []), .static "pro0tect"]) ∧
      settled [.output true "x" (.seq []), .static "pro0tect"] ≠
        settled (content (.seq [.static "pro0tect", .output true "x" (.seq [])])) := by
  decide

end Protected

end MarkupTemplate
