import MarkupTemplate.Proofs.Node.Guarded

/-!
# Compact trees

Flattening a tree and then joining its static texts leaves nothing to flatten or to join. `Settled`
says what this means for the children of one sequence, and `IsCompact` for a tree. A tree is compact
exactly if the two steps leave it as it is (`compacted_isCompact`).
-/

namespace MarkupTemplate.Node

open List

/-- The tree with its sequences flattened and their static texts joined. -/
def compacted (n : Node) : Except Failure Node := do
  let flat ← n.flattened
  flat.joined

/-- Children of a sequence of which none is a sequence or an empty text, and no two are texts with
only line marks between them. -/
structure Settled (children : List Node) : Prop where
  flat : ∀ inner, .seq inner ∉ children
  inked : .static [] ∉ children
  apart : ∀ before text marks text' after,
    children ≠ before ++ .static text :: (replicate marks .newline ++ .static text' :: after)

/-- A tree in which the children of every sequence are settled. -/
def IsCompact (n : Node) : Prop :=
  ∀ children, .seq children ∈ n.parts → Settled children

/-! ## What holds of all sequences -/

/-- A tree without unknown nodes in which the children of every sequence have a property. -/
inductive Orderly (good : List Node → Prop) : Node → Prop where
  | leaf {l : Leaf} : l ≠ .unknown → Orderly good (.leaf l)
  | frame (f : Frame) {inner : Node} : Orderly good inner → Orderly good (.frame f inner)
  | seq {children : List Node} :
    good children → (∀ n ∈ children, Orderly good n) → Orderly good (.seq children)
  | attrs {entries : List Node} : (∀ e ∈ entries, Orderly good e) → Orderly good (.attrs entries)
  | closed (name : Text) {entries : List Node} :
    (∀ e ∈ entries, Orderly good e) → Orderly good (.tag name entries none)
  | tag (name : Text) {entries : List Node} {body : Node} :
    (∀ e ∈ entries, Orderly good e) → Orderly good body →
    Orderly good (.tag name entries (some body))

variable {good : List Node → Prop}

variable {n : Node} {ns : List Node}

theorem Orderly.of_parts (known : .unknown ∉ n.parts)
    (each : ∀ children, .seq children ∈ n.parts → good children) : Orderly good n := by
  have inside : ∀ {ns : List Node}, .unknown ∉ partsOf ns →
    (∀ children, .seq children ∈ partsOf ns → good children) →
      ∀ n ∈ ns, .unknown ∉ n.parts ∧ ∀ children, .seq children ∈ n.parts → good children := by
    intro ns known each n mem
    exact ⟨fun found => known (mem_partsOf.mpr ⟨n, mem, found⟩),
      fun children found => each children (mem_partsOf.mpr ⟨n, mem, found⟩)⟩
  induction n using Node.induction with
  | leaf l => exact .leaf fun same => known (by simp [parts, same])
  | frame f inner ih =>
    exact .frame f (ih (fun found => known (.tail _ found)) fun children found =>
      each children (.tail _ found))
  | group g children ih =>
    have inside := inside (fun found => known (.tail _ found)) fun children found =>
      each children (.tail _ found)
    have below : ∀ n ∈ children, Orderly good n :=
      fun n mem => ih n mem (inside n mem).1 (inside n mem).2
    cases g with
    | seq => exact .seq (each children (.head _)) below
    | attrs => exact .attrs below
  | closed name entries ih =>
    have inside := inside (fun found => known (.tail _ found)) fun children found =>
      each children (.tail _ found)
    exact .closed name fun e mem => ih e mem (inside e mem).1 (inside e mem).2
  | tag name entries body ihEntries ihBody =>
    have inside := inside (fun found => known (.tail _ (mem_append_left _ found)))
      fun children found => each children (.tail _ (mem_append_left _ found))
    refine .tag name (fun e mem => ihEntries e mem (inside e mem).1 (inside e mem).2) ?_
    exact ihBody (fun found => known (.tail _ (mem_append_right _ found)))
      fun children found => each children (.tail _ (mem_append_right _ found))

theorem Orderly.known (orderly : Orderly good n) : .unknown ∉ n.parts := by
  induction orderly with
  | leaf known => simpa [parts] using known.symm
  | frame f _ ih => simpa [parts] using ih
  | seq _ _ ih | attrs _ ih | closed _ _ ih => simpa [parts, mem_partsOf] using ih
  | tag name _ _ ihEntries ihBody => simpa [parts, mem_partsOf, ihBody] using ihEntries

theorem Orderly.each (orderly : Orderly good n) :
    ∀ children, .seq children ∈ n.parts → good children := by
  induction orderly with
  | leaf => simp [parts]
  | frame f _ ih => simpa [parts] using ih
  | seq here _ ih =>
    intro children found
    simp only [parts, mem_cons, group.injEq, true_and, mem_partsOf] at found
    rcases found with rfl | ⟨n, mem, found⟩
    · exact here
    · exact ih n mem children found
  | attrs _ ih | closed _ _ ih =>
    intro children found
    simp only [parts, mem_cons, reduceCtorEq, group.injEq, false_and, false_or,
      mem_partsOf] at found
    obtain ⟨n, mem, found⟩ := found
    exact ih n mem children found
  | tag name _ _ ihEntries ihBody =>
    intro children found
    simp only [parts, mem_cons, reduceCtorEq, false_or, mem_append, mem_partsOf] at found
    rcases found with ⟨n, mem, found⟩ | found
    · exact ihEntries n mem children found
    · exact ihBody children found

/-! ## Flattening -/

def isSeq : Node → Bool
  | .group .seq _ => true
  | _ => false

def NoSeq (children : List Node) : Prop :=
  ∀ n ∈ children, n.isSeq = false

theorem spliced_of_not_isSeq (other : n.isSeq = false) : n.spliced = [n] := by
  unfold spliced
  split
  next => nomatch other
  next => rfl

theorem spliced_flat (orderly : Orderly NoSeq n) :
    ∀ m ∈ n.spliced, m.isSeq = false ∧ Orderly NoSeq m := by
  cases other : n.isSeq with
  | false =>
    rw [spliced_of_not_isSeq other]
    exact forall_mem_singleton.mpr ⟨other, orderly⟩
  | true =>
    cases orderly with
    | seq flat each => exact fun m mem => ⟨flat m mem, each m mem⟩
    | _ => nomatch other

theorem flattened_noSeq (orderly : Orderly good n) :
    Yields (Orderly NoSeq) (fun _ => False) n.flattened := by
  induction orderly with
  | @leaf l known =>
    cases l with
    | unknown => exact absurd rfl known
    | _ => exact .leaf known
  | frame f _ ih => exact ih.bind fun _ orderly => .frame f orderly
  | seq _ _ ih =>
    rw [flattened, flattenedAll_eq]
    refine (Yields.mapM ih).bind fun children each => ?_
    have parts : ∀ m ∈ children.flatMap spliced, m.isSeq = false ∧ Orderly NoSeq m := by
      intro m mem
      obtain ⟨n, found, inside⟩ := mem_flatMap.mp mem
      exact spliced_flat (forall_of_forall₂ each n found) m inside
    exact .seq (fun m mem => (parts m mem).1) fun m mem => (parts m mem).2
  | attrs _ ih =>
    rw [flattened, flattenedAll_eq]
    exact (Yields.mapM ih).bind fun _ each => .attrs (forall_of_forall₂ each)
  | closed name _ ih =>
    rw [flattened, flattenedAll_eq]
    exact (Yields.mapM ih).bind fun _ each => .closed name (forall_of_forall₂ each)
  | tag name _ _ ihEntries ihBody =>
    rw [flattened, flattenedAll_eq]
    exact (Yields.mapM ihEntries).bind fun _ each => ihBody.bind fun _ body =>
      .tag name (forall_of_forall₂ each) body

theorem mapM_eq_self {f : Node → Except Failure Node} (each : ∀ n ∈ ns, f n = .ok n) :
    ns.mapM f = .ok ns := by
  induction ns with
  | nil => rfl
  | cons n ns ih =>
    rw [forall_mem_cons] at each
    rw [mapM_cons, each.1, ih each.2]
    rfl

theorem flattened_eq_self (orderly : Orderly NoSeq n) : n.flattened = .ok n := by
  induction orderly with
  | @leaf l known =>
    cases l with
    | unknown => exact absurd rfl known
    | _ => rfl
  | frame f _ ih => rw [flattened, ih]; rfl
  | @seq children flat _ ih =>
    have same : children.flatMap spliced = children := by
      calc children.flatMap spliced
          = children.flatMap (fun n => [n]) :=
            flatMap_congr fun n mem => spliced_of_not_isSeq (flat n mem)
        _ = children := flatMap_singleton' children
    rw [flattened, flattenedAll_eq, mapM_eq_self ih]
    exact congrArg (fun ns => Except.ok (seq ns)) same
  | attrs _ ih | closed name _ ih => rw [flattened, flattenedAll_eq, mapM_eq_self ih]; rfl
  | tag name _ _ ihEntries ihBody =>
    rw [flattened, flattenedAll_eq, mapM_eq_self ihEntries, ihBody]; rfl

/-! ## Texts that are apart -/

/-- Whether nodes begin with a static text, perhaps behind line marks. -/
def beginsWithText : List Node → Bool
  | .leaf .newline :: ns => beginsWithText ns
  | .leaf (.static _) :: _ => true
  | _ => false

theorem beginsWithText_iff : beginsWithText ns ↔
    ∃ marks text after, ns = replicate marks .newline ++ .static text :: after := by
  constructor
  · intro begins
    induction ns with
    | nil => nomatch begins
    | cons n ns ih =>
      unfold beginsWithText at begins
      split at begins
      next same =>
        cases same
        obtain ⟨marks, text, after, rfl⟩ := ih begins
        exact ⟨marks + 1, text, after, rfl⟩
      next text after same => exact ⟨0, text, after, same⟩
      next => nomatch begins
  · rintro ⟨marks, text, after, rfl⟩
    induction marks with
    | zero => rfl
    | succ marks ih => exact ih

theorem beginsWithText_append (breaks : n.breaksRun) (front ns : List Node) :
    beginsWithText (front ++ n :: ns) = beginsWithText front := by
  induction front with
  | nil =>
    cases n with
    | leaf l =>
      cases l with
      | newline | static => nomatch breaks
      | _ => rfl
    | _ => rfl
  | cons first front ih =>
    cases first with
    | leaf l =>
      cases l with
      | newline => exact ih
      | _ => rfl
    | _ => rfl

theorem settled_nil : Settled [] :=
  ⟨nofun, nofun, fun before _ _ _ _ same => by simp at same⟩

theorem settled_cons : Settled (n :: ns) ↔
    n.isSeq = false ∧ (∀ text, n = .static text → text ≠ [] ∧ beginsWithText ns = false) ∧
    Settled ns := by
  constructor
  · intro settled
    refine ⟨?_, ?_, ?_, ?_, ?_⟩
    · unfold isSeq
      split
      next inner => exact absurd (.head _) (settled.flat inner)
      next => rfl
    · rintro text rfl
      refine ⟨?_, ?_⟩
      · rintro rfl
        exact settled.inked (.head _)
      · rw [Bool.eq_false_iff]
        intro begins
        obtain ⟨marks, text', after, rfl⟩ := beginsWithText_iff.mp begins
        exact settled.apart [] text marks text' after rfl
    · exact fun inner mem => settled.flat inner (.tail _ mem)
    · exact fun mem => settled.inked (.tail _ mem)
    · rintro before text marks text' after rfl
      exact settled.apart (n :: before) text marks text' after rfl
  · rintro ⟨other, text, settled⟩
    refine ⟨?_, ?_, ?_⟩
    · intro inner mem
      rcases mem_cons.mp mem with rfl | mem
      · nomatch other
      · exact settled.flat inner mem
    · intro mem
      rcases mem_cons.mp mem with rfl | mem
      · exact (text [] rfl).1 rfl
      · exact settled.inked mem
    · intro before text₀ marks text' after same
      cases before with
      | nil =>
        obtain ⟨rfl, rfl⟩ := List.cons.inj same
        have begins := beginsWithText_iff.mpr ⟨marks, text', after, rfl⟩
        exact absurd begins (by rw [(text text₀ rfl).2]; exact Bool.false_ne_true)
      | cons first before =>
        exact settled.apart before text₀ marks text' after (List.cons.inj same).2

theorem Settled.append_cons (breaks : n.breaksRun) (other : n.isSeq = false) {front : List Node}
    (first : Settled front) (settled : Settled ns) : Settled (front ++ n :: ns) := by
  induction front with
  | nil =>
    refine settled_cons.mpr ⟨other, ?_, settled⟩
    rintro text rfl
    nomatch breaks
  | cons m front ih =>
    obtain ⟨flat, text, first⟩ := settled_cons.mp first
    refine settled_cons.mpr ⟨flat, fun t same => ⟨(text t same).1, ?_⟩, ih first⟩
    exact (beginsWithText_append breaks front ns).trans (text t same).2

theorem Settled.newline (settled : Settled ns) : Settled (.newline :: ns) :=
  settled_cons.mpr ⟨rfl, nofun, settled⟩

theorem Settled.newlines (marks : Nat) (settled : Settled ns) :
    Settled (replicate marks .newline ++ ns) := by
  induction marks with
  | zero => exact settled
  | succ marks ih => exact ih.newline

/-! ## Joining -/

theorem nodes_of_not_isSome {r : Run} (empty : ¬ r.text?.isSome) :
    r.nodes = replicate r.marks .newline := by
  unfold Run.nodes
  rw [Option.not_isSome_iff_eq_none.mp empty]
  rfl

theorem settled_run (r : Run) : Settled r.nodes := by
  have marks : Settled (replicate r.marks .newline) := by
    simpa using settled_nil.newlines r.marks
  have apart : beginsWithText (replicate r.marks .newline) = false := by
    induction r.marks with
    | zero => rfl
    | succ marks ih => exact ih
  unfold Run.nodes
  split
  next => exact marks
  next => exact marks
  next text ink _ =>
    refine settled_cons.mpr ⟨rfl, fun t same => ?_, marks⟩
    cases same
    exact ⟨ink, apart⟩

theorem orderly_run (r : Run) : ∀ n ∈ r.nodes, Orderly good n := by
  unfold Run.nodes
  refine forall_mem_append.mpr ⟨?_, ?_⟩
  · split
    · nofun
    · nofun
    · exact forall_mem_singleton.mpr (.leaf nofun)
  · intro n mem
    rw [eq_of_mem_replicate mem]
    exact .leaf nofun

/-- What joining makes of a node: a settled tree of the same kind. -/
structure Settles (n n' : Node) : Prop where
  breaks : n'.breaksRun = n.breaksRun
  isSeq : n'.isSeq = n.isSeq
  orderly : Orderly Settled n'

theorem joinedSeq_settled (flat : NoSeq ns)
    (each : ∀ n ∈ ns, Yields (Settles n) (fun _ => False) n.joined)
    (r : Run) : Yields (fun ns' => Settled ns' ∧ ∀ n ∈ ns', Orderly Settled n) (fun _ => False)
    (joinedSeq r ns) := by
  induction ns generalizing r with
  | nil => exact ⟨settled_run r, orderly_run r⟩
  | cons n ns ih =>
    unfold NoSeq at flat
    rw [forall_mem_cons] at flat each
    by_cases breaks : n.breaksRun
    · rw [joinedSeq_of_breaks breaks]
      refine each.1.bind fun n' first => (ih flat.2 each.2 {}).bind fun ns' rest => ?_
      refine ⟨?_,
        forall_mem_append.mpr ⟨orderly_run r, forall_mem_cons.mpr ⟨first.orderly, rest.2⟩⟩⟩
      exact (settled_run r).append_cons (by rw [first.breaks, breaks]) (by rw [first.isSeq, flat.1])
        rest.1
    · unfold breaksRun at breaks
      split at breaks
      next text => exact ih flat.2 each.2 (r.addText text)
      next =>
        rw [joinedSeq]
        split
        next => exact ih flat.2 each.2 _
        next empty =>
          refine (ih flat.2 each.2 {}).bind fun ns' rest => ?_
          refine ⟨?_,
            forall_mem_append.mpr ⟨orderly_run r, forall_mem_cons.mpr ⟨.leaf (by simp), rest.2⟩⟩⟩
          rw [nodes_of_not_isSome empty]
          exact rest.1.newline.newlines r.marks
      next => exact absurd rfl breaks

theorem joined_settles (orderly : Orderly NoSeq n) :
    Yields (Settles n) (fun _ => False) n.joined := by
  induction orderly with
  | @leaf l known =>
    cases l with
    | unknown => exact absurd rfl known
    | _ => exact ⟨rfl, rfl, .leaf known⟩
  | frame f _ ih => exact ih.bind fun _ inner => ⟨rfl, rfl, .frame f inner.orderly⟩
  | seq flat _ ih =>
    exact (joinedSeq_settled flat ih {}).bind fun _ rest => ⟨rfl, rfl, .seq rest.1 rest.2⟩
  | attrs _ ih =>
    rw [joined, joinedAll_eq]
    exact (Yields.mapM fun n mem => (ih n mem).mono (fun _ settles => settles.orderly) fun _
      never => never).bind
      fun _ each => ⟨rfl, rfl, .attrs (forall_of_forall₂ each)⟩
  | closed name _ ih =>
    rw [joined, joinedAll_eq]
    exact (Yields.mapM fun n mem => (ih n mem).mono (fun _ settles => settles.orderly) fun _
      never => never).bind
      fun _ each => ⟨rfl, rfl, .closed name (forall_of_forall₂ each)⟩
  | tag name _ _ ihEntries ihBody =>
    rw [joined, joinedAll_eq]
    exact (Yields.mapM fun n mem => (ihEntries n mem).mono (fun _ settles => settles.orderly)
      fun _ never => never).bind fun _ each => ihBody.bind fun _ body =>
        ⟨rfl, rfl, .tag name (forall_of_forall₂ each) body.orderly⟩

/-- Where texts are apart, a run takes up only line marks behind its text, and puts them back. -/
theorem joinedSeq_eq_self (settled : Settled ns) (each : ∀ n ∈ ns, n.joined = .ok n) {r : Run}
    (room : r = {} ∨ r.text?.isSome ∧ beginsWithText ns = false) :
    joinedSeq r ns = .ok (r.nodes ++ ns) := by
  induction ns generalizing r with
  | nil => rw [joinedSeq, append_nil]
  | cons n ns ih =>
    rw [forall_mem_cons] at each
    obtain ⟨-, apart, behind⟩ := settled_cons.mp settled
    have rest : ∀ r : Run, r = {} ∨ r.text?.isSome ∧ beginsWithText ns = false →
        joinedSeq r ns = .ok (r.nodes ++ ns) := fun r => ih behind each.2
    by_cases breaks : n.breaksRun
    · rw [joinedSeq_of_breaks breaks, each.1, rest {} (.inl rfl)]
      rfl
    · unfold breaksRun at breaks
      split at breaks
      next text =>
        obtain rfl | ⟨_, begins⟩ := room
        · cases text with
          | nil => exact absurd rfl (apart [] rfl).1
          | cons c t => exact rest ⟨some (c :: t), 0⟩ (.inr ⟨rfl, (apart (c :: t) rfl).2⟩)
        · cases begins
      next =>
        rw [joinedSeq]
        obtain rfl | ⟨known, begins⟩ := room
        · rw [if_neg (by simp), rest {} (.inl rfl)]
          rfl
        · rw [if_pos known, rest ⟨r.text?, r.marks + 1⟩ (.inr ⟨known, begins⟩)]
          simp [Run.nodes, replicate_succ']
      next => exact absurd rfl breaks

theorem joined_eq_self (orderly : Orderly Settled n) : n.joined = .ok n := by
  induction orderly with
  | @leaf l known =>
    cases l with
    | unknown => exact absurd rfl known
    | _ => rfl
  | frame f _ ih => rw [joined, ih]; rfl
  | seq settled _ ih => rw [joined, joinedSeq_eq_self settled ih (.inl rfl)]; rfl
  | attrs _ ih | closed name _ ih => rw [joined, joinedAll_eq, mapM_eq_self ih]; rfl
  | tag name _ _ ihEntries ihBody => rw [joined, joinedAll_eq, mapM_eq_self ihEntries, ihBody]; rfl

/-! ## Both steps -/

theorem Settled.noSeq {children : List Node} (settled : Settled children) : NoSeq children := by
  intro n mem
  unfold isSeq
  split
  next inner => exact absurd mem (settled.flat inner)
  next => rfl

theorem Orderly.mono {good' : List Node → Prop}
    (weaker : ∀ children, good children → good' children)
    (orderly : Orderly good n) : Orderly good' n :=
  .of_parts orderly.known fun children found => weaker children (orderly.each children found)

theorem compacted_orderly (known : .unknown ∉ n.parts) :
    ∃ small, n.compacted = .ok small ∧ Orderly Settled small := by
  have orderly : Orderly (fun _ => True) n := .of_parts known fun _ _ => trivial
  have both : Yields (Orderly Settled) (fun _ => False) n.compacted :=
    (flattened_noSeq orderly).bind fun _ flat =>
      (joined_settles flat).mono (fun _ settles => settles.orderly)
      fun _ never => never
  exact both.exists_ok

theorem compacted_eq_self (orderly : Orderly Settled n) : n.compacted = .ok n := by
  rw [compacted, flattened_eq_self (orderly.mono fun _ => Settled.noSeq)]
  exact joined_eq_self orderly

/-- Flattening a tree and joining its static texts gives a compact tree. The trees that are left as
they are, are the compact ones. -/
theorem compacted_isCompact {n : Node} (known : .unknown ∉ n.parts) :
    ∃ small, n.compacted = .ok small ∧ small.compacted = .ok small ∧ small.IsCompact ∧
      (n.IsCompact ↔ n.compacted = .ok n) := by
  obtain ⟨small, made, orderly⟩ := compacted_orderly known
  refine ⟨small, made, compacted_eq_self orderly, orderly.each, ?_, ?_⟩
  · intro compact
    exact compacted_eq_self (.of_parts known compact)
  · intro same
    rw [made] at same
    cases same
    exact orderly.each

/-- Texts in sequences of a tag, an attribute and a block, with empty ones and line marks. -/
def scatteredTexts : Node :=
  .seq [.seq [.static "a", .newline, .seq [.static [], .newline, .static "b"]],
    .tag "p" [.attr "c" (.escape true (.seq [.seq [.static "d"], .static "e"]))]
      (some (.seq [.newline, .static [], .seq []])),
    .static [], .newline, .block (.seq [.seq [.static "f", .newline], .dynamic "x", .static "g"])]

def gatheredTexts : Node :=
  .seq [.static "ab", .newline, .newline,
    .tag "p" [.attr "c" (.escape true (.seq [.static "de"]))] (some (.seq [.newline])),
    .newline, .block (.seq [.static "f", .newline, .dynamic "x", .static "g"])]

theorem compacted_isCompact_scattered :
    .unknown ∉ scatteredTexts.parts ∧ scatteredTexts.compacted = .ok gatheredTexts ∧
    gatheredTexts.compacted = .ok gatheredTexts ∧ gatheredTexts.IsCompact := by
  have known : .unknown ∉ scatteredTexts.parts := by decide
  have made : scatteredTexts.compacted = .ok gatheredTexts := by decide
  obtain ⟨small, same, again, compact, _⟩ := compacted_isCompact known
  rw [made] at same
  cases same
  exact ⟨known, made, again, compact⟩

end MarkupTemplate.Node
