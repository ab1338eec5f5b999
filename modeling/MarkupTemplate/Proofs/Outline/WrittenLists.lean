import MarkupTemplate.Proofs.Attribute.Written

/-!
# Attribute lists in a template

A list of attributes is read back as it was written, in either notation, over as many lines as its
gaps have line breaks (`readAll_write`). Behind it the tag goes on with these entries and a line
mark for each line break.
-/

namespace MarkupTemplate

open Attribute

/-- The place behind a text that starts behind `front` in line `number`, before `tail`. -/
def Spot.behind (number : Nat) (front t tail : Text) : Spot :=
  ⟨number + t.count '\n', (front ++ t).rtakeWhile (· != '\n'), tail.takeWhile (· != '\n')⟩

namespace Outline

theorem readAll_eq (s : Spot) (ahead : List Text) :
    readAll s ahead = Attribute.read s >>= fun reading => readAcross reading ahead := by
  rw [readAll]
  cases Attribute.read s with
  | error fault | ok reading => rfl

theorem tag_eq (s : State) (name : Text) (spot : Spot) :
    tag s name spot = Attribute.read spot >>= fun reading => tagAttributes s name 0 reading := by
  rw [tag]
  cases Attribute.read spot with
  | error fault | ok reading => rfl

theorem resumes_readAcross (start : Nat) : Resumes start fun _ => readAcross := by
  intro count form entries done line ahead
  change readAcross (.continues form entries ⟨start + count, done, []⟩) (line :: ahead) = _
  rw [readAcross, ← Nat.add_assoc]
  cases resume form entries (start + count + 1) line with
  | error fault | ok reading => rfl

/-- The lines behind a tag, as far as its attributes have been read at the end of a line. -/
def goOn (o : Options) (s : State) (name : Text) (count : Nat) (reading : Reading)
    (ahead : List Text) : Except Fault State :=
  tagAttributes { s with number := s.number + count } name count reading >>= fun s' =>
    ahead.foldlM (step o) s'

theorem resumes_goOn (o : Options) (s : State) (name : Text) :
    Resumes s.number (goOn o s name) := by
  intro count form entries done line ahead
  have stepped : step o ⟨s.number + count, s.layout,
    .attributes form entries ⟨s.number + count, done, []⟩ name count⟩ line =
      resume form entries (s.number + (count + 1)) line >>= fun reading =>
        tagAttributes { s with number := s.number + (count + 1) } name (count + 1) reading := by
    simp only [step, Nat.add_assoc]
    cases resume form entries (s.number + (count + 1)) line with
    | error fault | ok reading => rfl
  calc goOn o s name count (.continues form entries ⟨s.number + count, done, []⟩) (line :: ahead)
    _ = step o ⟨s.number + count, s.layout,
      .attributes form entries ⟨s.number + count, done, []⟩ name count⟩ line >>=
          fun s' => ahead.foldlM (step o) s' := rfl
    _ = resume form entries (s.number + (count + 1)) line >>= fun reading =>
      goOn o s name (count + 1) reading ahead := by
      rw [stepped, bind_assoc]
      rfl

/-- Attributes that are written as a list, in either notation, are read back in order up to the
closing delimiter, over all lines of the list. In a template the tag then goes on behind the
delimiter with these entries and a line mark for each line break in the list, and the lines behind
the list follow. -/
theorem readAll_write {form : ListForm} {first : Attribute.Item}
    {more : List (Text × Attribute.Item)} {number : Nat}
    {front tail line : Text} {ahead : List Text} (writable : first.Writable form)
    (follows : MayFollow form first.given more) (oneLine : '\n' ∉ front)
    (lines : Text.split '\n' (write form first more ++ tail) = line :: ahead) :
    readAll ⟨number, front, line⟩ ahead =
      .ok (first.node :: more.map fun (_, i) => i.node,
        Spot.behind number front (write form first more) tail) ∧
    ∀ (o : Options) (s : State) (name : Text), s.number = number →
      (tag s name ⟨number, front, line⟩ >>= fun s' => ahead.foldlM (step o) s') =
        (tagEnd { s with number := number + (write form first more).count '\n' } name
            (first.node :: more.map fun (_, i) => i.node) ((write form first more).count '\n')
            (Spot.behind number front (write form first more) tail) >>= fun s' =>
          (Text.split '\n' tail).tail.foldlM (step o) s') := by
  rw [Text.split_eq] at lines
  obtain ⟨rfl, rfl⟩ := List.cons.inj lines
  rw [Spot.behind, ← Text.behind_eq oneLine]
  constructor
  · rw [readAll_eq]
    exact (read_write (resumes_readAcross number) writable follows front tail).trans
      (by rw [readAcross]; rfl)
  · rintro o s name rfl
    rw [tag_eq, bind_assoc]
    exact read_write (resumes_goOn o s name) writable follows front tail

/-! ## Lists of two notations -/

/-- A code with a bracket in a bracket, and terminators of both notations inside. -/
def sampleCode : Text :=
  "f(1, [x])"

def sampleFirst : Attribute.Item :=
  ⟨"a", .code sampleCode⟩

/-- Attributes behind the first, with a line break and without. -/
def sampleMore : List (Text × Attribute.Item) :=
  [("\n\t ", ⟨"data-b", .quoted '"' "it's, ok)"⟩), (" ", ⟨"c:d", .code "g"⟩)]

theorem sampleCode_isListCode (form : ListForm) : IsListCode form sampleCode := by
  have goesOn : form.isTerminator 'f' = false := by
    cases form with
    | markup | host => rfl
  have inner : Balanced (· == ')') "1, [x]" :=
    .char rfl (by decide) rfl <| .char rfl (by decide) rfl <| .char rfl (by decide) rfl <|
      @Balanced.bracket _ '[' ']' ['x'] [] (by decide) (.char rfl (by decide) rfl .nil) .nil
  refine ⟨by decide, ?_, ?_, ?_, ?_, by decide⟩
  · rintro c ⟨⟩
    rfl
  · rintro c ⟨⟩
    rfl
  · rintro c ⟨⟩
    rfl
  · exact .char rfl (by decide) goesOn
      (@Balanced.bracket _ '(' ')' "1, [x]" [] (by decide) inner .nil)

theorem sample_writable (form : ListForm) :
    sampleFirst.Writable form ∧ MayFollow form sampleFirst.given sampleMore := by
  have isName : ∀ name ∈ ["a", "data-b", "c:d"], IsAttrName name := by
    simp only [List.forall_mem_cons]
    exact ⟨⟨by decide, List.all_eq_true.mp (by decide)⟩,
      ⟨by decide, List.all_eq_true.mp (by decide)⟩,
      ⟨by decide, List.all_eq_true.mp (by decide)⟩, nofun⟩
  have goesOn : form.isTerminator 'g' = false := by
    cases form with
    | markup | host => rfl
  have last : IsListCode form "g" := by
    refine ⟨by decide, ?_, ?_, ?_, .char rfl (by decide) goesOn .nil, by decide⟩
    · rintro c ⟨⟩
      rfl
    · rintro c ⟨⟩
      rfl
    · rintro c ⟨⟩
      rfl
  have noHash : '#' ∉ "it's, ok)".toList := by decide
  have text : IsQuotable '"' "it's, ok)" :=
    ⟨rfl, by decide, by decide, fun inside => noHash (inside.subset List.mem_cons_self), by decide⟩
  refine ⟨⟨isName _ (by decide), sampleCode_isListCode form⟩,
    .cons rfl ?_ ⟨isName _ (by decide), text⟩
    (.cons rfl nofun ⟨isName _ (by decide), last⟩ .nil)⟩
  exact fun _ _ => ⟨'\n', by decide, .inr (.inr rfl)⟩

theorem readAll_write_sample :
    readAll (Spot.start 1 "(a=f(1, [x])".toList) ["\t data-b=\"it's, ok)\" c:d=g) t".toList] =
        .ok ([codeEntry "a".toList sampleCode, textEntry "data-b".toList "it's, ok)".toList,
          codeEntry "c:d".toList "g".toList],
          ⟨2, "\t data-b=\"it's, ok)\" c:d=g)".toList, " t".toList⟩) ∧
      readAll (Spot.start 1 "\x7b:a => f(1, [x]),".toList)
      ["\t :data-b => \"it's, ok)\", :c:d => g\x7d t".toList] =
        .ok ([codeEntry "a".toList sampleCode, textEntry "data-b".toList "it's, ok)".toList,
          codeEntry "c:d".toList "g".toList],
          ⟨2, "\t :data-b => \"it's, ok)\", :c:d => g\x7d".toList, " t".toList⟩) := by
  obtain ⟨writable, follows⟩ := sample_writable .markup
  obtain ⟨writable', follows'⟩ := sample_writable .host
  have lines : Text.split '\n' (write .markup sampleFirst sampleMore ++ " t".toList) =
      ["(a=f(1, [x])".toList, "\t data-b=\"it's, ok)\" c:d=g) t".toList] := by decide
  have lines' : Text.split '\n' (write .host sampleFirst sampleMore ++ " t".toList) =
      ["\x7b:a => f(1, [x]),".toList, "\t :data-b => \"it's, ok)\", :c:d => g\x7d t".toList] := by
        decide
  have place : Spot.behind 1 [] (write .markup sampleFirst sampleMore) " t".toList =
      ⟨2, "\t data-b=\"it's, ok)\" c:d=g)".toList, " t".toList⟩ := by decide
  have place' : Spot.behind 1 [] (write .host sampleFirst sampleMore) " t".toList =
      ⟨2, "\t :data-b => \"it's, ok)\", :c:d => g\x7d".toList, " t".toList⟩ := by decide +kernel
  have read := (@readAll_write _ _ _ 1 _ _ _ _ writable follows List.not_mem_nil lines).1
  have read' := (@readAll_write _ _ _ 1 _ _ _ _ writable' follows' List.not_mem_nil lines').1
  rw [place] at read
  rw [place'] at read'
  exact ⟨read, read'⟩

/-- A code with a line break between brackets is not read back, and neither is a code of the markup
notation with another blank behind it than a space, a tab or a line break. -/
theorem readAll_unlike_written :
    (Text.split '\n' "(a=f(1,\n2))".toList = ["(a=f(1,".toList, "2))".toList] ∧
      Balanced ListForm.markup.isTerminator "f(1,\n2)".toList ∧
      readAll (Spot.start 1 "(a=f(1,".toList) ["2))".toList] =
        .error ⟨.unclosedList ')', ⟨1, "(a=".toList, "f(1,".toList⟩⟩) ∧
    (Text.isBlank '\x0c' ∧
      readAll (Spot.start 1 "(a=x\x0cb=y)".toList) [] =
        .ok ([codeEntry "a".toList "x\x0cb=y".toList], ⟨1, "(a=x\x0cb=y)".toList, []⟩)) := by
  refine ⟨⟨by decide, ?_, by decide +kernel⟩, by decide, by decide +kernel⟩
  refine .char rfl (by decide) rfl
    (@Balanced.bracket _ '(' ')' "1,\n2".toList [] (by decide) ?_ .nil)
  exact .char rfl (by decide) rfl <| .char rfl (by decide) rfl <| .char rfl (by decide) rfl <|
    .char rfl (by decide) rfl .nil

end Outline

end MarkupTemplate
