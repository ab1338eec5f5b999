import MarkupTemplate.Options.Basic
import MarkupTemplate.Value.Basic

/-!
# Options from named values

Every option has two names, one with underscores and one in camel case; where both are given the
camel case one counts and the other is refused. Values of other types are taken where their meaning
is plain: a truth value may be a number or a word, a number may be a truth value or its digits. All
that is wrong is collected, each under the name that the caller used.
-/

namespace MarkupTemplate

/-! ## Faults -/

/-- What can be wrong with an option. -/
inductive OptionFault.Kind where
  | literalError
  /-- It is a number or a word that does not say yes or no. -/
  | boolParsing
  | boolType
  | intParsing
  | intFromFloat
  | intType
  | greaterThanEqual
  | stringType
  | listType
  | dictType
  | valueError
  /-- There is no such option, or it is given under its other name too. -/
  | extraForbidden
deriving DecidableEq, Repr

/-- The word for what is wrong. -/
def OptionFault.Kind.word : OptionFault.Kind → Text
  | .literalError => "literal_error"
  | .boolParsing => "bool_parsing"
  | .boolType => "bool_type"
  | .intParsing => "int_parsing"
  | .intFromFloat => "int_from_float"
  | .intType => "int_type"
  | .greaterThanEqual => "greater_than_equal"
  | .stringType => "string_type"
  | .listType => "list_type"
  | .dictType => "dict_type"
  | .valueError => "value_error"
  | .extraForbidden => "extra_forbidden"

/-- Something wrong with an option. -/
structure OptionFault where
  /-- The name of the option, perhaps with the position or key inside its value. -/
  location : Text
  kind : OptionFault.Kind
deriving DecidableEq, Repr

/-- A value that stands in for a wrong one, with what is wrong. -/
structure Checked (α : Type) where
  value : α
  faults : List OptionFault := []
deriving DecidableEq, Repr

namespace Options

/-- Options by name. -/
abbrev Given := List (Text × Value)

/-! ## Reading a value -/

/-- A value that is refused. -/
def wrong {α : Type} (standIn : α) (location : Text) (kind : OptionFault.Kind) : Checked α :=
  ⟨standIn, [⟨location, kind⟩]⟩

/-- The words for no. -/
def noWords : List Text :=
  ["0", "f", "n", "no", "off", "false"].map String.toList

/-- The words for yes. -/
def yesWords : List Text :=
  ["1", "t", "y", "yes", "on", "true"].map String.toList

/-- Reads a truth value: also the numbers zero and one, and words for yes and no in any case. -/
def readBool (location : Text) : Value → Checked Bool
  | .bool b => ⟨b, []⟩
  | .int 0 => ⟨false, []⟩
  | .int 1 => ⟨true, []⟩
  | .int _ => wrong false location .boolParsing
  | .decimal d =>
    match d.toInt? with
    | some 0 => ⟨false, []⟩
    | some 1 => ⟨true, []⟩
    | _ => wrong false location .boolType
  | .text t | .markup t | .rich t _ =>
    let word := t.map Char.toLower
    if noWords.contains word then ⟨false, []⟩
    else if yesWords.contains word then ⟨true, []⟩
    else wrong false location .boolParsing
  | .none | .list _ | .tuple _ | .dict _ => wrong false location .boolType

/-- The number of digits that may have single underscores between them. -/
def readDigits? (t : Text) : Option Nat :=
  if (Text.split '_' t).any List.isEmpty then none
  else Decimal.natOfDigits? (t.filter (· != '_'))

/-- The number of a text of digits, perhaps with a sign and with decimal places that are zero. -/
def readInt? (t : Text) : Option Int :=
  let (negative, t) := match Text.trim t with
    | '-' :: t => (true, t)
    | '+' :: t => (false, t)
    | t => (false, t)
  let whole? := match Text.split '.' t with
    | [whole] => readDigits? whole
    | [whole, fraction] =>
      if fraction.all (· == '0') then readDigits? whole else none
    | _ => none
  whole?.map fun n => if negative then -(n : Int) else n

/-- Refuses negative numbers. -/
def checkNat (location : Text) (n : Int) : Checked Nat :=
  if n < 0 then wrong 0 location .greaterThanEqual else ⟨n.toNat, []⟩

/-- Reads a number: also a truth value, a decimal number without decimal places, and digits. -/
def readNat (location : Text) : Value → Checked Nat
  | .int n => checkNat location n
  | .bool b => ⟨if b then 1 else 0, []⟩
  | .decimal d =>
    match d.toInt? with
    | some n => checkNat location n
    | none => wrong 0 location .intFromFloat
  | .text t | .markup t | .rich t _ =>
    match readInt? t with
    | some n => checkNat location n
    | none => wrong 0 location .intParsing
  | .none | .list _ | .tuple _ | .dict _ => wrong 0 location .intType

/-- Reads a text. -/
def readText (location : Text) : Value → Checked Text
  | .text t | .markup t | .rich t _ => ⟨t, []⟩
  | _ => wrong [] location .stringType

/-- Reads a text, or nothing. -/
def readText? (location : Text) : Value → Checked (Option Text)
  | .none => ⟨none, []⟩
  | v => let read := readText location v; ⟨some read.value, read.faults⟩

/-- Reads one of some words. -/
def readWord {α : Type} (words : List (Text × α)) (standIn : α) (location : Text)
    (v : Value) : Checked α :=
  match v.asText?.bind (words.lookup ·) with
  | some found => ⟨found, []⟩
  | none => wrong standIn location .literalError

/-- Reads a quote. -/
def readQuote (location : Text) (v : Value) : Checked AttrQuote :=
  match v.asText? with
  | none => wrong .double location .stringType
  | some t =>
    if t = ['"'] then ⟨.double, []⟩
    else if t = ['\''] then ⟨.single, []⟩
    else wrong .double location .valueError

/-- The location of a part of a value. -/
def inside (location place : Text) : Text :=
  location ++ '.' :: place

/-- Reads the texts of a list from a place on. -/
def readItems (location : Text) : (i : Nat) → List Value → Checked (List Text)
  | _, [] => ⟨[], []⟩
  | i, v :: vs =>
    let first := readText (inside location (Text.ofNat i)) v
    let rest := readItems location (i + 1) vs
    ⟨first.value :: rest.value, first.faults ++ rest.faults⟩

/-- Reads a list of texts. -/
def readTexts (location : Text) : Value → Checked (List Text)
  | .list items => readItems location 0 items
  | .tuple items => readItems location 0 items
  | _ => wrong [] location .listType

/-- Reads a list of texts, or nothing. -/
def readTexts? (location : Text) : Value → Checked (Option (List Text))
  | .none => ⟨none, []⟩
  | v => let read := readTexts location v; ⟨some read.value, read.faults⟩

/-- Reads the texts of a dictionary. -/
def readEntries (location : Text) : Given → Checked (List (Text × Text))
  | [] => ⟨[], []⟩
  | (key, v) :: entries =>
    let first := readText (inside location key) v
    let rest := readEntries location entries
    ⟨(key, first.value) :: rest.value, first.faults ++ rest.faults⟩

/-- Reads a dictionary of texts. -/
def readDict (location : Text) : Value → Checked (List (Text × Text))
  | .dict entries => readEntries location entries
  | _ => wrong [] location .dictType

/-! ## Names -/

/-- The two names of an option. -/
structure Key where
  name : Text
  camel : Text
deriving DecidableEq, Repr

/-- The key with two names. -/
def Key.of (name camel : String) : Key :=
  ⟨name.toList, camel.toList⟩

/-- Finds an option under either name. -/
def Key.find? (key : Key) (given : Given) : Option (Text × Value) :=
  match given.lookup key.camel with
  | some v => some (key.camel, v)
  | none => (given.lookup key.name).map fun v => (key.name, v)

/-! ## Records -/

/-- The formats by word. -/
def formats : List (Text × Format) :=
  [Format.html5, .html4, .xhtml].map fun f => (f.word, f)

/-- The strategies by word. -/
def strategies : List (Text × Strategy) :=
  [Strategy.array, .string].map fun s => (s.word, s)

/-- The value for a list of texts. -/
def textsValue (ts : List Text) : Value :=
  .list (ts.map .text)

/-- The options, one by one. -/
inductive Field where
  | file | format | escapeHtml | tabSize | encoding | pretty | indent | attrQuote | sortAttrs
  | sortAttrKeys | overrideAttrs | mergeAttrs | enableEngines | disableEngines | disableCapture
  | streaming | generator
deriving DecidableEq

namespace Field

/-- The options in their order. -/
def all : List Field :=
  [file, format, escapeHtml, tabSize, encoding, pretty, indent, attrQuote, sortAttrs, sortAttrKeys,
   overrideAttrs, mergeAttrs, enableEngines, disableEngines, disableCapture, streaming, generator]

/-- The names of an option. -/
def key : Field → Key
  | file => .of "file" "sourceFile"
  | format => .of "format" "format"
  | escapeHtml => .of "escape_html" "escapeHtml"
  | tabSize => .of "tab_size" "tabSize"
  | encoding => .of "encoding" "encoding"
  | pretty => .of "pretty" "prettyPrint"
  | indent => .of "indent" "indentWidth"
  | attrQuote => .of "attr_quote" "attrQuoteChar"
  | sortAttrs => .of "sort_attrs" "sortAttrs"
  | sortAttrKeys => .of "sort_attr_keys" "sortAttrKeys"
  | overrideAttrs => .of "override_attrs" "overrideAttrs"
  | mergeAttrs => .of "merge_attrs" "mergeAttrs"
  | enableEngines => .of "enable_engines" "enableEngines"
  | disableEngines => .of "disable_engines" "disableEngines"
  | disableCapture => .of "disable_capture" "disableCapture"
  | streaming => .of "streaming" "streaming"
  | generator => .of "generator" "generator"

/-- The type of the values of an option. -/
def Of : Field → Type
  | file => Option Text
  | format => Format
  | escapeHtml | pretty | sortAttrs | disableCapture | streaming => Bool
  | tabSize | indent => Nat
  | encoding => Text
  | attrQuote => AttrQuote
  | sortAttrKeys | overrideAttrs => List Text
  | mergeAttrs => List (Text × Text)
  | enableEngines | disableEngines => Option (List Text)
  | generator => Strategy

/-- The value of an option in a record. -/
def get : (f : Field) → Options → f.Of
  | file => Options.file
  | format => Options.format
  | escapeHtml => Options.escapeHtml
  | tabSize => Options.tabSize
  | encoding => Options.encoding
  | pretty => Options.pretty
  | indent => Options.indent
  | attrQuote => Options.attrQuote
  | sortAttrs => Options.sortAttrs
  | sortAttrKeys => Options.sortAttrKeys
  | overrideAttrs => Options.overrideAttrs
  | mergeAttrs => Options.mergeAttrs
  | enableEngines => Options.enableEngines
  | disableEngines => Options.disableEngines
  | disableCapture => Options.disableCapture
  | streaming => Options.streaming
  | generator => Options.generator

/-- Reads the value of an option. -/
def read : (f : Field) → Text → Value → Checked f.Of
  | file => readText?
  | format => readWord formats .html5
  | escapeHtml | pretty | sortAttrs | disableCapture | streaming => readBool
  | tabSize | indent => readNat
  | encoding => readText
  | attrQuote => readQuote
  | sortAttrKeys | overrideAttrs => readTexts
  | mergeAttrs => readDict
  | enableEngines | disableEngines => readTexts?
  | generator => readWord strategies .array

/-- Writes the value of an option. -/
def write : (f : Field) → f.Of → Value
  | file => fun file? : Option Text => file?.elim .none .text
  | format => fun format : Format => .text format.word
  | escapeHtml | pretty | sortAttrs | disableCapture | streaming => .bool
  | tabSize | indent => fun n : Nat => .int n
  | encoding => .text
  | attrQuote => fun quote : AttrQuote => .text [quote.char]
  | sortAttrKeys | overrideAttrs => textsValue
  | mergeAttrs =>
    fun entries : List (Text × Text) =>
      .dict (entries.map fun (name, delimiter) => (name, .text delimiter))
  | enableEngines | disableEngines =>
    fun texts? : Option (List Text) => texts?.elim .none textsValue
  | generator => fun strategy : Strategy => .text strategy.word

/-- The value that is given for an option, or its default. -/
def check (f : Field) (given : Given) : Checked f.Of :=
  match f.key.find? given with
  | some (used, v) => f.read used v
  | none => ⟨f.get {}, []⟩

end Field

/-- The record with a given value for each option. -/
def ofFields (value : (f : Field) → f.Of) : Options where
  file := value .file
  format := value .format
  escapeHtml := value .escapeHtml
  tabSize := value .tabSize
  encoding := value .encoding
  pretty := value .pretty
  indent := value .indent
  attrQuote := value .attrQuote
  sortAttrs := value .sortAttrs
  sortAttrKeys := value .sortAttrKeys
  overrideAttrs := value .overrideAttrs
  mergeAttrs := value .mergeAttrs
  enableEngines := value .enableEngines
  disableEngines := value .disableEngines
  disableCapture := value .disableCapture
  streaming := value .streaming
  generator := value .generator

/-- Whether some option is read from a name. -/
def isUsed (given : Given) (name : Text) : Bool :=
  Field.all.any fun f => (f.key.find? given).any fun found => found.1 == name

/-- The faults of names that are not used. -/
def strayFaults (given : Given) : List OptionFault :=
  (given.filter fun entry => !isUsed given entry.1).map fun entry => ⟨entry.1, .extraForbidden⟩

/-- Reads a record, with all faults. -/
def check (given : Given) : Checked Options where
  value := ofFields fun f => (f.check given).value
  faults := Field.all.flatMap (fun f => (f.check given).faults) ++ strayFaults given

/-- Builds a record, unless there are faults. -/
def build (given : Given) : Except (List OptionFault) Options :=
  let checked := check given
  if checked.faults.isEmpty then .ok checked.value else .error checked.faults

/-- Writes a record. -/
def toGiven (o : Options) : Given :=
  Field.all.map fun f => (f.key.name, f.write (f.get o))

/-- Gives a name a value. -/
def Given.put (given : Given) (name : Text) (v : Value) : Given :=
  if (given.lookup name).isSome then given.map fun entry => if entry.1 = name then (name, v)
    else entry
  else given ++ [(name, v)]

/-- Puts overrides over a mapping. -/
def Given.update (given overrides : Given) : Given :=
  overrides.foldl (fun given (name, v) => given.put name v) given

/-- Puts overrides over a record. -/
def merged (o : Options) (overrides : Given) : Except (List OptionFault) Options :=
  build (Given.update o.toGiven overrides)

end Options

end MarkupTemplate
