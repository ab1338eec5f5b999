import MarkupTemplate.Text.Basic

/-!
# Decoding bytes

A template may be given as bytes. Its encoding is chosen by name; letter case and the signs
between the parts of the name do not matter. Bytes that the encoding cannot hold are refused at the
first byte of the first sequence that is wrong. No bytes at all are an empty text under every name.
-/

namespace MarkupTemplate

/-- The encodings of templates. -/
inductive Encoding where
  | utf8
  /-- The same, with a mark in front that is left out. -/
  | utf8Signed
  | ascii
  | latin1
  /-- Units of two bytes, high byte first if `high` is set. -/
  | utf16 (high : Bool)
deriving DecidableEq, Repr

namespace Encoding

/-- Why bytes are refused. -/
inductive Reason where
  | invalidStart
  | invalidContinuation
  | unexpectedEnd
  | notAscii
  | truncated
  /-- The second half of a pair stands without the first. -/
  | illegalEncoding
  /-- The first half of a pair stands without the second. -/
  | illegalSurrogate
deriving DecidableEq, Repr

/-- The message for a reason. -/
def Reason.message : Reason → Text
  | .invalidStart => "invalid start byte"
  | .invalidContinuation => "invalid continuation byte"
  | .unexpectedEnd => "unexpected end of data"
  | .notAscii => "ordinal not in range(128)"
  | .truncated => "truncated data"
  | .illegalEncoding => "illegal encoding"
  | .illegalSurrogate => "illegal UTF-16 surrogate"

/-- Why and where bytes are refused. -/
structure Refusal where
  reason : Reason
  /-- How many bytes come before the sequence that is wrong. -/
  offset : Nat
deriving DecidableEq, Repr

/-! ## Names -/

/-- A name in small letters and digits, with an underscore for whatever is between its parts. -/
def normalName (name : Text) : Text :=
  (name.foldl (fun (found, gap) c =>
    if c.isAlphanum || c == '.' then
      (found ++ (if gap && !found.isEmpty then ['_'] else []) ++ [c.toLower], false)
    else (found, true)) (([] : Text), false)).1

/-- The encodings by name. -/
def names : List (Text × Encoding) :=
  [("utf_8", .utf8), ("utf8", .utf8), ("utf", .utf8), ("u8", .utf8),
   ("utf_8_sig", .utf8Signed),
   ("ascii", .ascii), ("us_ascii", .ascii), ("us", .ascii),
   ("646", .ascii),
   ("latin_1", .latin1), ("latin1", .latin1), ("latin", .latin1),
   ("l1", .latin1), ("iso_8859_1", .latin1), ("iso8859_1", .latin1),
   ("8859", .latin1), ("iso8859", .latin1), ("cp819", .latin1),
   ("utf_16_le", .utf16 false), ("utf_16le", .utf16 false),
   ("utf_16_be", .utf16 true), ("utf_16be", .utf16 true)]

/-- The encoding with a name. -/
def ofName? (name : Text) : Option Encoding :=
  names.lookup (normalName name)

/-! ## Bytes -/

/-- Puts a character in front. -/
def consCode (code : Nat) (t : Except Refusal Text) : Except Refusal Text :=
  t.map (Char.ofNat code :: ·)

/-- Whether a byte goes on with a sequence. -/
def isTail (b : Nat) : Bool :=
  0x80 ≤ b && b < 0xC0

/-- Whether a byte may be the second one of a sequence of three that starts with `a`. -/
def isSecondOfThree (a b : Nat) : Bool :=
  isTail b && !(a == 0xE0 && b < 0xA0) && !(a == 0xED && 0xA0 ≤ b)

/-- Whether a byte is second of four. -/
def isSecondOfFour (a b : Nat) : Bool :=
  isTail b && !(a == 0xF0 && b < 0x90) && !(a == 0xF4 && 0x90 ≤ b)

/-- Decodes bytes from a place on. -/
def decodeUtf8 : (i : Nat) → List Nat → Except Refusal Text
  | _, [] => .ok []
  | i, a :: t =>
    if a < 0x80 then consCode a (decodeUtf8 (i + 1) t)
    else if a < 0xC2 then .error ⟨.invalidStart, i⟩
    else if a < 0xE0 then
      match t with
      | [] => .error ⟨.unexpectedEnd, i⟩
      | b :: t =>
        if isTail b then consCode ((a - 0xC0) * 0x40 + (b - 0x80)) (decodeUtf8 (i + 2) t)
        else .error ⟨.invalidContinuation, i⟩
    else if a < 0xF0 then
      match t with
      | [] => .error ⟨.unexpectedEnd, i⟩
      | b :: t =>
        if isSecondOfThree a b then
          match t with
          | [] => .error ⟨.unexpectedEnd, i⟩
          | c :: t =>
            if isTail c then
              consCode ((a - 0xE0) * 0x1000 + (b - 0x80) * 0x40 + (c - 0x80))
                (decodeUtf8 (i + 3) t)
            else .error ⟨.invalidContinuation, i⟩
        else .error ⟨.invalidContinuation, i⟩
    else if a < 0xF5 then
      match t with
      | [] => .error ⟨.unexpectedEnd, i⟩
      | b :: t =>
        if isSecondOfFour a b then
          match t with
          | [] => .error ⟨.unexpectedEnd, i⟩
          | c :: t =>
            if isTail c then
              match t with
              | [] => .error ⟨.unexpectedEnd, i⟩
              | d :: t =>
                if isTail d then
                  consCode
                    ((a - 0xF0) * 0x40000 + (b - 0x80) * 0x1000 + (c - 0x80) * 0x40 + (d - 0x80))
                    (decodeUtf8 (i + 4) t)
                else .error ⟨.invalidContinuation, i⟩
            else .error ⟨.invalidContinuation, i⟩
        else .error ⟨.invalidContinuation, i⟩
    else .error ⟨.invalidStart, i⟩

/-- Decodes ASCII from a place on. -/
def decodeAscii : (i : Nat) → List Nat → Except Refusal Text
  | _, [] => .ok []
  | i, a :: t => if a < 0x80 then consCode a (decodeAscii (i + 1) t) else .error ⟨.notAscii, i⟩

/-- A unit of two bytes. -/
def unit (high : Bool) (a b : Nat) : Nat :=
  if high then a * 0x100 + b else b * 0x100 + a

/-- Decodes units from a place on. -/
def decodeUtf16 (high : Bool) : (i : Nat) → List Nat → Except Refusal Text
  | _, [] => .ok []
  | i, [_] => .error ⟨.truncated, i⟩
  | i, a :: b :: t =>
    let u := unit high a b
    if u < 0xD800 || 0xE000 ≤ u then consCode u (decodeUtf16 high (i + 2) t)
    else if 0xDC00 ≤ u then .error ⟨.illegalEncoding, i⟩
    else
      match t with
      | c :: d :: t =>
        let v := unit high c d
        if 0xDC00 ≤ v && v < 0xE000 then
          consCode (0x10000 + (u - 0xD800) * 0x400 + (v - 0xDC00)) (decodeUtf16 high (i + 4) t)
        else .error ⟨.illegalSurrogate, i⟩
      | _ => .error ⟨.unexpectedEnd, i⟩

/-- Decodes bytes. -/
def decode (encoding : Encoding) (bytes : List Nat) : Except Refusal Text :=
  match encoding with
  | .utf8 => decodeUtf8 0 bytes
  | .utf8Signed =>
    match bytes with
    | 0xEF :: 0xBB :: 0xBF :: bytes => decodeUtf8 0 bytes
    | bytes => decodeUtf8 0 bytes
  | .ascii => decodeAscii 0 bytes
  | .latin1 => .ok (bytes.map Char.ofNat)
  | .utf16 high => decodeUtf16 high 0 bytes

end Encoding

end MarkupTemplate
