import YulToolchain.Text.Bytes
import YulToolchain.Text.Hex
import YulToolchain.Word

/-!
# Literals

Literals keep the text they were written with, and denote a word.

A number is read digit by digit, past underscores, and the first fault that is
met decides. Which one that is depends on the direction. Hexadecimal digits are
read from the last to the first, each with its place value, so that a digit does
not fit as soon as it is met. Decimal digits are read from the first to the last
in groups as long as 64 bits can hold, and only whole groups are held against
the size of a word, so a bad digit is met before a number that gets too large in
the same group. A string denotes the word whose leading bytes are its own, after
its escapes are resolved.

Numbers that a pass produces are written in decimal below `2^32` and in
hexadecimal from there on (`Literal.number`).

## Main definitions

* `Literal`: The text, kind and type of a literal.
* `LiteralFault`: Why a literal denotes nothing.
* `readHexadecimal`, `readDecimal`: The two ways to read digits.
* `readNumber`: The number a text denotes.
* `unescape`: The bytes a string text denotes.
* `Literal.value`: The word a literal denotes.
* `Literal.number`: The literal written for a word.
-/

namespace YulToolchain

/-- The three kinds of literals. -/
inductive LiteralKind where
  | number
  | boolean
  | string
deriving DecidableEq, Repr, Inhabited

/-- A literal as it is written. -/
structure Literal where
  /-- The line it stands on. -/
  line : Nat
  /-- Its kind. -/
  kind : LiteralKind
  /-- Its text. The text of a string is what stands between the quotes, with
      its escapes. -/
  text : String
  /-- The name of its type, empty if none was written. -/
  type : String
deriving DecidableEq, Repr, Inhabited

/-- Why a text is no number. -/
inductive NumberFault where
  /-- A character is no digit of the base. It is reported by that byte of it
      which is met first. -/
  | badDigit (c : Char)
  /-- The number does not fit into a word. -/
  | tooLarge
deriving DecidableEq

/-- Why a literal denotes nothing. -/
inductive LiteralFault where
  /-- The text of a number is malformed. -/
  | number (text : String) (why : NumberFault)
  /-- A string has more bytes than a word. -/
  | tooLong (length : Nat)
  /-- The two bytes of an escape end inside a character, which starts at the
      given one of them. -/
  | splitCharacter (index : Nat)
  /-- The two bytes of an escape are no hexadecimal digits. -/
  | badHexEscape (digits : String) (why : Hex.Fault)
  /-- No escape has this letter. It is reported by its first byte. -/
  | unknownEscape (c : Char)
  /-- The text ends in the middle of an escape. -/
  | unfinishedEscape
deriving DecidableEq

namespace NumberFault

/-- The wordings of a fault, outermost first. -/
def messages : NumberFault → List String
  | badDigit c => ["invalid digit: " ++ String.singleton c]
  | tooLarge =>
    ["the value is too large to fit the target type",
      "the value is too large to fit the target type"]

end NumberFault

namespace LiteralFault

/-- The outermost wording of a fault. -/
def message : LiteralFault → String
  | number text _ => "Invalid number literal " ++ text
  | tooLong length => "String literal too long (" ++ toString length ++ " > 32)"
  | splitCharacter index => "incomplete utf-8 byte sequence from index " ++ toString index
  | badHexEscape digits _ => "Invalid escape \\x" ++ digits
  | unknownEscape c => "Invalid escape sequence \\" ++ String.singleton c
  | unfinishedEscape => "Unterminated escape sequence"

/-- The wordings of what lies behind the outermost one. -/
def causes : LiteralFault → List String
  | number _ why => why.messages
  | badHexEscape _ why => [why.message]
  | _ => []

/-- All wordings of a fault, outermost first. -/
def messages (f : LiteralFault) : List String := f.message :: f.causes

end LiteralFault

/-- Reads hexadecimal digits from the last to the first. `weight` is the place
    value of the next digit and `n` the number read so far. A zero fits at any
    place. -/
def readHexadecimal (weight n : Nat) : List Char → Except NumberFault Word
  | [] => .ok (BitVec.ofNat 256 n)
  | c :: rest =>
    if c = '_' then readHexadecimal weight n rest
    else match Hex.digit? c with
      | none => .error (.badDigit (Text.lastByte c))
      | some d =>
        if n + d * weight < Word.count then readHexadecimal (weight * 16) (n + d * weight) rest
        else .error .tooLarge

/-- The value of a decimal digit. -/
def decimalDigit? (c : Char) : Option Nat := (Hex.digit? c).filter (· < 10)

/-- The number of decimal digits in a group, the most of which 64 bits can hold
    any number. -/
def decimalGroup : Nat := 19

/-- Reads decimal digits from the first to the last. `n` is the number read so
    far, of which `pending` digits belong to an unfinished group. Whether the
    number fits is asked at the end of each group and at the end of the text. -/
def readDecimal (pending n : Nat) : List Char → Except NumberFault Word
  | [] => if n < Word.count then .ok (BitVec.ofNat 256 n) else .error .tooLarge
  | c :: rest =>
    if c = '_' then readDecimal pending n rest
    else match decimalDigit? c with
      | none => .error (.badDigit (Text.leadByte c))
      | some d =>
        if pending + 1 < decimalGroup then readDecimal (pending + 1) (n * 10 + d) rest
        else if n * 10 + d < Word.count then readDecimal 0 (n * 10 + d) rest
        else .error .tooLarge

/-- The number a text denotes: hexadecimal after `0x`, decimal otherwise. No
    digits at all denote zero. -/
def readNumber (text : String) : Except LiteralFault Word :=
  let digits := match text.toList with
    | '0' :: 'x' :: rest => readHexadecimal 1 0 rest.reverse
    | cs => readDecimal 0 0 cs
  digits.mapError (.number text)

/-- The characters behind the next two bytes of a hexadecimal escape. They
    have to be whole characters. -/
def escapeDigits : List Char → Except LiteralFault (List Char)
  | [] => .ok []
  | [c] => if c.utf8Size ≤ 2 then .ok [c] else .error (.splitCharacter 0)
  | c :: d :: _ =>
    if c.utf8Size = 1 then
      if d.utf8Size = 1 then .ok [c, d] else .error (.splitCharacter 1)
    else if c.utf8Size = 2 then .ok [c]
    else .error (.splitCharacter 0)

/-- The byte a hexadecimal escape denotes, given what follows its letter. -/
def hexEscape (rest : List Char) : Except LiteralFault UInt8 := do
  let digits ← escapeDigits rest
  (Hex.readByte digits).mapError (.badHexEscape (String.ofList digits))

/-- The byte an escape of one letter denotes. -/
def simpleEscape? : Char → Option UInt8
  | 'n' => some 10
  | 'r' => some 13
  | 't' => some 9
  | '0' => some 0
  | '\\' => some 92
  | '"' => some 34
  | '\x27' => some 39
  | _ => none

/-- The bytes a string text denotes. -/
def unescape : List Char → Except LiteralFault (List UInt8)
  | [] => .ok []
  | ['\\'] => .error .unfinishedEscape
  | ['\\', 'x'] => do return [← hexEscape []]
  | ['\\', 'x', a] => do return [← hexEscape [a]]
  | '\\' :: 'x' :: a :: b :: rest => do
    let byte ← hexEscape [a, b]
    return byte :: (← unescape rest)
  | '\\' :: c :: rest => match simpleEscape? c with
    | some byte => do return byte :: (← unescape rest)
    | none => .error (.unknownEscape (Text.leadByte c))
  | c :: rest => do return String.utf8EncodeChar c ++ (← unescape rest)

namespace Literal

/-- The bytes the text of a literal denotes as a string. -/
def stringBytes (l : Literal) : Except LiteralFault (List UInt8) := unescape l.text.toList

/-- The word a literal denotes. -/
def value (l : Literal) : Except LiteralFault Word :=
  match l.kind with
  | .number => readNumber l.text
  | .boolean => .ok (Word.ofBool (l.text == "true"))
  | .string => do
    let bytes ← l.stringBytes
    if bytes.length > 32 then .error (.tooLong bytes.length) else .ok (Word.ofLeadingBytes bytes)

/-- The text a number is written with: decimal below `2^32`, hexadecimal from
    there on. -/
def numberText (w : Word) : String :=
  if w.toNat < 0x100000000 then toString w.toNat else w.toHex

/-- The literal written for a word. -/
def number (line : Nat) (w : Word) : Literal := ⟨line, .number, numberText w, ""⟩

/-- The zero of a type. -/
def zero (line : Nat) (type : String) : Literal := { number line 0 with type }

/-- A literal as source text. -/
def print (l : Literal) : String :=
  let body := match l.kind with
    | .string => "\"" ++ l.text ++ "\""
    | _ => l.text
  if l.type.isEmpty then body else body ++ ":" ++ l.type

end Literal

end YulToolchain
