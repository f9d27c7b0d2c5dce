/-!
# Hexadecimal Text

Bytes as pairs of hexadecimal digits.

Writing always gives two lower-case digits to a byte. Reading is a little more
generous than the inverse of that: a pair is read as a signed number would be,
so a plus sign may stand in place of the first digit, and a single digit is a
pair whose first digit was left out.

## Main definitions

* `Hex.digit?`: The value of a hexadecimal digit of either case.
* `Hex.byteChars`: A byte as two digits.
* `Hex.encode`: Bytes as text.
* `Hex.readByte`: A byte from at most two characters.
* `Hex.decode?`: Bytes from text, two characters to a byte.
-/

namespace YulToolchain

namespace Hex

/-- The value of a hexadecimal digit of either case. -/
def digit? (c : Char) : Option Nat :=
  if '0' ≤ c ∧ c ≤ '9' then some (c.toNat - '0'.toNat)
  else if 'a' ≤ c ∧ c ≤ 'f' then some (c.toNat - 'a'.toNat + 10)
  else if 'A' ≤ c ∧ c ≤ 'F' then some (c.toNat - 'A'.toNat + 10)
  else none

/-- The lower-case digit of a number below sixteen. -/
def digitChar (n : Nat) : Char := Nat.digitChar n

/-- The two digits of a byte. -/
def byteChars (b : UInt8) : List Char := [digitChar (b.toNat / 16), digitChar (b.toNat % 16)]

/-- Bytes as text, two lower-case digits to a byte. -/
def encode (bytes : List UInt8) : String := String.ofList (bytes.flatMap byteChars)

/-- Why a number could not be read from a few digits. -/
inductive Fault where
  /-- There was nothing to read. -/
  | empty
  /-- Some character is not a digit. -/
  | badDigit
deriving DecidableEq

namespace Fault

/-- The wording of a fault. -/
def message : Fault → String
  | empty => "cannot parse integer from empty string"
  | badDigit => "invalid digit found in string"

end Fault

/-- Reads a byte from at most two characters. A plus sign before a digit is
    read past; alone it is no digit. -/
def readByte : List Char → Except Fault UInt8
  | [] => .error .empty
  | [c] => match digit? c with
    | some d => .ok (UInt8.ofNat d)
    | none => .error .badDigit
  | c :: d :: _ => match (if c = '+' then some 0 else digit? c), digit? d with
    | some high, some low => .ok (UInt8.ofNat (high * 16 + low))
    | _, _ => .error .badDigit

/-- Reads text two characters to a byte. Text of odd length has no reading. -/
def decode? : List Char → Option (List UInt8)
  | [] => some []
  | [_] => none
  | c :: d :: rest => match readByte [c, d] with
    | .ok b => (decode? rest).map (b :: ·)
    | .error _ => none

end Hex

end YulToolchain
