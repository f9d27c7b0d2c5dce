/-!
# Machine Words

The 256-bit words every value of the language is made of.

A word is a bit vector, so wrapping addition, subtraction, multiplication and
the bitwise operations are those of `BitVec`. What stands here is the rest of
the arithmetic: the operations whose rule at the edge (a divisor of zero, a
shift past the width, a byte index past the end) is the machine's own and not
the bit vector's.

There is only unsigned division. Signed numbers are divided by their magnitudes,
which are unsigned, and the sign is put back afterwards. They are compared as
unsigned numbers whose highest bits are flipped.

Exponentiation walks the bits of the exponent. The exponent itself can be as
large as the word, so the power can not be taken over the natural numbers and
reduced afterwards; `pow` squares modulo `2^256` at each of the 256 bits.

## Main definitions

* `Word`: A 256-bit machine word.
* `Word.isNegative`, `Word.magnitude`: The two parts of a signed number.
* `Word.mod`, `Word.sdiv`, `Word.smod`: Division with the machine's rule for
  zero.
* `Word.slt`: The order of signed numbers.
* `Word.addMod`, `Word.mulMod`: Modular arithmetic without intermediate
  overflow.
* `Word.pow`: Exponentiation modulo `2^256`.
* `Word.signExtend`, `Word.byteAt`: Byte-indexed access.
* `Word.shl`, `Word.shr`, `Word.sar`: Shifts by a word.
* `Word.toBytes`, `Word.ofBytes`: The big-endian byte view.
* `Word.toHex`: The printed form, `0x` and lower-case digits.
-/

namespace YulToolchain

/-- A 256-bit machine word. -/
abbrev Word := BitVec 256

namespace Word

/-- How many words there are. -/
def count : Nat := Nat.pow 2 256

/-- Truth as a word: one for true, zero for false. -/
def ofBool (b : Bool) : Word := if b then 1 else 0

/-- Unsigned remainder, zero when the divisor is zero. -/
def mod (a b : Word) : Word := if b = 0 then 0 else a % b

/-- The highest bit, which is the sign of a signed number. -/
def signBit : Word := (1 : Word) <<< 255

/-- Whether a word is negative as a signed number. -/
def isNegative (a : Word) : Bool := a.getLsbD 255

/-- A signed number without its sign. The least number has a magnitude that is
    no signed number, but it is a word like the others. -/
def magnitude (a : Word) : Word := if a.isNegative then -a else a

/-- Signed quotient rounded toward zero, zero when the divisor is zero. -/
def sdiv (a b : Word) : Word :=
  if b = 0 then 0
  else
    let quotient := a.magnitude / b.magnitude
    if a.isNegative != b.isNegative then -quotient else quotient

/-- Signed remainder with the sign of the dividend, zero when the divisor is
    zero. -/
def smod (a b : Word) : Word :=
  if b = 0 then 0
  else
    let remainder := a.magnitude % b.magnitude
    if a.isNegative then -remainder else remainder

/-- Whether a word is less than another one as a signed number. With their
    highest bits flipped, signed numbers are in the order of words. -/
def slt (a b : Word) : Bool := a ^^^ signBit < b ^^^ signBit

/-- The sum of two words modulo a third, taken over the natural numbers so
    that the sum itself does not wrap. Zero for the modulus zero. -/
def addMod (a b m : Word) : Word :=
  if m = 0 then 0 else BitVec.ofNat 256 ((a.toNat + b.toNat) % m.toNat)

/-- The product of two words modulo a third, taken over the natural numbers
    so that the product itself does not wrap. Zero for the modulus zero. -/
def mulMod (a b m : Word) : Word :=
  if m = 0 then 0 else BitVec.ofNat 256 ((a.toNat * b.toNat) % m.toNat)

/-- The power of `base` whose exponent is given by the lowest `bits` bits of
    `e`, by repeated squaring. -/
def powBits (base : Word) : Nat → Nat → Word
  | 0, _ => 1
  | bits + 1, e =>
    let rest := powBits (base * base) bits (e / 2)
    if e % 2 = 1 then base * rest else rest

/-- Exponentiation modulo `2^256`. The exponent has 256 bits. -/
def pow (base exponent : Word) : Word := powBits base 256 exponent.toNat

/-- Extends the sign of the number held in the lowest `k + 1` bytes of
    `value` over the whole word. From index 31 on the word is its own
    extension. -/
def signExtend (k value : Word) : Word :=
  if 31 ≤ k.toNat then value
  else
    let bit := k.toNat * 8 + 7
    let mask := (1 : Word) <<< (bit + 1) - 1
    if value.getLsbD bit then value ||| ~~~mask else value &&& mask

/-- The `k`-th most significant byte of a word, zero past the last. -/
def byteAt (k value : Word) : Word :=
  if k.toNat < 32 then (value >>> (8 * (31 - k.toNat))) &&& 0xff else 0

/-- Shift to the left. A shift by the width or more leaves nothing. -/
def shl (shift value : Word) : Word :=
  if shift.toNat < 256 then value <<< shift.toNat else 0

/-- Logical shift to the right. A shift by the width or more leaves nothing. -/
def shr (shift value : Word) : Word :=
  if shift.toNat < 256 then value >>> shift.toNat else 0

/-- Arithmetic shift to the right. The complement of a negative number is not
    negative, so zeros that move into it are ones of the number. A shift by the
    width or more leaves the sign alone. -/
def sar (shift value : Word) : Word :=
  if shift.toNat < 256 then
    if value.isNegative then ~~~(~~~value >>> shift.toNat) else value >>> shift.toNat
  else if value.isNegative then BitVec.allOnes 256 else 0

/-- The `count` lowest bytes of a number, most significant first. -/
def bytesOfNat : Nat → Nat → List UInt8
  | 0, _ => []
  | count + 1, n => bytesOfNat count (n / 256) ++ [UInt8.ofNat (n % 256)]

/-- The number whose big-endian digits to the base 256 are the given bytes. -/
def natOfBytes (bytes : List UInt8) : Nat :=
  bytes.foldl (fun n b => n * 256 + b.toNat) 0

/-- The 32 bytes of a word, most significant first. -/
def toBytes (w : Word) : List UInt8 := bytesOfNat 32 w.toNat

/-- The word whose big-endian bytes are given, modulo `2^256`. -/
def ofBytes (bytes : List UInt8) : Word := BitVec.ofNat 256 (natOfBytes bytes)

/-- The word whose leading bytes are given and whose remaining bytes are
    zero. This is how text is held in a word. -/
def ofLeadingBytes (bytes : List UInt8) : Word :=
  ofBytes (bytes ++ List.replicate (32 - bytes.length) 0)

/-- The number of bytes needed to hold a word, at least one. -/
def byteWidth (w : Word) : Nat := w.toNat.log2 / 8 + 1

/-- The fewest big-endian bytes that hold the word, at least one. -/
def minimalBytes (w : Word) : List UInt8 := bytesOfNat w.byteWidth w.toNat

/-- A word in lower-case hexadecimal after `0x`, without leading zeros. -/
def toHex (w : Word) : String := "0x" ++ String.ofList (Nat.toDigits 16 w.toNat)

end Word

end YulToolchain
