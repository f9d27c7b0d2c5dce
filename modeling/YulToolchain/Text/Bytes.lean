/-!
# Characters as Bytes

The UTF-8 view of text.

Text is held as characters throughout. Three rules look at the bytes behind
them: string literals denote bytes, a character that can not be used is
reported by the byte that is met first, and an escape takes two bytes whatever
characters they belong to. Bytes are turned back into characters where a string literal
names an object; what is no character there is shown as the replacement
character, once for every longest beginning of a character.

## Main definitions

* `Text.bytes`: The UTF-8 encoding of some characters.
* `Text.leadByte`, `Text.lastByte`: The first and the last byte of a character,
  as characters.
* `Text.ofBytes`: Characters from bytes.
-/

namespace YulToolchain

namespace Text

/-- The UTF-8 encoding of some characters. -/
def bytes (cs : List Char) : List UInt8 := cs.flatMap String.utf8EncodeChar

/-- The first byte of the encoding of a character, read as a character
    itself. An ASCII character is its own first byte. -/
def leadByte (c : Char) : Char :=
  Char.ofNat (((String.utf8EncodeChar c).headD 0).toNat)

/-- The last byte of the encoding of a character, read as a character itself. An
    ASCII character is its own last byte. -/
def lastByte (c : Char) : Char :=
  Char.ofNat (((String.utf8EncodeChar c).getLastD 0).toNat)

/-- The character shown in place of bytes that are none. -/
def replacement : Char := Char.ofNat 0xfffd

/-- Whether a byte continues a character. -/
def isContinuation (b : UInt8) : Bool := 0x80 ≤ b && b ≤ 0xbf

/-- Whether a byte may follow the first byte of a character of three bytes. The
    narrower ranges leave out what has a shorter encoding, and the
    surrogates. -/
def isSecondOfThree (first b : UInt8) : Bool :=
  if first = 0xe0 then 0xa0 ≤ b && b ≤ 0xbf
  else if first = 0xed then 0x80 ≤ b && b ≤ 0x9f
  else isContinuation b

/-- Whether a byte may follow the first byte of a character of four bytes. The
    narrower ranges leave out what has a shorter encoding, and what lies behind
    the last character. -/
def isSecondOfFour (first b : UInt8) : Bool :=
  if first = 0xf0 then 0x90 ≤ b && b ≤ 0xbf
  else if first = 0xf4 then 0x80 ≤ b && b ≤ 0x8f
  else isContinuation b

/-- The payload of a byte that continues a character. -/
def payload (b : UInt8) : Nat := b.toNat % 64

/-- Characters from bytes. Bytes that are no character become the replacement
    character. -/
def ofBytes : List UInt8 → List Char
  | [] => []
  | a :: rest =>
    if a < 0x80 then Char.ofNat a.toNat :: ofBytes rest
    else if 0xc2 ≤ a && a ≤ 0xdf then
      match rest with
      | b :: rest' =>
        if isContinuation b then Char.ofNat (a.toNat % 32 * 64 + payload b) :: ofBytes rest'
        else replacement :: ofBytes (b :: rest')
      | [] => [replacement]
    else if 0xe0 ≤ a && a ≤ 0xef then
      match rest with
      | b :: c :: rest' =>
        if isSecondOfThree a b then
          if isContinuation c then
            Char.ofNat ((a.toNat % 16 * 64 + payload b) * 64 + payload c) :: ofBytes rest'
          else replacement :: ofBytes (c :: rest')
        else replacement :: ofBytes (b :: c :: rest')
      | [b] => if isSecondOfThree a b then [replacement] else replacement :: ofBytes [b]
      | [] => [replacement]
    else if 0xf0 ≤ a && a ≤ 0xf4 then
      match rest with
      | b :: c :: d :: rest' =>
        if isSecondOfFour a b then
          if isContinuation c then
            if isContinuation d then
              Char.ofNat (((a.toNat % 8 * 64 + payload b) * 64 + payload c) * 64 + payload d)
                :: ofBytes rest'
            else replacement :: ofBytes (d :: rest')
          else replacement :: ofBytes (c :: d :: rest')
        else replacement :: ofBytes (b :: c :: d :: rest')
      | [b, c] =>
        if isSecondOfFour a b then
          if isContinuation c then [replacement] else replacement :: ofBytes [c]
        else replacement :: ofBytes [b, c]
      | [b] => if isSecondOfFour a b then [replacement] else replacement :: ofBytes [b]
      | [] => [replacement]
    else replacement :: ofBytes rest

end Text

end YulToolchain
