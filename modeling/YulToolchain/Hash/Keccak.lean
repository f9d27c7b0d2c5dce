import YulToolchain.Word

/-!
# The Keccak-256 Hash

The sponge hash with a capacity of 512 bits and the padding that starts with a
single one bit. The interpreter derives every answer of its environment from
it, so that queries are arbitrary but fixed.

The state is an array of 25 lanes of 64 bits, the lane at column `x` and row
`y` at index `x + 5 * y`. The amounts of the rotations and the round constants
are data.

## Main definitions

* `Keccak.permute`: The permutation of the state, 24 rounds.
* `Keccak.hash`: The 32-byte digest of a byte string.
* `Keccak.hashWord`: The digest as a word.
-/

namespace YulToolchain

namespace Keccak

/-- The 25 lanes of the sponge, row by row. -/
abbrev Lanes := Array UInt64

/-- The constant added to the first lane in each round. -/
def roundConstants : List UInt64 :=
  [0x0000000000000001, 0x0000000000008082, 0x800000000000808a, 0x8000000080008000,
    0x000000000000808b, 0x0000000080000001, 0x8000000080008081, 0x8000000000008009,
    0x000000000000008a, 0x0000000000000088, 0x0000000080008009, 0x000000008000000a,
    0x000000008000808b, 0x800000000000008b, 0x8000000000008089, 0x8000000000008003,
    0x8000000000008002, 0x8000000000000080, 0x000000000000800a, 0x800000008000000a,
    0x8000000080008081, 0x8000000000008080, 0x0000000080000001, 0x8000000080008008]

/-- The rotation of the lane at each index. -/
def rotations : Array Nat :=
  #[0, 1, 62, 28, 27,
    36, 44, 6, 55, 20,
    3, 10, 43, 25, 39,
    41, 45, 15, 21, 8,
    18, 2, 61, 56, 14]

/-- Rotation of a lane to the left. -/
def rotate (lane : UInt64) (n : Nat) : UInt64 :=
  if n = 0 then lane
  else (lane <<< UInt64.ofNat n) ||| (lane >>> UInt64.ofNat (64 - n))

/-- The lane at an index, zero outside the state. -/
def lane (s : Lanes) (i : Nat) : UInt64 := s.getD i 0

/-- Mixes into every lane the parities of the two neighbouring columns. -/
def mixColumns (s : Lanes) : Lanes :=
  let parity (x : Nat) : UInt64 :=
    lane s x ^^^ lane s (x + 5) ^^^ lane s (x + 10) ^^^ lane s (x + 15) ^^^ lane s (x + 20)
  let parities : Lanes := (Array.range 5).map parity
  (Array.range 25).map fun i =>
    lane s i ^^^ lane parities ((i + 4) % 5) ^^^ rotate (lane parities ((i + 1) % 5)) 1

/-- Rotates every lane and moves it to its new place. The lane that arrives at
    column `x` and row `y` comes from column `x + 3 y` and row `x`. -/
def scatter (s : Lanes) : Lanes :=
  (Array.range 25).map fun i =>
    let x := i % 5
    let y := i / 5
    let source := (x + 3 * y) % 5 + 5 * x
    rotate (lane s source) (rotations.getD source 0)

/-- Combines every lane with the two to its right in its row. -/
def combineRows (s : Lanes) : Lanes :=
  (Array.range 25).map fun i =>
    let row := 5 * (i / 5)
    lane s i ^^^ (~~~(lane s (row + (i + 1) % 5)) &&& lane s (row + (i + 2) % 5))

/-- One round of the permutation. -/
def round (s : Lanes) (constant : UInt64) : Lanes :=
  let t := combineRows (scatter (mixColumns s))
  t.setIfInBounds 0 (lane t 0 ^^^ constant)

/-- The permutation of the state. -/
def permute (s : Lanes) : Lanes := roundConstants.foldl round s

/-- The number of bytes absorbed between two permutations. -/
def rate : Nat := 136

/-- The lane made of at most eight bytes, least significant first. -/
def laneOfBytes (bytes : List UInt8) : UInt64 :=
  bytes.foldr (fun b n => (n <<< 8) ||| b.toUInt64) 0

/-- Adds one block of bytes to the state. -/
def absorbBlock (s : Lanes) (block : List UInt8) : Lanes :=
  permute ((Array.range 25).map fun i =>
    lane s i ^^^ laneOfBytes ((block.drop (8 * i)).take 8))

/-- The bytes that fill the last block: a one bit, zeros, and a one bit at the
    very end. -/
def padding (length : Nat) : List UInt8 :=
  let gap := rate - length % rate
  if gap = 1 then [0x81] else 0x01 :: List.replicate (gap - 2) 0 ++ [0x80]

/-- Absorbs a byte string block by block. The first argument bounds the number
    of blocks. -/
def absorb : Nat → Lanes → List UInt8 → Lanes
  | 0, s, _ => s
  | blocks + 1, s, bytes =>
    if bytes.isEmpty then s
    else absorb blocks (absorbBlock s (bytes.take rate)) (bytes.drop rate)

/-- The eight bytes of a lane, least significant first. -/
def bytesOfLane (n : UInt64) : List UInt8 :=
  (List.range 8).map fun i => (n >>> UInt64.ofNat (8 * i)).toUInt8

/-- The 32-byte digest of a byte string. -/
def hash (bytes : List UInt8) : List UInt8 :=
  let padded := bytes ++ padding bytes.length
  let final := absorb (padded.length / rate) (Array.replicate 25 0) padded
  (List.range 4).flatMap fun i => bytesOfLane (lane final i)

/-- The digest of a byte string as a word. -/
def hashWord (bytes : List UInt8) : Word := Word.ofBytes (hash bytes)

end Keccak

end YulToolchain
