/-!
# The Instruction Set

The instructions of the stack machine, with the table of what each one takes,
leaves and costs.

The four families that differ only in an operand (`push`, `dup`, `swap` and
`log`) are one constructor each, and the operand is bounded in the type, so no
instruction outside the table can be written down. The operand of `push`,
`dup` and `swap` counts from zero: `push 0` carries one immediate byte and
`dup 0` copies the top of the stack.

`all` lists the whole set in the order of the opcodes. Looking an instruction
up by name or by opcode is a search in that list, so both directions of each
correspondence are read off one table.

## Main definitions

* `Instruction`: The instruction set.
* `Instruction.info`: Arguments, results, effects and price class.
* `Instruction.mnemonic`, `Instruction.opcode`: The two spellings.
* `Instruction.ofMnemonic?`, `Instruction.ofOpcode?`: Their inverses.
* `Instruction.movable`, `Instruction.sideEffectFree` and the other
  predicates: What a pass may assume.
-/

namespace YulToolchain

/-- The instructions of the stack machine. -/
inductive Instruction where
  | stop | add | mul | sub | div | sdiv | mod | smod | addmod | mulmod | exp | signextend
  | lt | gt | slt | sgt | eq | iszero | and | or | xor | not | byte | shl | shr | sar
  | keccak256
  | address | balance | origin | caller | callvalue
  | calldataload | calldatasize | calldatacopy | codesize | codecopy | gasprice
  | extcodesize | extcodecopy | returndatasize | returndatacopy | extcodehash
  | blockhash | coinbase | timestamp | number | difficulty | gaslimit
  | pop | mload | mstore | mstore8 | sload | sstore
  | jump | jumpi | pc | msize | gas | jumpdest
  /-- Pushes the `k + 1` bytes that follow it in the code. -/
  | push (k : Fin 32)
  /-- Copies the slot `k` below the top of the stack. -/
  | dup (k : Fin 16)
  /-- Exchanges the top of the stack with the slot `k + 1` below it. -/
  | swap (k : Fin 16)
  /-- Records a range of memory under `k` topics. -/
  | log (k : Fin 5)
  | create | call | callcode
  /-- Ends execution with a result; the mnemonic is `return`. -/
  | ret
  | delegatecall | create2 | staticcall | revert | invalid | selfdestruct
deriving DecidableEq, Repr, Inhabited

/-- The price class of an instruction. -/
inductive Tier where
  | zero | base | veryLow | low | mid | high | ext | special
deriving DecidableEq, Repr, Inhabited

/-- What the stack and a pass see of an instruction. -/
structure InstructionInfo where
  /-- How many slots it takes. -/
  args : Nat
  /-- How many slots it leaves. -/
  returns : Nat
  /-- Whether it does more than compute its results. -/
  sideEffects : Bool
  /-- Its price class. -/
  tier : Tier
deriving DecidableEq, Repr

namespace Instruction

/-- The table of instructions. -/
def info : Instruction → InstructionInfo
  | stop => ⟨0, 0, true, .zero⟩
  | add | sub => ⟨2, 1, false, .veryLow⟩
  | mul | div | sdiv | mod | smod | signextend => ⟨2, 1, false, .low⟩
  | addmod | mulmod => ⟨3, 1, false, .mid⟩
  | exp => ⟨2, 1, false, .special⟩
  | lt | gt | slt | sgt | eq | and | or | xor | byte | shl | shr | sar =>
    ⟨2, 1, false, .veryLow⟩
  | iszero | not => ⟨1, 1, false, .veryLow⟩
  | keccak256 => ⟨2, 1, true, .special⟩
  | address | origin | caller | callvalue | calldatasize | codesize | gasprice
  | returndatasize | coinbase | timestamp | number | difficulty | gaslimit
  | pc | msize | gas => ⟨0, 1, false, .base⟩
  | balance | extcodesize | extcodehash | blockhash => ⟨1, 1, false, .ext⟩
  | calldataload => ⟨1, 1, false, .veryLow⟩
  | calldatacopy | codecopy | returndatacopy => ⟨3, 0, true, .veryLow⟩
  | extcodecopy => ⟨4, 0, true, .ext⟩
  | pop => ⟨1, 0, false, .base⟩
  | mload => ⟨1, 1, true, .veryLow⟩
  | mstore | mstore8 => ⟨2, 0, true, .veryLow⟩
  | sload => ⟨1, 1, false, .special⟩
  | sstore => ⟨2, 0, true, .special⟩
  | jump => ⟨1, 0, true, .mid⟩
  | jumpi => ⟨2, 0, true, .high⟩
  | jumpdest => ⟨0, 0, true, .special⟩
  | push _ => ⟨0, 1, false, .veryLow⟩
  | dup k => ⟨k + 1, k + 2, false, .veryLow⟩
  | swap k => ⟨k + 2, k + 2, false, .veryLow⟩
  | log k => ⟨k + 2, 0, true, .special⟩
  | create => ⟨3, 1, true, .special⟩
  | call | callcode => ⟨7, 1, true, .special⟩
  | ret | revert => ⟨2, 0, true, .zero⟩
  | delegatecall | staticcall => ⟨6, 1, true, .special⟩
  | create2 => ⟨4, 1, true, .special⟩
  | invalid => ⟨0, 0, true, .zero⟩
  | selfdestruct => ⟨1, 0, true, .special⟩

/-- How many slots an instruction takes. -/
def args (i : Instruction) : Nat := i.info.args

/-- How many slots an instruction leaves. -/
def returns (i : Instruction) : Nat := i.info.returns

/-- The name an instruction is written with. -/
def mnemonic : Instruction → String
  | stop => "stop"
  | add => "add"
  | mul => "mul"
  | sub => "sub"
  | div => "div"
  | sdiv => "sdiv"
  | mod => "mod"
  | smod => "smod"
  | addmod => "addmod"
  | mulmod => "mulmod"
  | exp => "exp"
  | signextend => "signextend"
  | lt => "lt"
  | gt => "gt"
  | slt => "slt"
  | sgt => "sgt"
  | eq => "eq"
  | iszero => "iszero"
  | and => "and"
  | or => "or"
  | xor => "xor"
  | not => "not"
  | byte => "byte"
  | shl => "shl"
  | shr => "shr"
  | sar => "sar"
  | keccak256 => "keccak256"
  | address => "address"
  | balance => "balance"
  | origin => "origin"
  | caller => "caller"
  | callvalue => "callvalue"
  | calldataload => "calldataload"
  | calldatasize => "calldatasize"
  | calldatacopy => "calldatacopy"
  | codesize => "codesize"
  | codecopy => "codecopy"
  | gasprice => "gasprice"
  | extcodesize => "extcodesize"
  | extcodecopy => "extcodecopy"
  | returndatasize => "returndatasize"
  | returndatacopy => "returndatacopy"
  | extcodehash => "extcodehash"
  | blockhash => "blockhash"
  | coinbase => "coinbase"
  | timestamp => "timestamp"
  | number => "number"
  | difficulty => "difficulty"
  | gaslimit => "gaslimit"
  | pop => "pop"
  | mload => "mload"
  | mstore => "mstore"
  | mstore8 => "mstore8"
  | sload => "sload"
  | sstore => "sstore"
  | jump => "jump"
  | jumpi => "jumpi"
  | pc => "pc"
  | msize => "msize"
  | gas => "gas"
  | jumpdest => "jumpdest"
  | push k => "push" ++ toString (k.val + 1)
  | dup k => "dup" ++ toString (k.val + 1)
  | swap k => "swap" ++ toString (k.val + 1)
  | log k => "log" ++ toString (k.val)
  | create => "create"
  | call => "call"
  | callcode => "callcode"
  | ret => "return"
  | delegatecall => "delegatecall"
  | create2 => "create2"
  | staticcall => "staticcall"
  | revert => "revert"
  | invalid => "invalid"
  | selfdestruct => "selfdestruct"

/-- The byte an instruction is encoded by. -/
def opcode : Instruction → UInt8
  | stop => 0x00
  | add => 0x01
  | mul => 0x02
  | sub => 0x03
  | div => 0x04
  | sdiv => 0x05
  | mod => 0x06
  | smod => 0x07
  | addmod => 0x08
  | mulmod => 0x09
  | exp => 0x0a
  | signextend => 0x0b
  | lt => 0x10
  | gt => 0x11
  | slt => 0x12
  | sgt => 0x13
  | eq => 0x14
  | iszero => 0x15
  | and => 0x16
  | or => 0x17
  | xor => 0x18
  | not => 0x19
  | byte => 0x1a
  | shl => 0x1b
  | shr => 0x1c
  | sar => 0x1d
  | keccak256 => 0x20
  | address => 0x30
  | balance => 0x31
  | origin => 0x32
  | caller => 0x33
  | callvalue => 0x34
  | calldataload => 0x35
  | calldatasize => 0x36
  | calldatacopy => 0x37
  | codesize => 0x38
  | codecopy => 0x39
  | gasprice => 0x3a
  | extcodesize => 0x3b
  | extcodecopy => 0x3c
  | returndatasize => 0x3d
  | returndatacopy => 0x3e
  | extcodehash => 0x3f
  | blockhash => 0x40
  | coinbase => 0x41
  | timestamp => 0x42
  | number => 0x43
  | difficulty => 0x44
  | gaslimit => 0x45
  | pop => 0x50
  | mload => 0x51
  | mstore => 0x52
  | mstore8 => 0x53
  | sload => 0x54
  | sstore => 0x55
  | jump => 0x56
  | jumpi => 0x57
  | pc => 0x58
  | msize => 0x59
  | gas => 0x5a
  | jumpdest => 0x5b
  | push k => 0x60 + UInt8.ofNat k.val
  | dup k => 0x80 + UInt8.ofNat k.val
  | swap k => 0x90 + UInt8.ofNat k.val
  | log k => 0xa0 + UInt8.ofNat k.val
  | create => 0xf0
  | call => 0xf1
  | callcode => 0xf2
  | ret => 0xf3
  | delegatecall => 0xf4
  | create2 => 0xf5
  | staticcall => 0xfa
  | revert => 0xfd
  | invalid => 0xfe
  | selfdestruct => 0xff

/-- The instruction set in the order of the opcodes. -/
def all : List Instruction :=
  [stop, add, mul, sub, div, sdiv, mod, smod, addmod, mulmod, exp, signextend, lt, gt, slt,
    sgt, eq, iszero, and, or, xor, not, byte, shl, shr, sar, keccak256, address, balance,
    origin, caller, callvalue, calldataload, calldatasize, calldatacopy, codesize, codecopy,
    gasprice, extcodesize, extcodecopy, returndatasize, returndatacopy, extcodehash,
    blockhash, coinbase, timestamp, number, difficulty, gaslimit, pop, mload, mstore,
    mstore8, sload, sstore, jump, jumpi, pc, msize, gas, jumpdest]
    ++ (List.finRange 32).map push
    ++ (List.finRange 16).map dup
    ++ (List.finRange 16).map swap
    ++ (List.finRange 5).map log
    ++ [create, call, callcode, ret, delegatecall, create2, staticcall, revert, invalid,
      selfdestruct]

/-- The instruction written with a name. -/
def ofMnemonic? (name : String) : Option Instruction :=
  all.find? fun i => i.mnemonic == name

/-- The instruction encoded by a byte. -/
def ofOpcode? (b : UInt8) : Option Instruction :=
  all.find? fun i => i.opcode == b

/-- Why an operand has no instruction: it is not between one and a limit. -/
structure OperandFault where
  /-- The operand asked for. -/
  operand : Nat
  /-- The largest operand of the family. -/
  limit : Nat
deriving DecidableEq

/-- The wording of an operand out of range. -/
def OperandFault.message (f : OperandFault) : String :=
  "Operand " ++ toString f.operand ++ " out of range 1..=" ++ toString f.limit

/-- The instruction that pushes `n` immediate bytes. -/
def pushOf (n : Nat) : Except OperandFault Instruction :=
  if h : 1 ≤ n ∧ n ≤ 32 then .ok (push ⟨n - 1, by omega⟩) else .error ⟨n, 32⟩

/-- The instruction that copies the `n`-th slot, counted from one. -/
def dupOf (n : Nat) : Except OperandFault Instruction :=
  if h : 1 ≤ n ∧ n ≤ 16 then .ok (dup ⟨n - 1, by omega⟩) else .error ⟨n, 16⟩

/-- The instruction that exchanges the top with the slot `n` below it. -/
def swapOf (n : Nat) : Except OperandFault Instruction :=
  if h : 1 ≤ n ∧ n ≤ 16 then .ok (swap ⟨n - 1, by omega⟩) else .error ⟨n, 16⟩

/-- Whether an instruction carries immediate bytes. -/
def isPush : Instruction → Bool
  | push _ => true
  | _ => false

/-- How many immediate bytes follow an instruction in the code. -/
def pushSize : Instruction → Nat
  | push k => k + 1
  | _ => 0

/-- Whether an instruction copies a slot. -/
def isDup : Instruction → Bool
  | dup _ => true
  | _ => false

/-- Whether an instruction exchanges two slots. -/
def isSwap : Instruction → Bool
  | swap _ => true
  | _ => false

/-- Whether the result depends only on the arguments and on what is constant
    for a whole execution, with no side effects. Such a call may be evaluated
    any number of times at any point. -/
def movable (i : Instruction) : Bool :=
  if i.isDup || i.isSwap || i.info.sideEffects then false
  else match i with
    | keccak256 | balance | extcodesize | extcodehash | returndatasize | sload | pc | msize
    | gas => false
    | _ => true

/-- Whether a call can be removed when its result is unused. -/
def sideEffectFree (i : Instruction) : Bool :=
  !i.info.sideEffects && i != pop

/-- As `sideEffectFree`, provided that nothing observes the memory size. -/
def sideEffectFreeIfNoMsize (i : Instruction) : Bool :=
  i == keccak256 || i == mload || i.sideEffectFree

/-- Whether storage may change. -/
def invalidatesStorage : Instruction → Bool
  | sstore | call | callcode | delegatecall | create | create2 | selfdestruct => true
  | _ => false

/-- Whether memory may change. -/
def invalidatesMemory : Instruction → Bool
  | mstore | mstore8 | calldatacopy | codecopy | extcodecopy | returndatacopy | call
  | callcode | delegatecall | staticcall => true
  | _ => false

/-- Whether execution never goes on after the instruction. -/
def terminatesControlFlow : Instruction → Bool
  | ret | revert | stop | invalid | selfdestruct => true
  | _ => false

/-- Whether an instruction addresses the stack or the code itself. These are
    not offered as functions. -/
def isStackManipulation : Instruction → Bool
  | push _ | dup _ | swap _ | jump | jumpi | jumpdest => true
  | _ => false

end Instruction

end YulToolchain
