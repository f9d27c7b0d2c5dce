import YulToolchain.Execution.MachineState
import YulToolchain.Hash.Keccak
import YulToolchain.Machine.Evaluate

/-!
# Execution of Instructions

What each instruction does to the machine state.

The environment is the same in every run. What a program asks of it is answered
with a hash of the question, calls of other programs succeed without doing
anything, and copies out of code or returned data are zeros. Everything that
reaches the environment is recorded.

## Main definitions

* `environmentAnswer`: What the environment answers.
* `Instruction.execute`: The effect and the value of an instruction.
-/

namespace YulToolchain

/-- What the environment answers to an instruction with its arguments. -/
def environmentAnswer (op : Instruction) (args : List Word) : Word :=
  Keccak.hashWord (Text.bytes op.mnemonic.toList ++ args.flatMap Word.toBytes)

open MachineState

/-- The effect of an instruction that is more than its value, and its value, if
    it has one. -/
def Instruction.perform (limits : Limits) (op : Instruction) (args : List Word) :
    OnMachine (Option Word) :=
  match op, args with
  | .keccak256, [offset, size] => do
    let range ← touch limits offset size
    return some (Keccak.hashWord (← read range))
  | .calldataload, [offset] => do
    return some (Word.ofBytes (paddedSlice (← get).calldata offset.toNat wordSize))
  | .calldatasize, [] => do return some (BitVec.ofNat 256 (← get).calldata.length)
  | .calldatacopy, [target, offset, size] => do
    let range ← touch limits target size
    write range.start (paddedSlice (← get).calldata offset.toNat range.size)
    return none
  | .codecopy, [target, _, size] | .returndatacopy, [target, _, size]
  | .extcodecopy, [_, target, _, size] => do
    record op args
    clear (← touch limits target size)
    return none
  | .mload, [offset] => do
    return some (Word.ofBytes (← read (← touch limits offset wordSize)))
  | .mstore, [offset, value] => do
    let range ← touch limits offset wordSize
    write range.start value.toBytes
    return none
  | .mstore8, [offset, value] => do
    let range ← touch limits offset 1
    write range.start [UInt8.ofNat (value.toNat % 256)]
    return none
  | .msize, [] => do return some (BitVec.ofNat 256 (← get).memory.size)
  | .sload, [key] => do return some (load key (← get))
  | .sstore, [key, value] => do
    modify (store key value)
    return none
  | .pop, [_] => return none
  | .log _, offset :: size :: _ => do
    let _ ← touch limits offset size
    record op args
    return none
  | .create, _ :: offset :: size :: _ | .create2, _ :: offset :: size :: _ => do
    let _ ← touch limits offset size
    record op args
    return some (environmentAnswer op args)
  | .call, [_, _, _, input, inputSize, output, outputSize]
  | .callcode, [_, _, _, input, inputSize, output, outputSize]
  | .delegatecall, [_, _, input, inputSize, output, outputSize]
  | .staticcall, [_, _, input, inputSize, output, outputSize] => do
    let _ ← touch limits input inputSize
    let _ ← touch limits output outputSize
    record op args
    return some 1
  | .ret, [offset, size] => do
    let bytes ← read (← touch limits offset size)
    modify fun s => { s with returnData := bytes }
    record op args
    finish .returned
  | .revert, [offset, size] => do
    let bytes ← read (← touch limits offset size)
    modify fun s => { s with returnData := bytes }
    record op args
    finish .reverted
  | .stop, _ => do
    record op args
    finish .stop
  | .invalid, _ => do
    record op args
    finish .invalid
  | .selfdestruct, _ => do
    record op args
    finish .selfDestruct
  | op, args =>
    if op.isStackManipulation || op = .pc then throw (.failed (.notInterpretable op))
    else return some (environmentAnswer op args)

/-- Executes an instruction with its arguments, the first one first, and returns
    its value, if it has one. -/
def Instruction.execute (limits : Limits) (op : Instruction) (args : List Word) :
    OnMachine (Option Word) :=
  if args.length ≠ op.args then throw (.failed (.operandCount op args.length))
  else match op.evaluate args with
    | some value => return some value
    | none => op.perform limits args

end YulToolchain
