import YulToolchain.Word
import YulToolchain.Machine.Instruction

/-!
# Pure Evaluation

The instructions whose result is a function of their arguments alone.

This one function is what constant folding computes with and what the
interpreter runs, so folding a constant and running the instruction can not
disagree.

## Main definitions

* `Instruction.evaluate`: The value of a pure instruction.
-/

namespace YulToolchain

namespace Instruction

/-- The value of an instruction that is a pure function of its arguments, the
    first argument first. There is none for an instruction that reads or
    writes machine state, nor for a wrong number of arguments. -/
def evaluate : Instruction → List Word → Option Word
  | add, [a, b] => some (a + b)
  | mul, [a, b] => some (a * b)
  | sub, [a, b] => some (a - b)
  | div, [a, b] => some (if b = 0 then 0 else a / b)
  | sdiv, [a, b] => some (Word.sdiv a b)
  | mod, [a, b] => some (Word.mod a b)
  | smod, [a, b] => some (Word.smod a b)
  | addmod, [a, b, m] => some (Word.addMod a b m)
  | mulmod, [a, b, m] => some (Word.mulMod a b m)
  | exp, [a, b] => some (Word.pow a b)
  | signextend, [k, a] => some (Word.signExtend k a)
  | lt, [a, b] => some (Word.ofBool (a < b))
  | gt, [a, b] => some (Word.ofBool (b < a))
  | slt, [a, b] => some (Word.ofBool (Word.slt a b))
  | sgt, [a, b] => some (Word.ofBool (Word.slt b a))
  | eq, [a, b] => some (Word.ofBool (a == b))
  | iszero, [a] => some (Word.ofBool (a == 0))
  | and, [a, b] => some (a &&& b)
  | or, [a, b] => some (a ||| b)
  | xor, [a, b] => some (a ^^^ b)
  | not, [a] => some (~~~a)
  | byte, [k, a] => some (Word.byteAt k a)
  | shl, [s, a] => some (Word.shl s a)
  | shr, [s, a] => some (Word.shr s a)
  | sar, [s, a] => some (Word.sar s a)
  | _, _ => none

end Instruction

end YulToolchain
