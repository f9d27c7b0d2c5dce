import YulToolchain.CodeGen.Gen

/-!
# Function Frames

The stack of a function from its entry to its return.

At its entry a function finds the position to return to at the bottom and its
arguments above it, the last one lowest. It puts zeros for its return variables
on top. To return, it has to leave its return variables, the first one lowest,
with the position to return to above them.

The way there is read off the top of the stack: a slot that is to be dropped is
dropped, and a slot that belongs somewhere else is exchanged with the slot
there. Every exchange brings a slot to its place for good, so twice as many
moves as there are slots are always enough.

## Main definitions

* `Frame`: Where each slot of a frame has to go.
* `Frame.ofFunction`: The frame of a function before it returns.
* `Frame.unwind`: The moves that bring a frame into order.
-/

namespace YulToolchain

/-- Where each slot of a frame has to go, the lowest slot first. A slot without
    a place is to be dropped. -/
abbrev Frame := Array (Option Nat)

namespace Frame

/-- The frame of a function before it returns. The position to return to goes
    above the return variables. -/
def ofFunction (params returns : Nat) : Frame :=
  #[some returns] ++ Array.replicate params none ++ (Array.range returns).map some

/-- Whether every slot is where it has to go. -/
def inOrder (f : Frame) : Bool :=
  f.toList.zipIdx.all fun (goal, position) => goal == some position

/-- The moves that bring a frame into order, and the frame after them. The first
    argument bounds the number of moves. -/
def unwind : Nat → Frame → Except Instruction.OperandFault (List Instruction × Frame)
  | 0, f => .ok ([], f)
  | fuel + 1, f => match f.back? with
    | none => .ok ([], f)
    | some none => do
      let (moves, f) ← unwind fuel f.pop
      return (.pop :: moves, f)
    | some (some goal) =>
      let last := f.size - 1
      if goal = last then .ok ([], f)
      else do
        let move ← Instruction.swapOf (last - goal)
        let (moves, f) ← unwind fuel (f.swapIfInBounds goal last)
        return (move :: moves, f)

end Frame

namespace Gen

variable {A : Type} [Target A]

/-- Leaves the return variables of a function with the position to return to
    above them. -/
def unwindFrame (p : Place) (params returns : Nat) : Gen A Unit := do
  let frame := Frame.ofFunction params returns
  let size : Int := frame.size
  let actual ← height
  if actual ≠ size then violation 0 (.badFrame frame.size actual)
  else if maxAssignDepth < size then
    reportTooDeep p "" (size - maxAssignDepth)
    setHeight (1 + returns)
  else
    let (moves, frame) ← orStop .operand (frame.unwind (2 * frame.size))
    moves.forM instruction
    if frame.inOrder then pure () else violation 0 .frameNotReshuffled

end Gen

end YulToolchain
