import YulToolchain.Ast.Print
import YulToolchain.Flow.Traversal

/-!
# A Record of the Flow

What the walk along the flow sees, as a list of events. The pass behind it
changes nothing.

## Main definitions

* `FlowEvent`: What can be seen.
* `recordFlow`: The events of a program in order.
-/

namespace YulToolchain

/-- What the walk sees on its way. -/
inductive FlowEvent where
  /-- A statement is reached, with the known values there. -/
  | statement (text : String) (known : List (String × String))
  /-- A variable is read, with its known value and the number it leads to. -/
  | read (name : String) (value : Option String) (constant : Option Word)
  /-- A call was walked. -/
  | call (text : String)
deriving Repr

namespace Flow

/-- The policy that changes nothing and takes note of what it is shown, the
    latest first. -/
def recorder : Policy (List FlowEvent) where
  enter known e events := match e with
    | .ident _ name =>
      (e, .read name ((known.value? name).map Expr.print) (known.constant? e) :: events)
    | _ => (e, events)
  leave _ e events := match e with
    | .instr _ _ _ => (e, .call e.print :: events)
    | .call _ _ _ => (e, .call e.print :: events)
    | _ => (e, events)
  replace known s events :=
    (none, .statement s.print (known.entries.map fun (name, e) => (name, e.print)) :: events)

end Flow

/-- The events of a program in order. -/
def recordFlow (d : Dialect) (code : Block) : List FlowEvent :=
  (Flow.run d Flow.recorder [] code).2.reverse

end YulToolchain
