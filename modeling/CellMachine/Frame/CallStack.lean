import CellMachine.Fault
import CellMachine.Frame.Scope

/-!
# Operand stacks and frames

Each level of call nesting owns a variable table and an operand stack.  The call stack always
has an active frame: the top-level one is never left.
-/

namespace CellMachine

/-- An operand stack, the top first. -/
abbrev Operands := List Cell

namespace Operands

/-- Take off the top `count` cells, in the order they were pushed. -/
def popMany (stack : Operands) (count : Nat) : Except Fault (List Cell × Operands) :=
  if stack.length < count then .error .stackUnderflow
  else .ok ((stack.take count).reverse, stack.drop count)

end Operands

/-- One level: its variables and its operands. -/
structure Frame where
  scope : Scope
  stack : Operands

def Frame.empty : Frame := ⟨.empty, []⟩

/-- The active frame on top of the frames that wait for it, the innermost first. -/
structure CallStack where
  active : Frame
  waiting : List Frame

namespace CallStack

/-- The top level alone. -/
def base : CallStack := ⟨.empty, []⟩

/-- The number of frames, one at top level. -/
def depth (c : CallStack) : Nat := c.waiting.length + 1

/-- Start a fresh frame. -/
def enter (c : CallStack) : CallStack := ⟨.empty, c.active :: c.waiting⟩

/-- Drop the active frame, unless it is the top-level one. -/
def leave (c : CallStack) : Option CallStack :=
  match c.waiting with
  | [] => none
  | frame :: rest => some ⟨frame, rest⟩

@[simp] theorem leave_enter (c : CallStack) : c.enter.leave = some c := rfl

@[simp] theorem depth_enter (c : CallStack) : c.enter.depth = c.depth + 1 := rfl

end CallStack
end CellMachine
