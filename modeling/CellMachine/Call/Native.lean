import CellMachine.Call.Args
import CellMachine.Diagnostic
import CellMachine.Fault
import CellMachine.Instruction

/-!
# Native functions

A native function is given as the tree of the requests it makes to the machine.  Each request
carries the continuation for every answer, and the leaves give the result together with the
arguments as the function leaves them.  A tree has no infinite branch, so a native function by
itself always returns; only a program it asks to execute may fail to.

The requests are those of the core library and the plainest others.  They are NOT all that the
machine lets a host do: a function that registers functions, removes variables, clears or dumps the
stack, or opens, binds and makes calls has no tree here.
-/

namespace CellMachine

/-- What one attempt to read a line brings. -/
inductive LineRead where
  | line (text : String)
  | endOfInput
  /-- The line is not valid UTF-8; it is consumed all the same. -/
  | malformed
  deriving DecidableEq

/-- The requests of a native function, each with its continuation. -/
inductive Native where
  | done (result : Cell) (args : Args)
  | report (diagnostic : Diagnostic) (next : Native)
  /-- Write text to a stream; the answer is the reason for a refusal. -/
  | write (stream : Stream) (text : String) (next : Option String → Native)
  | readLine (next : LineRead → Native)
  | push (cell : Cell) (next : Native)
  | pop (next : Option Cell → Native)
  | define (name : String) (cell : Cell) (next : Bool → Native)
  | execute (code : Code) (next : Except Fault Ending → Native)
  | teardown (next : Option Fault → Native)
  /-- Ask for the call depth and the operand count. -/
  | depths (next : Nat → Nat → Native)

end CellMachine
