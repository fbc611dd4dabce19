import CellMachine.Number.Integer

/-!
# How a run ends

A run ends successfully, by a quit instruction, or at the line of an instruction that failed.
A fault is different: it is a breach of the machine's contract by a malformed program and ends
every run it occurs in.  What a script can recover from is a diagnostic or an error cell.
-/

namespace CellMachine

/-- How a run of a program ended. -/
inductive Ending where
  | success
  | quit
  /-- The line is a combined one inside a function body. -/
  | failure (line : Nat)
  deriving DecidableEq

/-- A breach of the machine's contract. -/
inductive Fault where
  | stackUnderflow
  | noPendingCall
  | nonBooleanCondition (line : Nat)
  | invalidJumpTarget (target length : Nat)
  | frameImbalance (depth : Nat)
  | pendingCallsOutstanding (count : Nat)
  deriving DecidableEq

def Fault.message : Fault → String
  | stackUnderflow => "Stack underflow"
  | noPendingCall => "Bind or call without a pending call"
  | nonBooleanCondition line =>
    "Conditional jump on a non-boolean value at line " ++ Integer.renderNat line
  | invalidJumpTarget target length =>
    "Jump target " ++ Integer.renderNat target ++ " out of range 1..=" ++ Integer.renderNat length
  | frameImbalance depth =>
    "Frame depth " ++ Integer.renderNat depth ++ " at teardown, expected 1"
  | pendingCallsOutstanding count =>
    Integer.renderNat count ++ " pending calls outstanding at teardown"

end CellMachine
