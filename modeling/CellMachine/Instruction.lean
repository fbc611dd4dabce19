import CellMachine.Cell.Basic

/-!
# Instructions

A program is a sequence of instructions, each with the line it came from.  Jump targets are
positions in that sequence, counted from one.  A line inside a function body is reported
together with the line of the function.
-/

namespace CellMachine

/-- How an argument is handed over; `automatic` follows the declaration of the parameter. -/
inductive PassMode where
  | automatic
  | value
  | reference
  deriving DecidableEq, Inhabited

/-- Operators on one operand. -/
inductive UnaryOp where
  | negate
  | not
  deriving DecidableEq

/-- Operators on two operands. -/
inductive BinaryOp where
  | plus
  | minus
  | times
  | divide
  | integerDivide
  | modulus
  | power
  | concat
  | equal
  | notEqual
  | less
  | greater
  | lessEqual
  | greaterEqual
  | and
  | or
  | assign
  | write
  | read
  | subscript
  deriving DecidableEq

/-- The function an operator calls. -/
def UnaryOp.functionName : UnaryOp → String
  | negate => "Negate"
  | not => "Not"

/-- The function an operator calls.  A subscript calls one of two other functions, chosen by
its left operand, so its own name is only displayed. -/
def BinaryOp.functionName : BinaryOp → String
  | plus => "Plus"
  | minus => "Minus"
  | times => "Times"
  | divide => "Divide"
  | integerDivide => "IntegerDivide"
  | modulus => "Modulus"
  | power => "Power"
  | concat => "Concat"
  | equal => "Equal"
  | notEqual => "NotEqual"
  | less => "Less"
  | greater => "Greater"
  | lessEqual => "LessEqual"
  | greaterEqual => "GreaterEqual"
  | and => "And"
  | or => "Or"
  | assign => "Assign"
  | write => "Write"
  | read => "Read"
  | subscript => "Subscript"

/-- What one instruction does. -/
inductive Op where
  | push (constant : Cell)
  | pushRef (name : String)
  /-- Pop that many cells and push them as one list. -/
  | pushList (count : Nat)
  | pop
  | flush
  | dump
  | output
  | clear
  | unassign
  | unary (operator : UnaryOp)
  | binary (operator : BinaryOp)
  /-- Open a call of a function. -/
  | initCall (function : String)
  | bind (param : Option String) (mode : PassMode)
  | call
  | help (function : String)
  | jump (target : Nat)
  | jumpIf (target : Nat)
  | quit

/-- One instruction and its line. -/
structure Instruction where
  op : Op
  line : Nat

/-- A compiled sequence of instructions. -/
abbrev Code := Array Instruction

/-- Lines of functions and of entries in their bodies are below this bound. -/
def lineScale : Nat := 65536

/-- The line of an entry in a function body, combined with the line of the function. -/
def combinedLine (function body : Nat) : Nat := function * lineScale + body

/-! ## Written form -/

def PassMode.render : PassMode → String
  | automatic => ""
  | value => " (value)"
  | reference => " (reference)"

def Op.render : Op → String
  | push constant => "push " ++ constant.render
  | pushRef name => "push-ref " ++ name
  | pushList count => "push-list " ++ Integer.renderNat count
  | pop => "pop"
  | flush => "flush"
  | dump => "dump"
  | output => "output"
  | clear => "clear"
  | unassign => "unassign"
  | unary operator => "unary " ++ operator.functionName
  | binary operator => "binary " ++ operator.functionName
  | initCall function => "init-call " ++ function
  | bind none mode => "bind" ++ mode.render
  | bind (some param) mode => "bind " ++ param ++ mode.render
  | call => "call"
  | help function => "help " ++ function
  | jump target => "jump " ++ Integer.renderNat target
  | jumpIf target => "jump-if " ++ Integer.renderNat target
  | quit => "quit"

end CellMachine
