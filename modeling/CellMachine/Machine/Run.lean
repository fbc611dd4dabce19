import CellMachine.Machine.Invoke

/-!
# Running programs

A run goes through its instructions from the first; it ends behind the last one.  The step
allowance bounds the instructions of a run and the nesting of runs in it: more of it never
changes how a run ends, and a run that ends has enough of it from some number on.
-/

namespace CellMachine
namespace Exec

/-! ## Operators -/

/-- The program behind an operator: a call with all arguments taken from the stack. -/
def operatorCode (function : String) (operands : Nat) : Code :=
  let ops := Op.initCall function :: List.replicate operands (.bind none .automatic) ++ [.call]
  (ops.map fun op => Instruction.mk op 0).toArray

/-- Run an operator on the operands on the stack. -/
def operator (execute : Code → Exec Ending) (function : String) (operands : Nat) : Exec Bool := do
  return (← execute (operatorCode function operands)) == .success

def unary (execute : Code → Exec Ending) (op : UnaryOp) : Exec Bool :=
  operator execute op.functionName 1

/-- The function behind a subscript: characters of a text, elements of anything else. -/
def subscriptFunction : Cell → String
  | .text _ => "NthChar"
  | _ => "NthElement"

/-- Run a binary operator.  Its left operand was pushed first and becomes the first argument, so
the two change places; a subscript looks both of them up beforehand. -/
def binary (execute : Code → Exec Ending) (op : BinaryOp) : Exec Bool := do
  let right ← pop
  let left ← pop
  match op with
  | .subscript =>
    let left ← resolve left
    let right ← resolve right
    push right
    push left
    operator execute (subscriptFunction left) 2
  | op =>
    push right
    push left
    operator execute op.functionName 2

/-! ## Instructions -/

/-- Perform an instruction other than a jump or a quit; the answer tells whether it succeeded. -/
def step (execute : Code → Exec Ending) : Op → Exec Bool
  | .push constant => do
    push constant
    return true
  | .pushRef name => do
    push (.reference name)
    return true
  | .pushList count => pushList count
  | .pop => do
    let _ ← attempt pop
    return true
  | .flush => do
    modify (·.flush)
    return true
  | .dump => lift (·.dump)
  | .output => output
  | .clear => do
    modify (·.clear)
    return true
  | .unassign => unassign
  | .unary op => unary execute op
  | .binary op => binary execute op
  | .initCall function => lift (·.initCall function)
  | .bind param mode => bindTop param mode
  | .call => call execute
  | .help function => lift (·.help function)
  | .jump _ | .jumpIf _ | .quit => return true

/-- The index a jump goes to; targets count from one. -/
def jumpIndex (target length : Nat) : Exec Nat :=
  if 1 ≤ target ∧ target ≤ length then return target - 1
  else fault (.invalidJumpTarget target length)

/-- Run a program from the given index on. -/
def runFrom : Nat → Code → Nat → Exec Ending
  | 0, _, _ => exhausted
  | fuel + 1, code, index =>
    match code[index]? with
    | none => return .success
    | some instruction =>
      match instruction.op with
      | .quit => return .quit
      | .jump target => do
        let next ← jumpIndex target code.size
        runFrom fuel code next
      | .jumpIf target => do
        let condition ← pop
        match ← resolve condition with
        | .boolean true => do
          let next ← jumpIndex target code.size
          runFrom fuel code next
        | .boolean false => runFrom fuel code (index + 1)
        | other => do
          push other
          fault (.nonBooleanCondition instruction.line)
      | op => do
        let succeeded ← step (fun body => settling (runFrom fuel body 0)) op
        if succeeded then runFrom fuel code (index + 1)
        else return .failure instruction.line

/-- Run a program.  Calls that it opened and did not make are given up when it ends. -/
def execute (fuel : Nat) (code : Code) : Exec Ending := settling (runFrom fuel code 0)

end Exec

namespace Machine

/-- A step allowance that no run of a program in practice uses up. -/
def ampleFuel : Nat := 0x4000000000000000

end Machine
end CellMachine
