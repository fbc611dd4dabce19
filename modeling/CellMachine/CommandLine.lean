import CellMachine.Program.Basic

/-!
# The command line

The command takes the name of a program file, runs the program, and prints what it leaves on the
operand stack.  It exits with zero after a success or a quit, with one after a failure, and with
two when the program cannot be loaded or breaks the machine's contract.
-/

namespace CellMachine
namespace CommandLine

/-- What the command writes to its two streams, and its exit code. -/
structure Report where
  stdout : ByteArray
  stderr : ByteArray
  code : Nat

/-- The report of a command that stops early. -/
def stop (m : Machine) (path : String) (message : String) : Report :=
  ⟨m.console.output, m.console.errors ++ (path ++ ": " ++ message ++ "\n").toUTF8, 2⟩

/-- Load the program in the given bytes of a file. -/
def load (file : Option ByteArray) : Except ProgramError Program :=
  match file.bind String.fromUTF8? with
  | some text => Program.parse text
  | none => .error .unreadable

/-- Run a program with all it prints at its end. -/
def runProgram (fuel : Nat) (m : Machine) (path : String) (code : Code) : Report :=
  match Exec.execute fuel code m with
  | .exhausted => stop m path "step allowance used up"
  | .fault cause m => stop m path cause.message
  | .ok ending m =>
    let (_, m) := m.dump
    match m.teardown with
    | (some cause, m) => stop m path cause.message
    | (none, m) =>
      match ending with
      | .success | .quit => ⟨m.console.output, m.console.errors, 0⟩
      | .failure line =>
        ⟨m.console.output,
          m.console.errors ++ ("Failure at line " ++ Integer.renderNat line ++ "\n").toUTF8, 1⟩

/-- Run the command on its arguments, the file it names, and its standard input. -/
def run (fuel : Nat) (arguments : List String) (file : Option ByteArray) (stdin : List UInt8) :
    Report :=
  match arguments with
  | [] => ⟨.empty, "Usage: gclvm <program.json>\n".toUTF8, 2⟩
  | path :: _ =>
    let m := (Machine.bare defaultMaxCallDepth stdin .fresh).withCore
    match load file with
    | .error e => stop m path e.message
    | .ok program =>
      match program.install m with
      | (some e, m) => stop m path e.message
      | (none, m) => runProgram fuel m path program.main

end CommandLine
end CellMachine
