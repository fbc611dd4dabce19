import CellMachine.Core.Library
import CellMachine.Program.File

/-!
# Programs

A program file becomes a program by converting its constants and combining the lines of function
bodies with those of their functions.  Functions are taken in order before the main program, and
the first fault of the file ends it.
-/

namespace CellMachine

/-- Why a program cannot be loaded or installed. -/
inductive ProgramError where
  | unreadable
  | malformed
  | literal (line : Nat) (message : String)
  | lineOutOfRange (description : String) (line : Nat)
  | signature (description : String) (cause : SignatureError)
  | ambiguous (description : String)
  deriving DecidableEq

def ProgramError.message : ProgramError → String
  | unreadable => "cannot read program: no such file, or not a text"
  | malformed => "malformed program: not in the format of a program file"
  | literal line message =>
    "invalid literal at line " ++ Integer.renderNat line ++ ": " ++ message
  | lineOutOfRange description line =>
    "line " ++ Integer.renderNat line ++ " out of range for " ++ description
  | signature description cause =>
    "invalid signature \"" ++ description ++ "\": " ++ cause.message
  | ambiguous description => description ++ " is ambiguous with an existing overload"

/-- A function definition ready to be registered. -/
structure FunctionDef where
  signature : String
  body : Code

/-- A program ready to be installed. -/
structure Program where
  functions : List FunctionDef
  main : Code

/-- Convert an entry at a position counted from zero.  An entry without a line has its place as its
line.  Lines are words of 32 bits, so this covers bodies and main programs of fewer than `2 ^ 32`
entries only; places beyond would have to wrap. -/
def Entry.compile (entry : Entry) (position : Nat) : Except ProgramError Instruction :=
  let line := entry.line.getD (position + 1)
  match entry.op with
  | .plain op => .ok ⟨op, line⟩
  | .push constant =>
    match constant.toCell with
    | .ok cell => .ok ⟨.push cell, line⟩
    | .error message => .error (.literal line message)

/-- Convert entries of which the first has the given position. -/
def Entry.compileAll : List Entry → Nat → Except ProgramError (List Instruction)
  | [], _ => .ok []
  | entry :: rest, position => do
    let instruction ← entry.compile position
    return instruction :: (← compileAll rest (position + 1))

/-- Convert a function.  Its line is checked first, then its constants, then the lines of its
body. -/
def FunctionFile.compile (f : FunctionFile) : Except ProgramError FunctionDef := do
  if lineScale ≤ f.line then .error (.lineOutOfRange f.signature f.line)
  else
    let body ← Entry.compileAll f.body 0
    match body.find? fun i => decide (lineScale ≤ i.line) with
    | some i => .error (.lineOutOfRange f.signature i.line)
    | none =>
      return ⟨f.signature, (body.map fun i => Instruction.mk i.op (combinedLine f.line i.line)).toArray⟩

namespace Program

/-- Convert a program file. -/
def ofFile (file : ProgramFile) : Except ProgramError Program := do
  let functions ← file.functions.mapM FunctionFile.compile
  return ⟨functions, (← Entry.compileAll file.main 0).toArray⟩

/-- Read the text of a program file. -/
def parse (text : String) : Except ProgramError Program :=
  match ProgramFile.parse? text with
  | some file => ofFile file
  | none => .error .malformed

/-- Register functions in order, up to the first that is refused. -/
def installFunctions : List FunctionDef → Machine → Option ProgramError × Machine
  | [], m => (none, m)
  | f :: rest, m =>
    match m.defineFunction f.signature .plain f.body with
    | (.error cause, m) => (some (.signature f.signature cause), m)
    | (.ok false, m) => (some (.ambiguous f.signature), m)
    | (.ok true, m) => installFunctions rest m

/-- Register the functions of a program. -/
def install (p : Program) (m : Machine) : Option ProgramError × Machine :=
  installFunctions p.functions m

end Program
end CellMachine
