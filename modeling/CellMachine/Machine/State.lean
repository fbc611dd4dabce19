import CellMachine.Call.Pending
import CellMachine.Frame.CallStack
import CellMachine.Machine.Stream
import CellMachine.Signature.Parser

/-!
# The state of a machine

The machine holds its frames, the registered functions, the calls under construction and its
three streams.  The operations here change the state and cannot fault; what scripts can recover
from is reported as a diagnostic.
-/

namespace CellMachine

/-! ## The machine -/

/-- The state of a machine. -/
structure Machine where
  calls : CallStack
  registry : Registry
  /-- The calls under construction, the innermost first. -/
  pending : List PendingCall
  console : Console
  /-- The input that has not been read. -/
  input : List UInt8
  /-- How deep user functions may nest, the top level included. -/
  maxCallDepth : Nat
  /-- All diagnostics so far, the oldest first. -/
  reported : Array Diagnostic

/-- The nesting limit unless another is asked for. -/
def defaultMaxCallDepth : Nat := 1000

namespace Machine

/-- A machine without any functions. -/
def bare (maxCallDepth : Nat) (input : List UInt8) (console : Console) : Machine where
  calls := .base
  registry := .empty
  pending := []
  console := console
  input := input
  maxCallDepth := maxCallDepth
  reported := #[]

/-! ### Frames and operands -/

def callDepth (m : Machine) : Nat := m.calls.depth

def scope (m : Machine) : Scope := m.calls.active.scope

def stack (m : Machine) : Operands := m.calls.active.stack

def setScope (m : Machine) (scope : Scope) : Machine :=
  { m with calls := { m.calls with active := { m.calls.active with scope := scope } } }

def setStack (m : Machine) (stack : Operands) : Machine :=
  { m with calls := { m.calls with active := { m.calls.active with stack := stack } } }

def push (m : Machine) (cell : Cell) : Machine := m.setStack (cell :: m.stack)

/-- Empty the active operand stack. -/
def flush (m : Machine) : Machine := m.setStack []

/-- Empty the active operand stack and the active variable table. -/
def clear (m : Machine) : Machine := m.flush.setScope .empty

def enter (m : Machine) : Machine := { m with calls := m.calls.enter }

def leave (m : Machine) : Machine := { m with calls := m.calls.leave.getD m.calls }

/-! ### Diagnostics -/

/-- Report a diagnostic: it is recorded, and written to the error stream if that works. -/
def report (m : Machine) (d : Diagnostic) : Machine :=
  { m with
    console := (m.console.writeAll .errors [d.render, "\n"]).2
    reported := m.reported.push d }

/-! ### Variables -/

/-- The value of a name on the active level, protected names included. -/
def lookup (m : Machine) (name : String) : Option Cell := m.scope.lookup name

def isDefined (m : Machine) (name : String) : Bool := m.scope.isDefined name

/-- Bind a variable on the active level; why that is refused is reported. -/
def define (m : Machine) (name : String) (cell : Cell) : Bool × Machine :=
  match m.scope.define name cell with
  | .ok scope => (true, m.setScope scope)
  | .error (.readOnly name) => (false, m.report (.readOnlyAssign name))
  | .error (.typeChange name _ _) => (false, m.report (.typeChange name))
  | .error (.undefined _) => (false, m)

/-- Remove a variable and hand out its value.  A protected name stays and is reported; its
stream is handed out all the same. -/
def remove (m : Machine) (name : String) : Option Cell × Machine :=
  match m.scope.remove name with
  | .ok (cell, scope) => (some cell, m.setScope scope)
  | .error (.readOnly name) => (protectedValue? name, m.report (.readOnlyRemove name))
  | .error _ => (none, m)

/-- Drop a binding without a word, if there is one. -/
def forget (m : Machine) (name : String) : Machine :=
  match m.scope.remove name with
  | .ok (_, scope) => m.setScope scope
  | .error _ => m

/-- Look up a reference; other cells stand for themselves.  An unbound reference stays as it is,
and so does one whose object no longer exists: its binding is dropped. -/
def resolve (m : Machine) (cell : Cell) : Cell × Machine :=
  match cell with
  | .reference name =>
    match m.lookup name with
    | none => (cell, m)
    | some value => if value.isValid Handle.valid then (value, m) else (cell, m.forget name)
  | _ => (cell, m)

/-- Look up cells and collect them into a list that starts with the given element tag.  Cells
that cannot be inserted are reported and left out; the answer tells whether none was. -/
def gather (m : Machine) (element : CellType) : List Cell → Bool × CellList × Machine
  | [] => (true, ⟨element, []⟩, m)
  | cell :: rest =>
    let (cell, m) := m.resolve cell
    match cell with
    | .reference name =>
      let (_, list, m) := (m.report (.undefinedListElement name)).gather element rest
      (false, list, m)
    | cell =>
      match element.absorb cell with
      | .ok merged =>
        let (complete, list, m) := m.gather merged rest
        (complete, ⟨list.element, cell :: list.items⟩, m)
      | .error _ =>
        let (_, list, m) := (m.report .mixedListTypes).gather element rest
        (false, list, m)

/-! ### Functions -/

/-- Add an overload; one that is ambiguous is reported and refused. -/
def addFunction (m : Machine) (overload : Overload) : Bool × Machine :=
  match m.registry.register overload with
  | .ok registry => (true, { m with registry := registry })
  | .error d => (false, m.report d)

/-- Add overloads one after the other and count those that were accepted. -/
def addFunctions (m : Machine) : List Overload → Nat × Machine
  | [] => (0, m)
  | overload :: rest =>
    let (accepted, m) := m.addFunction overload
    let (count, m) := m.addFunctions rest
    ((if accepted then 1 else 0) + count, m)

/-- Register one native function under several descriptions.  All of them are read first, so a
malformed one changes nothing; otherwise the answer counts the accepted overloads. -/
def register (m : Machine) (descriptions : List String) (flags : Flags)
    (resolve : Args → Native) : Except SignatureError Nat × Machine :=
  match descriptions.mapM Signature.parse with
  | .error e => (.error e, m)
  | .ok signatures =>
    let (count, m) := m.addFunctions
      (signatures.map fun s => ⟨{ s with flags := flags }, .native resolve⟩)
    (.ok count, m)

/-- Register a user-defined function with the given flags. -/
def defineFunction (m : Machine) (description : String) (flags : Flags) (code : Code) :
    Except SignatureError Bool × Machine :=
  match Signature.parse description with
  | .error e => (.error e, m)
  | .ok signature =>
    let (accepted, m) := m.addFunction ⟨{ signature with flags := flags }, .user code⟩
    (.ok accepted, m)

/-- Open a call of a function. -/
def initCall (m : Machine) (name : String) : Bool × Machine :=
  match m.registry.get? name with
  | some overloads => (true, { m with pending := .init name overloads :: m.pending })
  | none => (false, m.report (.undefinedFunction name))

/-- Give up the innermost pending calls until at most `floor` are left. -/
def settle (m : Machine) (floor : Nat) : Machine :=
  { m with pending := m.pending.drop (m.pending.length - floor) }

/-! ### Streams -/

/-- Write text to one of the ambient streams, of which only the output stream keeps it; the
answer is the reason for a refusal. -/
def writeStream (m : Machine) (stream : Stream) (text : String) : Option String × Machine :=
  match stream with
  | .output =>
    let (refusal, console) := m.console.write .output text
    (refusal, { m with console := console })
  | .discard | .input => (none, m)

/-- Write texts to the output stream until one is refused; the answer tells whether none was. -/
def print (m : Machine) : List String → Bool × Machine
  | [] => (true, m)
  | text :: rest =>
    match m.writeStream .output text with
    | (none, m) => m.print rest
    | (some _, m) => (false, m)

/-- Read one line of the input, without its line end. -/
def readLine (m : Machine) : LineRead × Machine :=
  let (line, rest) := takeLine m.input
  (line, { m with input := rest })

/-- Print operands from the top down with their positions. -/
def dumpCells (m : Machine) : Operands → Bool × Machine
  | [] => (true, m)
  | cell :: below =>
    let (cell, m) := m.resolve cell
    let (written, m) := m.print
      ["Stack element ", Integer.renderNat below.length, " : ", cell.display, "\n"]
    let (others, m) := m.dumpCells below
    (written && others, m)

/-- Print all operands from the top down and empty the stack. -/
def dump (m : Machine) : Bool × Machine :=
  let cells := m.stack
  let (written, m) := match cells with
    | [] => m.flush.print ["Stack : NULL\n"]
    | _ => m.flush.dumpCells cells
  let (ended, m) := m.print ["\n"]
  (written && ended, m)

/-- Print lines until one cannot be written. -/
def printLines (m : Machine) (lines : List String) : Bool × Machine :=
  m.print (lines.flatMap fun line => [line, "\n"])

/-- Print the signatures of all overloads of a function. -/
def help (m : Machine) (name : String) : Bool × Machine :=
  match m.registry.get? name with
  | some overloads => m.printLines (overloads.map fun o => o.signature.render)
  | none => (false, m.report (.helpNotFound name))

/-- Have both streams bring out what they have taken. -/
def flushStreams (m : Machine) : Machine :=
  { m with console := (m.console.flush .output).flush .errors }

/-- Check that every call has returned, then empty the operand stack and flush the streams. -/
def teardown (m : Machine) : Option Fault × Machine :=
  if !m.pending.isEmpty then (some (.pendingCallsOutstanding m.pending.length), m)
  else if m.callDepth ≠ 1 then (some (.frameImbalance m.callDepth), m)
  else (none, m.flush.flushStreams)

/-- A one-line description of the machine. -/
def describe (m : Machine) : String :=
  "Machine \x7b depth: " ++ Integer.renderNat m.callDepth ++ ", functions: " ++
    Integer.renderNat m.registry.size ++ ", pending: " ++ Integer.renderNat m.pending.length ++
    ", max_call_depth: " ++ Integer.renderNat m.maxCallDepth ++ " \x7d"

end Machine
end CellMachine
