import CellMachine.Machine.Exec

/-!
# Invoking overloads

An invocation checks the owners of the handles among the arguments, applies a listable overload
element by element where a parameter does not accept its argument directly, and otherwise runs
the body.  A user-defined body runs in a frame of its own: arguments are copied in, and the
by-reference ones are copied out when it ends.

How a program is executed is a parameter `execute` here, because a run needs a step allowance
and an invocation does not.  How a body is run is a parameter `run` of an invocation, which
decides only whether a body is run and with which arguments.
-/

namespace CellMachine

/-- Whether neighbouring owners are all the same. -/
def allSame : List Nat → Bool
  | a :: b :: rest => a == b && allSame (b :: rest)
  | _ => true

/-- Whether all handles among some cells that have an owner have the same one. -/
def ownersAgree (cells : List Cell) : Bool := allSame (Cell.ownersAll cells)

/-! ## Element-wise application -/

/-- An argument with whether it has to be taken apart. -/
structure Spread where
  apart : Bool
  cell : Cell

namespace Spread

def ofParam (p : Param) (cell : Cell) : Spread := ⟨p.spreads cell, cell⟩

/-- The arguments of a call with whether each has to be taken apart. -/
def ofArgs (signature : Signature) (args : Args) : List Spread :=
  List.zipWith ofParam signature.params args.cells

/-- How many elements an argument that is taken apart has. -/
def length (s : Spread) : Nat := ((s.cell.asItems?).map List.length).getD 0

/-- The share of one element-wise call: an element of what is taken apart, and all of the rest. -/
def element (index : Nat) (s : Spread) : Cell :=
  match s.apart, s.cell with
  | true, .list _ items => items[index]?.getD (.null .undetermined)
  | _, cell => cell

/-- The common length of what is taken apart, `none` if the lengths differ. -/
def commonLength (spreads : List Spread) : Option Nat :=
  match (spreads.filter apart).map length with
  | [] => some 0
  | first :: rest => if rest.all (· == first) then some first else none

/-- The arguments of all element-wise calls, in order. -/
def rows (spreads : List Spread) (count : Nat) : List (List Cell) :=
  (List.range count).map fun index => spreads.map (element index)

end Spread

/-- Whether a listable call has to be made element by element. -/
def needsBroadcast (signature : Signature) (args : Args) : Bool :=
  (Spread.ofArgs signature args).any Spread.apart

namespace Exec

/-- Report a diagnostic and give its message as an error cell. -/
def failWith (d : Diagnostic) : Exec Cell := do
  report d
  return .error d.message

/-- Make the element-wise calls in order and collect their results, the last first.  The first
error cell ends it, and so does a result that cannot join the others. -/
def collect (invoke : List Cell → Exec Cell) : CellType → List Cell → List (List Cell) → Exec Cell
  | element, done, [] => return .list element done.reverse
  | element, done, row :: rest => do
    let result ← invoke row
    if result.isError then return result
    else
      match element.absorb result with
      | .ok merged => collect invoke merged (result :: done) rest
      | .error _ => failWith .mixedListTypes

/-- Apply a listable overload element by element. -/
def broadcast (invoke : List Cell → Exec Cell) (signature : Signature) (args : Args) :
    Exec Cell :=
  let spreads := Spread.ofArgs signature args
  match Spread.commonLength spreads with
  | none => failWith (.listLengthMismatch signature.name)
  | some count => collect invoke .undetermined [] (Spread.rows spreads count)

/-! ## Bodies -/

/-- Answer the requests of a native function. -/
def runNative (execute : Code → Exec Ending) : Native → Exec (Cell × Args)
  | .done result args => return (result, args)
  | .report d next => do
    report d
    runNative execute next
  | .write stream text next => do
    runNative execute (next (← lift (·.writeStream stream text)))
  | .readLine next => do
    runNative execute (next (← lift (·.readLine)))
  | .push cell next => do
    push cell
    runNative execute next
  | .pop next => do
    runNative execute (next (← attempt pop).toOption)
  | .define name cell next => do
    runNative execute (next (← lift (·.define name cell)))
  | .execute code next => do
    runNative execute (next (← attempt (execute code)))
  | .teardown next => do
    runNative execute (next (← lift (·.teardown)))
  | .depths next => do
    runNative execute (next (← observe (·.callDepth)) (← observe (·.stack.length)))

/-- Bind the arguments under the names of their parameters; unbound references have no value to
bind. -/
def defineParams : List (Param × Cell) → Exec Unit
  | [] => return ()
  | (p, cell) :: rest => do
    if !cell.isReference then
      let _ ← lift (·.define p.name cell)
    defineParams rest

/-- The result of a user-defined body: its top operand, or the reason why there is none. -/
def bodyResult : Ending → Exec Cell
  | .success => do
    match ← attempt pop with
    | .error _ => return .error "Error: No return value"
    | .ok top =>
      match ← resolve top with
      | .reference name => return .error ("Error: Undefined variable \"" ++ name ++ "\" returned")
      | cell => return cell
  | .quit => return .error "Error: Interruption by user"
  | .failure line =>
    return .error ("Error at line " ++ Integer.renderNat (line / lineScale) ++
      " in function, line " ++ Integer.renderNat (line % lineScale) ++ " in source code")

/-- Copy the values of by-reference parameters back into the arguments, removing them from the
variables; `index` is the position of the first parameter. -/
def copyOut : List Param → Nat → Args → Exec Args
  | [], _, args => return args
  | p :: rest, index, args => do
    if p.byRef then
      let value ← lift fun m =>
        match m.scope.remove p.name with
        | .ok (cell, scope) => (some cell, m.setScope scope)
        | .error _ => (none, m)
      match value with
      | some cell => copyOut rest (index + 1) (args.set index cell)
      | none => copyOut rest (index + 1) args
    else copyOut rest (index + 1) args

/-- Run a user-defined body in a frame of its own, unless the calls are nested too deeply. -/
def runUser (execute : Code → Exec Ending) (signature : Signature) (code : Code) (args : Args) :
    Exec (Cell × Args) := do
  if ← observe fun m => decide (m.maxCallDepth ≤ m.callDepth) then
    return (.error "Error: Call stack overflow", args)
  else
    framed do
      defineParams (signature.params.zip args.cells)
      let ending ← execute code
      let result ← bodyResult ending
      let args ← copyOut signature.params 0 args
      return (result, args)

/-- Run the body of an overload. -/
def runBody (execute : Code → Exec Ending) (o : Overload) (args : Args) : Exec (Cell × Args) :=
  match o.body with
  | .native resolve => runNative execute (resolve args)
  | .user code => runUser execute o.signature code args

/-! ## Invocation -/

/-- Invoke a function whose body is run by `run`; the number bounds the nesting of element-wise
application. -/
def invokeWithin (run : Args → Exec (Cell × Args)) (signature : Signature) :
    Nat → Args → Exec (Cell × Args)
  | levels, args =>
    if signature.flags.matchOwner && !ownersAgree args.cells then do
      return (← failWith (.ownerMismatch signature.name), args)
    else if signature.flags.listable && needsBroadcast signature args then
      match levels with
      | 0 => exhausted
      | levels + 1 => do
        let inner (cells : List Cell) : Exec Cell := do
          return (← invokeWithin run signature levels (Args.ofCells cells)).1
        return (← broadcast inner signature args, args)
    else run args

/-- Invoke an overload.  Each level of element-wise application takes lists apart, so their
nesting bounds the levels. -/
def invoke (run : Overload → Args → Exec (Cell × Args)) (o : Overload) (args : Args) :
    Exec (Cell × Args) :=
  invokeWithin (run o) o.signature (Cell.heights args.cells) args

/-- Write rebound arguments back to the caller's variables; `index` is the position of the
first.  The answer tells whether none was refused. -/
def writeBack (args : Args) : List (Option String) → Nat → Exec Bool
  | [], _ => return true
  | none :: rest, index => writeBack args rest (index + 1)
  | some name :: rest, index => do
    if args.isRebound index then
      match args.get? index with
      | some cell =>
        let defined ← lift (·.define name cell)
        let others ← writeBack args rest (index + 1)
        return defined && others
      | none => writeBack args rest (index + 1)
    else writeBack args rest (index + 1)

/-- Make a call, bodies being run by `run`, and push its result.  An incomplete call pushes an
error cell instead; its diagnostic is reported unless a refused argument was reported before.  The
answer tells whether there was a result other than an error and all write-backs were accepted. -/
def makeCall (run : Overload → Args → Exec (Cell × Args)) (pending : PendingCall) : Exec Bool :=
  match pending.finish with
  | .error d => do
    if !pending.failed then
      report d
    push (.error d.message)
    return false
  | .ok bound => do
    let (result, args) ← invoke run bound.overload bound.args
    push result
    let written ← writeBack args bound.targets 0
    return !result.isError && written

/-- Take the innermost pending call. -/
def takePending : Exec PendingCall := fun m =>
  match m.pending with
  | [] => .fault .noPendingCall m
  | innermost :: outer => .ok innermost { m with pending := outer }

theorem takePending_bind {α : Type} {m : Machine} {innermost : PendingCall}
    {outer : List PendingCall} (h : m.pending = innermost :: outer) (f : PendingCall → Exec α) :
    (takePending >>= f) m = f innermost { m with pending := outer } := by
  have hTake : takePending m = .ok innermost { m with pending := outer } := by
    unfold takePending
    rw [h]
  change Exec.bind takePending f m = _
  unfold Exec.bind
  rw [hTake]

/-- Make the innermost pending call. -/
def call (execute : Code → Exec Ending) : Exec Bool := do
  makeCall (runBody execute) (← takePending)

end Exec
end CellMachine
