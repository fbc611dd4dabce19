import CellMachine.Call.Registry

/-!
# Calls under construction

A pending call is opened over all overloads of a name.  Each bound argument narrows the
overloads that can still take the arguments so far, so an argument that none can take is
refused when it is bound and not when the call is made.  Arguments bound before stay bound.
-/

namespace CellMachine

/-- An argument from the operand stack after its reference was looked up. -/
structure Argument where
  /-- The value, or the reference itself if the variable is unbound. -/
  cell : Cell
  /-- The variable, if the operand was a reference. -/
  variableName : Option String

namespace Argument

def ofValue (cell : Cell) : Argument := ⟨cell, none⟩

def ofVariable (name : String) (cell : Cell) : Argument := ⟨cell, some name⟩

def isUnbound (a : Argument) : Bool := a.cell.isReference

end Argument

/-- Whether a parameter takes an argument, given which objects are alive.  A by-reference
parameter also takes an unbound variable, which the callee may define; a by-value parameter of
a listable overload also takes lists of what it accepts. -/
def Param.takes (alive : Handle → Bool) (listable : Bool) (p : Param) (a : Argument)
    (mode : PassMode) : Bool :=
  a.cell.isValid alive &&
    (match mode with
    | .automatic => true
    | .value => !p.byRef
    | .reference => p.byRef) &&
    if p.byRef then a.isUnbound || p.accepts a.cell
    else !a.isUnbound && (p.accepts a.cell || (listable && p.acceptsBroadcast a.cell))

/-- Whether an overload takes an argument at a position, under the given name if there is one. -/
def Overload.takes (alive : Handle → Bool) (o : Overload) (position : Nat) (name : Option String)
    (a : Argument) (mode : PassMode) : Bool :=
  match o.signature.params[position]? with
  | none => false
  | some p =>
    (match name with
    | some name => name == p.name
    | none => true) && p.takes alive o.signature.flags.listable a mode

/-- The binding state of one call. -/
structure PendingCall where
  name : String
  /-- The overloads that can still take the arguments, in order of registration. -/
  viable : List Overload
  slots : List (Option Argument)
  /-- Where the next positional argument goes. -/
  next : Nat
  failed : Bool

/-- A call with its overload chosen and all arguments in place. -/
structure BoundCall where
  overload : Overload
  args : Args
  /-- The caller's variable behind each by-reference argument. -/
  targets : List (Option String)

namespace PendingCall

/-- Open a call over the overloads of a name, with room for the longest of them. -/
def init (name : String) (overloads : List Overload) : PendingCall where
  name := name
  viable := overloads
  slots := List.replicate ((overloads.map fun o => o.signature.arity).foldl max 0) none
  next := 0
  failed := false

/-- The argument bound at a position. -/
def slot? (c : PendingCall) (position : Nat) : Option Argument := c.slots[position]?.join

/-- Where an argument goes: behind the last one, or to the position that the first viable
overload with a parameter of the given name has it at. -/
def position? (c : PendingCall) : Option String → Option Nat
  | none => some c.next
  | some param => c.viable.findSome? fun o => o.signature.position? param

/-- The name that the first viable overload gives to a position, empty if none has it. -/
def paramName (c : PendingCall) (position : Nat) : String :=
  ((c.viable.findSome? fun o => o.signature.params[position]?).map Param.name).getD ""

/-- The diagnostic for an argument that no overload takes. -/
def rejection (alive : Handle → Bool) (c : PendingCall) (a : Argument) (mode : PassMode) :
    Diagnostic :=
  if !a.cell.isValid alive then
    match mode with
    | .value => .undefinedByValue
    | _ => .undefinedByReference
  else if a.isUnbound then
    match mode with
    | .reference => .undefinedByReference
    | _ => .undefinedByValue
  else .noMatchingOverload c.name

/-- Bind an argument by position or by name.  A refused argument marks the call as failed and
comes with the diagnostic to report; the overloads that refused it are gone all the same. -/
def bind (alive : Handle → Bool) (c : PendingCall) (param : Option String) (a : Argument)
    (mode : PassMode) : PendingCall × Option Diagnostic :=
  match c.position? param with
  | none =>
    ({ c with failed := true }, some (.unknownParameter c.name (param.getD "")))
  | some position =>
    if (c.slot? position).isSome then
      ({ c with failed := true },
        some (.parameterBoundTwice c.name (param.getD (c.paramName position))))
    else
      let viable := c.viable.filter fun o => o.takes alive position param a mode
      if viable.isEmpty then
        ({ c with viable := viable, failed := true }, some (c.rejection alive a mode))
      else
        ({ c with viable := viable, slots := c.slots.set position (some a), next := position + 1 },
          none)

/-- The parameters of an overload with the arguments bound at their positions. -/
def assignment (c : PendingCall) (o : Overload) : List (Param × Option Argument) :=
  o.signature.params.zipIdx.map fun (p, position) => (p, c.slot? position)

/-- The name of the first required parameter without an argument. -/
def missing? (c : PendingCall) (o : Overload) : Option String :=
  ((c.assignment o).find? fun (p, a) => p.isRequired && a.isNone).map fun (p, _) => p.name

/-- What a parameter is given: its argument, or else its default. -/
def cellFor (p : Param) : Option Argument → Cell
  | some a => a.cell
  | none => p.default.getD (.null p.type)

/-- The caller's variable to write back to: only by-reference parameters have one. -/
def variableFor (p : Param) : Option Argument → Option String
  | some a => if p.byRef then a.variableName else none
  | none => none

/-- Choose the first viable overload whose required parameters are all bound, and put its
arguments in place. -/
def finish (c : PendingCall) : Except Diagnostic BoundCall :=
  if c.failed then .error (.noMatchingOverload c.name)
  else
    match c.viable.find? fun o => (c.missing? o).isNone with
    | some o =>
      let slots := c.assignment o
      .ok ⟨o, Args.ofCells (slots.map fun (p, a) => cellFor p a),
        slots.map fun (p, a) => variableFor p a⟩
    | none =>
      match c.viable.head?.bind c.missing? with
      | some param => .error (.missingParameter c.name param)
      | none => .error (.noMatchingOverload c.name)

end PendingCall
end CellMachine
